/-!
# Built-in callees

Four source forms become calls of functions that every program has.
-/

namespace IsaBackend

/-- A callee that needs no declaration. -/
inductive Builtin where
  | throw
  | exit
  | assert
  | cons
  deriving DecidableEq, Repr

namespace Builtin

def name : Builtin → String
  | throw => "throw"
  | exit => "exit"
  | assert => "assert"
  | cons => "cons"

def all : List Builtin := [throw, exit, assert, cons]

def ofName? (callee : String) : Option Builtin := all.find? fun builtin => builtin.name = callee

def isName (callee : String) : Bool := (ofName? callee).isSome

end Builtin

end IsaBackend
