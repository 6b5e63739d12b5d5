import IsaBackend.Inline
import IsaBackend.Rep.Basic

/-!
# Linear code

The body of a routine is a list of instructions in which storage is explicit: a name comes to
life by `alloc` or `init` and is released once on every path that follows. Instructions nest only
in the arms of a branch and in the body of a loop.
-/

namespace IsaBackend

/-- A value that an instruction reads. -/
inductive Operand where
  | name (name : String) (rep : Rep)
  | inline (inline : Inline) (rep : Rep)
  deriving DecidableEq

namespace Operand

def rep : Operand → Rep
  | name _ rep => rep
  | inline _ rep => rep

def unit : Operand := inline .unit .unit

/-- The name that the operand reads, if it is a name or a chain of fields. -/
def root? : Operand → Option String
  | name key _ => some key
  | inline expr _ => expr.root?

def toInline : Operand → Inline
  | name key _ => .name key
  | inline expr _ => expr

end Operand

/-- A location that an instruction writes. -/
inductive Place where
  | name (name : String) (rep : Rep)
  | field (base : Place) (field : String) (rep : Rep)
  /-- What a pointer points to. -/
  | deref (name : String) (rep : Rep)
  deriving DecidableEq

namespace Place

def rep : Place → Rep
  | name _ rep => rep
  | field _ _ rep => rep
  | deref _ rep => rep

def root : Place → String
  | name key _ => key
  | field base _ _ => base.root
  | deref key _ => key

end Place

/-- An instruction. -/
inductive Instr where
  /-- Declare a local with a stack representation. -/
  | decl (rep : Rep) (name : String)
  /-- Declare and allocate a local with a heap representation. -/
  | alloc (rep : Rep) (name : String)
  /-- Declare and allocate a local, and give it a value. -/
  | init (rep : Rep) (name : String) (value : Operand)
  | branch (test : Operand) (onTrue onFalse : List Instr) (rep : Rep)
  | call (dest : Place) (callee : String) (args : List Operand)
  /-- Store a value at another representation. -/
  | convert (dest : Place) (value : Operand)
  /-- Store a value with a stack representation. -/
  | assign (dest : Place) (value : Operand)
  /-- Copy a value with a heap representation. -/
  | copy (dest : Place) (value : Operand)
  /-- Release a local with a heap representation. -/
  | release (rep : Rep) (name : String)
  | ret (value : Operand)
  | comment (text : String)
  /-- Repeat until a `leave`. -/
  | loop (body : List Instr)
  | leave

namespace Instr

/-- The name that an instruction brings to life. -/
def allocated? : Instr → Option String
  | alloc _ name => some name
  | init _ name _ => some name
  | _ => none

mutual

/-- The names that an instruction and those nested in it bring to life, in order. -/
def allocations : Instr → List String
  | alloc _ name => [name]
  | init _ name _ => [name]
  | branch _ onTrue onFalse _ => allocationsAll onTrue ++ allocationsAll onFalse
  | loop body => allocationsAll body
  | _ => []

def allocationsAll : List Instr → List String
  | [] => []
  | instr :: rest => instr.allocations ++ allocationsAll rest

end

end Instr

/-- A compiled function. -/
structure Routine where
  name : String
  params : List (String × Rep)
  /-- A heap result is written to the result parameter, and the body returns unit. -/
  result : Rep
  body : List Instr

namespace Routine

/-- The parameter that takes heap results. -/
def resultParam : String := "rop"

/-- Whether the result is passed back through the result parameter. -/
def returnsByReference (routine : Routine) : Bool := !routine.result.isStack

end Routine

/-- A compiled definition. -/
inductive Item where
  | register (name : String) (rep : Rep)
  | routine (routine : Routine)
  /-- The layout of a named type. -/
  | layout (rep : Rep)

structure Program where
  items : List Item

namespace Program

def routines (program : Program) : List Routine :=
  program.items.filterMap fun
    | .routine routine => some routine
    | _ => none

def routine? (program : Program) (name : String) : Option Routine :=
  program.routines.find? fun routine => routine.name = name

def registers (program : Program) : List (String × Rep) :=
  program.items.filterMap fun
    | .register name rep => some (name, rep)
    | _ => none

def layouts (program : Program) : List Rep :=
  program.items.filterMap fun
    | .layout rep => some rep
    | _ => none

end Program

end IsaBackend
