import IsaBackend.Inline

/-!
# Run-time values

Both representations of integers share one kind of value, and so do both representations of
bit-vectors. The number of a bit-vector may exceed its width.
-/

namespace IsaBackend

inductive Value where
  | unit
  | bool (value : Bool)
  | int (value : Int)
  /-- A bit-vector: a number and a width. -/
  | bits (value width : Nat)
  | text (text : String)
  /-- The fields of a struct or a tuple, in order. -/
  | record (fields : List (String × Value))
  /-- A member of an enumeration. -/
  | member (name : String)
  /-- A constructor of a union and its payload. -/
  | variant (ctor : String) (payload : Value)
  /-- The address of a register. -/
  | ref (name : String)
  deriving Repr

/-- What sort of value was found where another was expected. -/
inductive ValueKind where
  | unit
  | bool
  | int
  | bits
  | text
  | record
  | member
  | variant
  | ref
  /-- Lists have no values. -/
  | listCell
  deriving DecidableEq, Repr

def ValueKind.render : ValueKind → String
  | unit => "unit"
  | bool => "bool"
  | int => "integer"
  | bits => "bit-vector"
  | text => "string"
  | record => "struct"
  | member => "enum"
  | variant => "union"
  | ref => "register reference"
  | listCell => "list cell"

namespace Value

def kind : Value → ValueKind
  | unit => .unit
  | bool _ => .bool
  | int _ => .int
  | bits _ _ => .bits
  | text _ => .text
  | record _ => .record
  | member _ => .member
  | variant _ _ => .variant
  | ref _ => .ref

def field? : Value → String → Option Value
  | record fields, name => fields.lookup name
  | _, _ => none

def replaceEntry (name : String) (value : Value) : List (String × Value) → List (String × Value)
  | [] => []
  | (key, old) :: rest =>
    if key = name then (key, value) :: rest else (key, old) :: replaceEntry name value rest

def setField? : Value → String → Value → Option Value
  | record fields, name, value =>
    (fields.lookup name).map fun _ => record (replaceEntry name value fields)
  | _, _, _ => none

/-- The number of a bit-vector, if it fits an unsigned machine word. -/
def toUnsignedWord? : Value → Option Nat
  | bits value _ => if value < 1 <<< 64 then some value else none
  | _ => none

/-- An integer that fits a signed machine word. -/
def toSignedWord? : Value → Option Int
  | int value => if fitsWord value then some value else none
  | _ => none

mutual

def render : Value → String
  | unit => "()"
  | bool value => toString value
  | int value => toString value
  | bits value width => Inline.renderBits value width
  | text content => Quoted.quote content
  | record fields => "\x7b " ++ String.intercalate ", " (renderFields fields) ++ " \x7d"
  | member name => name
  | variant ctor payload => ctor ++ "(" ++ payload.render ++ ")"
  | ref name => "&" ++ name

def renderFields : List (String × Value) → List String
  | [] => []
  | (name, value) :: rest => (name ++ " = " ++ value.render) :: renderFields rest

end

end Value

def lowBits (value width : Nat) : Nat := value % (1 <<< width)

/-- The number of a width with all bits set. -/
def allOnes (width : Nat) : Nat := (1 <<< width) - 1

end IsaBackend
