import IsaBackend.Rep.Basic
import IsaBackend.Value.Error

/-!
# Values and representations

Storage of a representation starts with an initial value and only ever takes values that conform
to it: machine integers are checked for their range, and packed bit-vectors are cut to their width.
-/

namespace IsaBackend

namespace Rep

mutual

/-- The value of fresh storage. -/
def initial : Rep → Value
  | bigInt => .int 0
  | machInt => .int 0
  | wideBits _ => .bits 0 0
  | packedBits width _ => .bits 0 width
  | unit => .unit
  | bool => .bool false
  | string => .text ""
  | tuple elems => .record (initialElems 0 elems)
  | struct _ fields => .record (initialFields fields)
  | enum _ members => .member (members.headD "")
  | union _ ctors => initialVariant ctors
  | ref _ => .ref ""

def initialElems : Nat → List Rep → List (String × Value)
  | _, [] => []
  | index, rep :: rest => (tupleField index, rep.initial) :: initialElems (index + 1) rest

def initialFields : List (String × Rep) → List (String × Value)
  | [] => []
  | (name, rep) :: rest => (name, rep.initial) :: initialFields rest

/-- A union starts with its first constructor. -/
def initialVariant : List (String × Rep) → Value
  | [] => .unit
  | (ctor, payload) :: _ => .variant ctor payload.initial

end

mutual

/-- Bring a value into the shape of a representation. -/
def conform : Rep → Value → Except RunError Value
  | machInt, .int value => if fitsWord value then .ok (.int value) else .error (.overflow value)
  | bigInt, .int value => .ok (.int value)
  | packedBits width _, .bits value _ => .ok (.bits (lowBits value width) width)
  | wideBits _, .bits value width => .ok (.bits value width)
  | unit, .unit => .ok .unit
  | bool, .bool value => .ok (.bool value)
  | string, .text text => .ok (.text text)
  | enum _ _, .member name => .ok (.member name)
  | union _ _, .variant ctor payload => .ok (.variant ctor payload)
  | ref _, .ref name => .ok (.ref name)
  | struct _ fields, .record values => do return .record (← conformFields values fields)
  | tuple elems, .record values => do return .record (← conformElems values 0 elems)
  | rep, value => .error (.typeMismatch rep.render value.kind)

/-- The components of a tuple. Those that are missing take their initial values. -/
def conformElems (values : List (String × Value)) :
    Nat → List Rep → Except RunError (List (String × Value))
  | _, [] => .ok []
  | index, rep :: rest => do
    let name := tupleField index
    let value ← rep.conform ((values.lookup name).getD rep.initial)
    return (name, value) :: (← conformElems values (index + 1) rest)

/-- The fields of a struct. Those that are missing take their initial values. -/
def conformFields (values : List (String × Value)) :
    List (String × Rep) → Except RunError (List (String × Value))
  | [] => .ok []
  | (name, rep) :: rest => do
    let value ← rep.conform ((values.lookup name).getD rep.initial)
    return (name, value) :: (← conformFields values rest)

end

end Rep

namespace Value

/-- Read the digits of a bit-vector behind the mark of their radix. -/
def ofDigits (text : String) (digits : List Char) (radix bitsPerDigit : Nat) :
    Except RunError Value :=
  let width := (String.ofList digits).utf8ByteSize * bitsPerDigit
  match Digits.readNat? radix digits with
  | some value =>
    if fitsCount width then .ok (.bits value width) else .error (.invalidLiteral text)
  | none => .error (.invalidLiteral text)

/-- Read the text of a wide literal: hexadecimal or binary digits of a bit-vector behind a mark,
or else a decimal integer. -/
def ofText (text : String) : Except RunError Value :=
  match text.toList with
  | '0' :: 'x' :: digits => ofDigits text digits 16 4
  | '0' :: 'b' :: digits => ofDigits text digits 2 1
  | digits =>
    match Digits.readInt? digits with
    | some value => .ok (.int value)
    | none => .error (.invalidLiteral text)

end Value

end IsaBackend
