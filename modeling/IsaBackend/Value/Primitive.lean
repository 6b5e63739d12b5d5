import IsaBackend.Builtin
import IsaBackend.Value.Error

/-!
# Primitives

The operations that code can call without defining them. Bits are counted from the least
significant one, and the result of two bit-vectors is as wide as the wider one.
-/

namespace IsaBackend

inductive Primitive where
  | addInt
  | subInt
  | mulInt
  | negInt
  | eqInt
  | ltInt
  | gtInt
  | leInt
  | geInt
  | andBool
  | orBool
  | eqBool
  | notBool
  | xorBits
  | andBits
  | orBits
  | addBits
  | subBits
  | eqBits
  | neBits
  | notBits
  | subrange
  | updateSubrange
  | zeroExtend
  | zeros
  | unsigned
  | length
  | builtin (builtin : Builtin)
  deriving DecidableEq, Repr

namespace Primitive

/-- The primitive of a name. Addition and subtraction of integers go by several names. -/
def ofName? (name : String) : Option Primitive :=
  match name with
  | "add_int" => some addInt
  | "add_range" => some addInt
  | "add_atom" => some addInt
  | "sub_int" => some subInt
  | "sub_range" => some subInt
  | "sub_atom" => some subInt
  | "mult_int" => some mulInt
  | "neg_int" => some negInt
  | "eq_int" => some eqInt
  | "lt_int" => some ltInt
  | "gt_int" => some gtInt
  | "lteq_int" => some leInt
  | "gteq_int" => some geInt
  | "and_bool" => some andBool
  | "or_bool" => some orBool
  | "eq_bool" => some eqBool
  | "not_bool" => some notBool
  | "xor_vec" => some xorBits
  | "and_vec" => some andBits
  | "or_vec" => some orBits
  | "add_vec" => some addBits
  | "sub_vec" => some subBits
  | "eq_bits" => some eqBits
  | "neq_bits" => some neBits
  | "not_vec" => some notBits
  | "vector_subrange" => some subrange
  | "vector_update_subrange" => some updateSubrange
  | "zero_extend" => some zeroExtend
  | "zeros" => some zeros
  | "unsigned" => some unsigned
  | "length" => some length
  | _ => (Builtin.ofName? name).map builtin

def int : Value → Except RunError Int
  | .int value => .ok value
  | other => .error (.typeMismatch "integer" other.kind)

def bool : Value → Except RunError Bool
  | .bool value => .ok value
  | other => .error (.typeMismatch "bool" other.kind)

def bits : Value → Except RunError (Nat × Nat)
  | .bits value width => .ok (value, width)
  | other => .error (.typeMismatch "bit-vector" other.kind)

/-- An integer argument that stands for a number of bits. -/
def count (value : Value) : Except RunError Nat := do
  let number ← int value
  if fitsCount number then return number.toNat else throw (.overflow number)

def unary (name : String) (op : Value → Except RunError Value) :
    List Value → Except RunError Value
  | [value] => op value
  | args => .error (.arity name 1 args.length)

def binary (name : String) (op : Value → Value → Except RunError Value) :
    List Value → Except RunError Value
  | [left, right] => op left right
  | args => .error (.arity name 2 args.length)

def onInts (name : String) (op : Int → Int → Value) : List Value → Except RunError Value :=
  binary name fun left right => do return op (← int left) (← int right)

def onBools (name : String) (op : Bool → Bool → Bool) : List Value → Except RunError Value :=
  binary name fun left right => do return .bool (op (← bool left) (← bool right))

/-- Apply an operation on the numbers of two bit-vectors and the width of the wider one. -/
def onBits (name : String) (op : Nat → Nat → Nat → Except RunError Value) :
    List Value → Except RunError Value :=
  binary name fun left right => do
    let (leftValue, leftWidth) ← bits left
    let (rightValue, rightWidth) ← bits right
    op leftValue rightValue (max leftWidth rightWidth)

/-- The difference of two numbers modulo a width, as far as a borrow of one covers it. -/
def subtract (left right width : Nat) : Except RunError Value :=
  if right ≤ left + (1 <<< width) then
    .ok (.bits (lowBits (left + (1 <<< width) - right) width) width)
  else .error .underflow

/-- The bounds of a range inside a bit-vector of a width. -/
def bounds (hi lo : Value) (width : Nat) : Except RunError (Nat × Nat) := do
  let hi ← count hi
  let lo ← count lo
  if lo > hi || hi ≥ width then throw (.outOfBounds hi lo width)
  return (hi, lo)

/-- The bits of a number from `hi` down to `lo`. -/
def readRange (value hi lo : Nat) : Nat := lowBits (value >>> lo) (hi - lo + 1)

/-- A number of a width with the bits from `hi` down to `lo` replaced. -/
def writeRange (value width hi lo update : Nat) : Nat :=
  let length := hi - lo + 1
  let hole := allOnes length <<< lo
  (value &&& (allOnes width ^^^ hole)) ||| (lowBits update length <<< lo)

def applySubrange (name : String) : List Value → Except RunError Value
  | [vector, hi, lo] => do
    let (value, width) ← bits vector
    let (hi, lo) ← bounds hi lo width
    return .bits (readRange value hi lo) (hi - lo + 1)
  | args => .error (.arity name 3 args.length)

def applyUpdate (name : String) : List Value → Except RunError Value
  | [vector, hi, lo, update] => do
    let (value, width) ← bits vector
    let (hi, lo) ← bounds hi lo width
    let (new, _) ← bits update
    return .bits (writeRange value width hi lo new) width
  | args => .error (.arity name 4 args.length)

/-- The text that a failed assertion reports. -/
def assertionText : Value → String
  | .text text => text
  | other => other.render

def applyBuiltin (name : String) : Builtin → List Value → Except RunError Value
  | .throw => unary name fun value => .error (.thrown value.render)
  | .exit => fun _ => .error .exited
  | .assert => binary name fun test text => do
    if ← bool test then return .unit else throw (.assertionFailed (assertionText text))
  | .cons => fun _ => .error (.typeMismatch "list" .listCell)

def apply (name : String) : Primitive → List Value → Except RunError Value
  | addInt => onInts name fun left right => .int (left + right)
  | subInt => onInts name fun left right => .int (left - right)
  | mulInt => onInts name fun left right => .int (left * right)
  | negInt => unary name fun value => do return .int (-(← int value))
  | eqInt => onInts name fun left right => .bool (left = right)
  | ltInt => onInts name fun left right => .bool (left < right)
  | gtInt => onInts name fun left right => .bool (left > right)
  | leInt => onInts name fun left right => .bool (left ≤ right)
  | geInt => onInts name fun left right => .bool (left ≥ right)
  | andBool => onBools name fun left right => left && right
  | orBool => onBools name fun left right => left || right
  | eqBool => onBools name fun left right => left == right
  | notBool => unary name fun value => do return .bool !(← bool value)
  | xorBits => onBits name fun left right width => .ok (.bits (left ^^^ right) width)
  | andBits => onBits name fun left right width => .ok (.bits (left &&& right) width)
  | orBits => onBits name fun left right width => .ok (.bits (left ||| right) width)
  | addBits => onBits name fun left right width =>
    .ok (.bits (lowBits (left + right) width) width)
  | subBits => onBits name subtract
  | eqBits => onBits name fun left right _ => .ok (.bool (left = right))
  | neBits => onBits name fun left right _ => .ok (.bool (left ≠ right))
  | notBits => unary name fun value => do
    let (number, width) ← bits value
    return .bits (allOnes width ^^^ number) width
  | subrange => applySubrange name
  | updateSubrange => applyUpdate name
  | zeroExtend => binary name fun vector width => do
    let (number, _) ← bits vector
    return .bits number (← count width)
  | zeros => unary name fun width => do return .bits 0 (← count width)
  | unsigned => unary name fun value => do
    let (number, _) ← bits value
    return .int number
  | length => unary name fun value => do
    let (_, width) ← bits value
    return .int width
  | builtin callee => applyBuiltin name callee

def call? (name : String) (args : List Value) : Option (Except RunError Value) :=
  (ofName? name).map fun primitive => primitive.apply name args

end Primitive

end IsaBackend
