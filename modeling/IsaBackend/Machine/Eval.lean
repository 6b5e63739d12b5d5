import IsaBackend.Code.Basic
import IsaBackend.Machine.Frame

/-!
# Reading

What the operands and the places of an instruction mean in an activation. A name is a local
first, then a register, then a member of an enumeration.
-/

namespace IsaBackend

structure Register where
  value : Value
  rep : Rep

structure Store where
  registers : NameTable Register
  fuel : Nat

/-- The state of one activation of a routine. -/
structure Activation extends Store where
  frame : Frame := ∅

namespace Program

/-- Whether a name is a member of an enumeration of the program. -/
def isMember (program : Program) (name : String) : Bool :=
  program.layouts.any fun
    | .enum _ members => members.contains name
    | _ => false

/-- The payload of a constructor, in the last union of the program that has it. -/
def payload? (program : Program) (ctor : String) : Option Rep :=
  program.layouts.reverse.findSome? fun
    | .union _ ctors => ctors.lookup ctor
    | _ => none

/-- Registers start with the values of fresh storage. -/
def initialRegisters (program : Program) : NameTable Register :=
  NameTable.ofList (program.registers.map fun (name, rep) => (name, ⟨rep.initial, rep⟩))

end Program

namespace Operator

/-- Arithmetic on bit-vectors wraps at a machine word. -/
def word (value width : Nat) : Value := .bits (lowBits value 64) width

def onInts (left right : Int) : Operator → Except RunError Value
  | add => .ok (.int (left + right))
  | sub => .ok (.int (left - right))
  | eq => .ok (.bool (left = right))
  | lt => .ok (.bool (left < right))
  | gt => .ok (.bool (left > right))
  | and => .error (.typeMismatch "bit-vector" .int)
  | or => .error (.typeMismatch "bit-vector" .int)
  | xor => .error (.typeMismatch "bit-vector" .int)

/-- An operator on the numbers of two bit-vectors, with the width of the wider one. -/
def onBits (left right width : Nat) : Operator → Except RunError Value
  | add => .ok (word (left + right) width)
  | sub =>
    if right ≤ left + (1 <<< 64) then .ok (word (left + (1 <<< 64) - right) width)
    else .error .underflow
  | and => .ok (word (left &&& right) width)
  | or => .ok (word (left ||| right) width)
  | xor => .ok (word (left ^^^ right) width)
  | eq => .ok (.bool (left = right))
  | lt => .ok (.bool (left < right))
  | gt => .ok (.bool (left > right))

def onBools (left right : Bool) : Operator → Except RunError Value
  | and => .ok (.bool (left && right))
  | or => .ok (.bool (left || right))
  | xor => .ok (.bool (left ^^ right))
  | eq => .ok (.bool (left = right))
  | _ => .error (.typeMismatch "integer" .bool)

def apply (op : Operator) : Value → Value → Except RunError Value
  | .int left, .int right => op.onInts left right
  | .bits left leftWidth, .bits right rightWidth => op.onBits left right (max leftWidth rightWidth)
  | .bool left, .bool right => op.onBools left right
  | .member left, .member right =>
    if op = eq then .ok (.bool (left = right))
    else .error (.typeMismatch ("operand of '" ++ op.symbol ++ "'") .member)
  | left, _ => .error (.typeMismatch ("operand of '" ++ op.symbol ++ "'") left.kind)

end Operator

namespace Activation

/-- The value of a name. -/
def read (program : Program) (act : Activation) (name : String) : Except RunError Value :=
  if act.frame.contains name then act.frame.read name
  else match act.registers.get? name with
    | some register => .ok register.value
    | none =>
      if program.isMember name then .ok (.member name) else .error (.unknownVariable name)

def project (record : Value) (field : String) : Except RunError Value :=
  match record.field? field with
  | some value => .ok value
  | none => .error (.unknownField field)

/-- The value of an inline expression. -/
def evalInline (program : Program) (act : Activation) : Inline → Except RunError Value
  | .name name => act.read program name
  | .unit => .ok .unit
  | .bool value => .ok (.bool value)
  | .int value => .ok (.int value)
  | .bits value width => .ok (.bits value width)
  | .text text => .ok (.text text)
  | .field record field => do project (← act.evalInline program record) field
  | .binary op left right => do
    let left ← act.evalInline program left
    op.apply left (← act.evalInline program right)
  | .not operand => do
    match ← act.evalInline program operand with
    | .bool value => return .bool !value
    | other => throw (.typeMismatch "bool" other.kind)
  | .address name =>
    if act.registers.contains name then .ok (.ref name) else .error (.unknownVariable name)

def eval (program : Program) (act : Activation) : Operand → Except RunError Value
  | .name name _ => act.read program name
  | .inline expr _ => act.evalInline program expr

def evalAll (program : Program) (act : Activation) : List Operand → Except RunError (List Value)
  | [] => .ok []
  | operand :: rest => do
    let value ← act.eval program operand
    return value :: (← act.evalAll program rest)

def load (program : Program) (act : Activation) : Place → Except RunError Value
  | .name name _ => act.read program name
  | .deref name _ => act.read program name
  | .field base field _ => do project (← act.load program base) field

end Activation

end IsaBackend
