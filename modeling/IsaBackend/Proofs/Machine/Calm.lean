import IsaBackend.Machine.Exec
import IsaBackend.Proofs.Effects

/-!
# Failures that have nothing to do with storage

Conversions, operators and primitives work on values alone. Whatever they fail with, it is never a
breach of the lifetime discipline.
-/

namespace IsaBackend

/-- Whether an error reports a breach of the lifetime discipline that a routine commits while it
runs or when it ends. -/
def RunError.isLifetime : RunError → Bool
  | doubleAlloc _ => true
  | unallocated _ => true
  | doubleRelease _ => true
  | useAfterRelease _ => true
  | leak _ _ => true
  | noReturn _ => true
  | _ => false

/-- A computation on values that never reports a breach of the lifetime discipline. -/
def Calm {α : Type} (result : Except RunError α) : Prop :=
  ∀ cause, result = .error cause → cause.isLifetime = false

namespace Calm

variable {α β : Type}

theorem ok (value : α) : Calm (.ok value) := fun _ h => by cases h

theorem error {cause : RunError} (h : cause.isLifetime = false) :
    Calm (.error cause : Except RunError α) := by
  intro other ho
  cases ho
  exact h

theorem bind {first : Except RunError α} {next : α → Except RunError β} (h : Calm first)
    (hnext : ∀ value, Calm (next value)) : Calm (first >>= next) := by
  intro cause hc
  rcases except_bind_eq_error.mp hc with hc | ⟨value, _, hc⟩
  · exact h cause hc
  · exact hnext value cause hc

end Calm

namespace Rep

mutual

theorem conform_calm : ∀ (rep : Rep) (value : Value), Calm (rep.conform value)
  | rep, value => by
    cases rep <;> cases value <;> simp only [conform]
    case machInt.int n => split <;> first | exact .ok _ | exact .error rfl
    case tuple.record elems values => exact (conformElems_calm values 0 elems).bind fun _ => .ok _
    case struct.record fields values =>
      exact (conformFields_calm values fields).bind fun _ => .ok _
    all_goals first | exact .ok _ | exact .error rfl

theorem conformElems_calm (values : List (String × Value)) :
    ∀ (index : Nat) (elems : List Rep), Calm (conformElems values index elems)
  | _, [] => .ok _
  | index, rep :: rest =>
    (conform_calm rep _).bind fun _ => (conformElems_calm values (index + 1) rest).bind fun _ =>
      .ok _

theorem conformFields_calm (values : List (String × Value)) :
    ∀ fields : List (String × Rep), Calm (conformFields values fields)
  | [] => .ok _
  | (_, rep) :: rest =>
    (conform_calm rep _).bind fun _ => (conformFields_calm values rest).bind fun _ => .ok _

end

end Rep

private theorem Value.ofDigits_calm (text : String) (digits : List Char)
    (radix bitsPerDigit : Nat) : Calm (Value.ofDigits text digits radix bitsPerDigit) := by
  simp only [Value.ofDigits]
  split
  · split
    · exact .ok _
    · exact .error rfl
  · exact .error rfl

private theorem Value.ofText_calm (text : String) : Calm (Value.ofText text) := by
  unfold Value.ofText
  split
  · exact Value.ofDigits_calm _ _ _ _
  · exact Value.ofDigits_calm _ _ _ _
  · split
    · exact .ok _
    · exact .error rfl

theorem Exec.initialiser_calm (rep : Rep) (value : Value) : Calm (Exec.initialiser rep value) := by
  cases value with
  | text content =>
    simp only [Exec.initialiser]
    split
    · exact .ok _
    · exact Value.ofText_calm content
  | _ => exact .ok _

theorem Operator.apply_calm (op : Operator) (left right : Value) : Calm (op.apply left right) := by
  cases left <;> cases right <;> simp only [Operator.apply]
  case int.int => cases op <;> first | exact .ok _ | exact .error rfl
  case bits.bits =>
    cases op <;> simp only [Operator.onBits]
    case sub => split <;> first | exact .ok _ | exact .error rfl
    all_goals exact .ok _
  case bool.bool => cases op <;> first | exact .ok _ | exact .error rfl
  case member.member => split <;> first | exact .ok _ | exact .error rfl
  all_goals exact .error rfl

theorem Activation.project_calm (record : Value) (field : String) :
    Calm (Activation.project record field) := by
  unfold Activation.project
  split
  · exact .ok _
  · exact .error rfl

namespace Primitive

private theorem int_calm (value : Value) : Calm (int value) := by
  cases value <;> first | exact .ok _ | exact .error rfl

private theorem bool_calm (value : Value) : Calm (bool value) := by
  cases value <;> first | exact .ok _ | exact .error rfl

private theorem bits_calm (value : Value) : Calm (bits value) := by
  cases value <;> first | exact .ok _ | exact .error rfl

private theorem count_calm (value : Value) : Calm (count value) := by
  refine (int_calm value).bind fun number => ?_
  split
  · exact .ok _
  · exact .error rfl

private theorem unary_calm (name : String) {op : Value → Except RunError Value}
    (h : ∀ value, Calm (op value)) (args : List Value) : Calm (unary name op args) := by
  unfold unary
  split
  · exact h _
  · exact .error rfl

private theorem binary_calm (name : String) {op : Value → Value → Except RunError Value}
    (h : ∀ left right, Calm (op left right)) (args : List Value) :
    Calm (binary name op args) := by
  unfold binary
  split
  · exact h _ _
  · exact .error rfl

private theorem onInts_calm (name : String) (op : Int → Int → Value) (args : List Value) :
    Calm (onInts name op args) :=
  binary_calm name (fun left right => (int_calm left).bind fun _ =>
    (int_calm right).bind fun _ => .ok _) args

private theorem onBools_calm (name : String) (op : Bool → Bool → Bool) (args : List Value) :
    Calm (onBools name op args) :=
  binary_calm name (fun left right => (bool_calm left).bind fun _ =>
    (bool_calm right).bind fun _ => .ok _) args

private theorem onBits_calm (name : String) {op : Nat → Nat → Nat → Except RunError Value}
    (h : ∀ left right width, Calm (op left right width)) (args : List Value) :
    Calm (onBits name op args) :=
  binary_calm name (fun left right => (bits_calm left).bind fun _ =>
    (bits_calm right).bind fun _ => h _ _ _) args

private theorem bounds_calm (hi lo : Value) (width : Nat) : Calm (bounds hi lo width) := by
  refine (count_calm hi).bind fun high => (count_calm lo).bind fun low => ?_
  split
  · exact .error rfl
  · exact .ok _

private theorem applySubrange_calm (name : String) (args : List Value) :
    Calm (applySubrange name args) := by
  unfold applySubrange
  split
  · exact (bits_calm _).bind fun _ => (bounds_calm _ _ _).bind fun _ => .ok _
  · exact .error rfl

private theorem applyUpdate_calm (name : String) (args : List Value) : Calm
    (applyUpdate name args) := by
  unfold applyUpdate
  split
  · exact (bits_calm _).bind fun _ => (bounds_calm _ _ _).bind fun _ =>
      (bits_calm _).bind fun _ => .ok _
  · exact .error rfl

private theorem applyBuiltin_calm (name : String) (builtin : Builtin) (args : List Value) :
    Calm (applyBuiltin name builtin args) := by
  cases builtin with
  | throw => exact unary_calm name (fun _ => .error rfl) args
  | exit => exact .error rfl
  | assert =>
    refine binary_calm name (fun test text => (bool_calm test).bind fun holds => ?_) args
    split
    · exact .ok _
    · exact .error rfl
  | cons => exact .error rfl

theorem apply_calm (name : String) (primitive : Primitive) (args : List Value) :
    Calm (primitive.apply name args) := by
  cases primitive <;> simp only [apply]
  case negInt => exact unary_calm name (fun value => (int_calm value).bind fun _ => .ok _) args
  case notBool => exact unary_calm name (fun value => (bool_calm value).bind fun _ => .ok _) args
  case subBits =>
    refine onBits_calm name (fun left right width => ?_) args
    unfold subtract
    split
    · exact .ok _
    · exact .error rfl
  case notBits => exact unary_calm name (fun value => (bits_calm value).bind fun _ => .ok _) args
  case zeroExtend =>
    exact binary_calm name (fun vector width => (bits_calm vector).bind fun _ =>
      (count_calm width).bind fun _ => .ok _) args
  case zeros => exact unary_calm name (fun width => (count_calm width).bind fun _ => .ok _) args
  case unsigned => exact unary_calm name (fun value => (bits_calm value).bind fun _ => .ok _) args
  case length => exact unary_calm name (fun value => (bits_calm value).bind fun _ => .ok _) args
  case subrange => exact applySubrange_calm name args
  case updateSubrange => exact applyUpdate_calm name args
  case builtin callee => exact applyBuiltin_calm name callee args
  all_goals
    first
      | exact onInts_calm name _ args
      | exact onBools_calm name _ args
      | exact onBits_calm name (fun _ _ _ => .ok _) args

end Primitive

theorem Program.construct_calm (ctor : String) (payload : Rep) (args : List Value) :
    Calm (Program.construct ctor payload args) := by
  unfold Program.construct
  split
  · exact (Rep.conform_calm payload _).bind fun _ => .ok _
  · exact .error rfl

private theorem Routine.bindParams_calm (frame : Frame) (params : List (String × Rep))
    (args : List Value) : Calm (Routine.bindParams frame params args) := by
  induction params generalizing frame args with
  | nil => exact .ok _
  | cons param params ih =>
    obtain ⟨name, rep⟩ := param
    cases args with
    | nil => exact .ok _
    | cons arg args => exact (Rep.conform_calm rep arg).bind fun _ => ih _ _

theorem Routine.entryFrame_calm (routine : Routine) (args : List Value) :
    Calm (routine.entryFrame args) := by
  unfold Routine.entryFrame
  split
  · exact .error rfl
  · refine (Routine.bindParams_calm _ _ _).bind fun frame => ?_
    split
    · exact .ok _
    · exact .ok _

end IsaBackend
