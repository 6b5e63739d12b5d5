import IsaBackend.Machine.Exec
import IsaBackend.Proofs.Effects

/-!
# Stores

A store that succeeds leads to another state, and one that fails changes nothing: everything that can
fail comes before the one write at the end. So what a store does is a change of the activation.
-/

namespace IsaBackend

/-- The locals after one that was not released gets a new value. -/
def Frame.write (frame : Frame) (name : String) (value : Value) : Except RunError Frame :=
  match frame.get? name with
  | some slot =>
    if slot.released then .error (.useAfterRelease name)
    else .ok (frame.set name { slot with value })
  | none => .error (.unknownVariable name)

namespace Activation

def write (act : Activation) (name : String) (value : Value) : Except RunError Activation :=
  if act.frame.contains name then do
    return { act with frame := ← act.frame.write name value }
  else match act.registers.get? name with
    | some register =>
      .ok { act with registers := act.registers.set name { register with value } }
    | none => .error (.unknownVariable name)

def store (program : Program) (act : Activation) : Place → Value → Except RunError Activation
  | .name name rep, value => do act.write name (← rep.conform value)
  | .deref name rep, value => do act.write name (← rep.conform value)
  | .field base field rep, value => do
    let value ← rep.conform value
    let record ← act.load program base
    match record.setField? field value with
    | some record => act.store program base record
    | none => throw (.unknownField field)

end Activation

namespace Exec

variable {α : Type} {act : Activation}

theorem ask_of_ok {question : Activation → Except RunError α} {value : α}
    (h : question act = .ok value) : ask question act = .ok value act := by
  simp only [ask, h]

theorem ask_of_error {question : Activation → Except RunError α} {cause : RunError}
    (h : question act = .error cause) : ask question act = .error cause act := by
  simp only [ask, h]

theorem change_of_ok {update : Activation → Except RunError Activation} {final : Activation}
    (h : update act = .ok final) : change update act = .ok () final := by
  simp only [change, h]

theorem change_of_error {update : Activation → Except RunError Activation} {cause : RunError}
    (h : update act = .error cause) : change update act = .error cause act := by
  simp only [change, h]

private theorem write_eq_change (name : String) (value : Value) :
    write name value = change fun act => act.write name value := by
  funext act
  refine (bind_of_ok (get_apply act)).trans ?_
  cases hslot : act.frame.get? name with
  | some slot =>
    cases hreleased : slot.released with
    | true =>
      simp only [hreleased]
      refine (change_of_error ?_).symm
      simp only [Activation.write, NameTable.contains, Frame.write, hslot, hreleased]
      rfl
    | false =>
      simp only [hreleased]
      refine (change_of_ok ?_).symm
      simp only [Activation.write, NameTable.contains, Frame.write, hslot, hreleased]
      rfl
  | none =>
    cases hregister : act.registers.get? name with
    | some register =>
      refine (change_of_ok ?_).symm
      simp [Activation.write, NameTable.contains, hslot, hregister]
    | none =>
      refine (change_of_error ?_).symm
      simp [Activation.write, NameTable.contains, hslot, hregister]

private theorem store_name_eq_change (name : String) (rep : Rep) (value : Value) :
    (do write name (← ask fun _ => rep.conform value)) =
      change (fun act => do act.write name (← rep.conform value)) := by
  funext act
  cases hvalue : rep.conform value with
  | error cause => exact bind_of_error (ask_of_error rfl)
  | ok stored =>
    have hask : ask (fun _ => Except.ok stored) act = .ok stored act := rfl
    rw [bind_of_ok hask, write_eq_change]
    rfl

/-- What a store does in place is a change that is made at once. The induction goes from a field to the
record around it. -/
theorem store_eq_change (program : Program) (dest : Place) (value : Value) :
    store program dest value = change fun act => act.store program dest value := by
  induction dest generalizing value with
  | name name rep => exact store_name_eq_change name rep value
  | deref name rep => exact store_name_eq_change name rep value
  | field base field rep ih =>
    funext act
    cases hvalue : rep.conform value with
    | error cause =>
      refine (bind_of_error (ask_of_error hvalue)).trans (change_of_error ?_).symm
      simp [Activation.store, hvalue]
    | ok stored =>
      refine (bind_of_ok (ask_of_ok hvalue)).trans ?_
      cases hrecord : act.load program base with
      | error cause =>
        refine (bind_of_error (ask_of_error hrecord)).trans (change_of_error ?_).symm
        simp [Activation.store, hvalue, hrecord]
      | ok record =>
        refine (bind_of_ok (ask_of_ok hrecord)).trans ?_
        cases hset : record.setField? field stored with
        | none =>
          refine (change_of_error ?_).symm
          simp [Activation.store, hvalue, hrecord, hset, throw, throwThe, MonadExceptOf.throw]
        | some updated =>
          simp only [ih, change, Activation.store, hvalue, hrecord, hset, except_ok_bind]

variable {program : Program} {dest : Place} {value : Value}

theorem store_of_ok {final : Activation} (h : act.store program dest value = .ok final) :
    store program dest value act = .ok () final := by
  rw [store_eq_change]
  exact change_of_ok h

theorem store_of_error {cause : RunError} (h : act.store program dest value = .error cause) :
    store program dest value act = .error cause act := by
  rw [store_eq_change]
  exact change_of_error h

end Exec

end IsaBackend
