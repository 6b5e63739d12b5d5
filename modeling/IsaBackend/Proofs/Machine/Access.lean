import IsaBackend.Proofs.Machine.Calm
import IsaBackend.Proofs.Machine.Frames

/-!
# Safe reads and writes

Reads of names that a discipline allows never find a released local, if uses are watched. Writes
to such names keep the stack of live names besides.
-/

namespace IsaBackend

/-- An error that code may end in which keeps to a discipline: no breach of it, or a use of a
released local where uses are not watched. -/
def Discipline.Admits (disc : Discipline) (cause : RunError) : Prop :=
  cause.isLifetime = false ∨ ¬disc.watches ∧ ∃ name, cause = .useAfterRelease name

/-- A step that succeeds with a condition on its value, or fails with an admitted error. -/
def Discipline.Safe {α : Type} (disc : Discipline) (result : Except RunError α)
    (good : α → Prop) : Prop :=
  match result with
  | .ok value => good value
  | .error cause => disc.Admits cause

variable {disc : Discipline} {program : Program} {act : Activation} {live : List String}

namespace Discipline

variable {α β : Type}

private theorem Safe.ok {value : α} {good : α → Prop} (h : good value) :
    disc.Safe (.ok value) good := h

private theorem Safe.error {cause : RunError} {good : α → Prop} (h : cause.isLifetime = false) :
    disc.Safe (.error cause) good := .inl h

theorem Safe.bind {first : Except RunError α} {next : α → Except RunError β}
    {middle : α → Prop} {good : β → Prop} (h : disc.Safe first middle)
    (hnext : ∀ value, middle value → disc.Safe (next value) good) :
    disc.Safe (first >>= next) good := by
  cases first with
  | ok value => exact hnext value h
  | error cause => exact h

end Discipline

theorem Calm.safe {α : Type} {result : Except RunError α} (h : Calm result) :
    disc.Safe result fun _ => True := by
  cases result with
  | ok value => trivial
  | error cause => exact .inl (h cause rfl)

namespace Frame.Follows

variable {frame : Frame}

/-- A use of a name that can be used is no breach, whatever is done with the slot. -/
private theorem use_safe {α : Type} (h : frame.Follows disc live) {name : String}
    (hu : disc.Usable live name) {slot : Slot} (hs : frame.get? name = some slot)
    {result : Except RunError α} {good : α → Prop} (hr : disc.Safe result good) :
    disc.Safe (if slot.released then .error (.useAfterRelease name) else result) good := by
  by_cases hgone : slot.released = true
  · rw [if_pos hgone]
    refine .inr ⟨fun hw => ?_, name, rfl⟩
    have := h.not_released hs hu hw
    simp [hgone] at this
  · rw [if_neg hgone]
    exact hr

theorem read_safe (h : frame.Follows disc live) {name : String} (hu : disc.Usable live name) :
    disc.Safe (frame.read name) fun _ => True := by
  unfold Frame.read
  split
  · rename_i slot hs
    exact h.use_safe hu hs (.ok trivial)
  · exact .error rfl

private theorem write_safe (h : frame.Follows disc live) {name : String}
    (hu : disc.Usable live name)
    (value : Value) : disc.Safe (frame.write name value) fun next => next.Follows disc live := by
  unfold Frame.write
  split
  · rename_i slot hs
    exact h.use_safe hu hs (.ok (h.setValue hs value))
  · exact .error rfl

end Frame.Follows

namespace Activation

private theorem read_safe (h : act.frame.Follows disc live) {name : String}
    (hu : disc.Usable live name) : disc.Safe (act.read program name) fun _ => True := by
  unfold read
  split
  · exact h.read_safe hu
  · split
    · exact .ok trivial
    · split
      · exact .ok trivial
      · exact .error rfl

private theorem evalInline_safe (h : act.frame.Follows disc live) :
    ∀ expr : Inline, (∀ name ∈ expr.names, disc.Usable live name) →
      disc.Safe (act.evalInline program expr) fun _ => True
  | .name name, hu => read_safe h (hu name (by simp [Inline.names]))
  | .unit, _ => .ok trivial
  | .bool _, _ => .ok trivial
  | .int _, _ => .ok trivial
  | .bits _ _, _ => .ok trivial
  | .text _, _ => .ok trivial
  | .field record field, hu =>
    (evalInline_safe h record hu).bind fun value _ => (project_calm value field).safe
  | .binary op left right, hu => by
    have hleft : ∀ name ∈ left.names, disc.Usable live name :=
      fun name hn => hu name (List.mem_append_left _ hn)
    have hright : ∀ name ∈ right.names, disc.Usable live name :=
      fun name hn => hu name (List.mem_append_right _ hn)
    refine (evalInline_safe h left hleft).bind fun first _ => ?_
    exact (evalInline_safe h right hright).bind fun second _ => (op.apply_calm first second).safe
  | .not operand, hu => by
    refine (evalInline_safe h operand hu).bind fun value _ => ?_
    cases value <;> first | exact .ok trivial | exact .error rfl
  | .address name, _ => by
    simp only [evalInline]
    split
    · exact .ok trivial
    · exact .error rfl

theorem eval_safe (h : act.frame.Follows disc live) {operand : Operand}
    (hr : disc.Reads live operand) : disc.Safe (act.eval program operand) fun _ => True := by
  cases operand with
  | name name rep => exact read_safe h (hr.2 name (by simp [Operand.names]))
  | inline expr rep => exact evalInline_safe h expr hr.2

theorem evalAll_safe (h : act.frame.Follows disc live) {operands : List Operand}
    (hr : ∀ operand ∈ operands, disc.Reads live operand) :
    disc.Safe (act.evalAll program operands) fun _ => True := by
  induction operands with
  | nil => exact .ok trivial
  | cons operand rest ih =>
    refine (eval_safe h (hr operand List.mem_cons_self)).bind fun value _ => ?_
    exact (ih fun other ho => hr other (List.mem_cons_of_mem _ ho)).bind fun _ _ => .ok trivial

private theorem load_safe (h : act.frame.Follows disc live) :
    ∀ place : Place, disc.Usable live place.root →
      disc.Safe (act.load program place) fun _ => True
  | .name _ _, hu => read_safe h hu
  | .deref _ _, hu => read_safe h hu
  | .field base field _, hu =>
    (load_safe h base hu).bind fun value _ => (project_calm value field).safe

private theorem write_safe (h : act.frame.Follows disc live) {name : String}
    (hu : disc.Usable live name) (value : Value) :
    disc.Safe (act.write name value) fun next => next.frame.Follows disc live := by
  unfold write
  split
  · exact (h.write_safe hu value).bind fun next hnext => .ok hnext
  · split
    · exact .ok h
    · exact .error rfl

theorem store_safe (h : act.frame.Follows disc live) :
    ∀ (place : Place) (value : Value), disc.Usable live place.root →
      disc.Safe (act.store program place value) fun next => next.frame.Follows disc live
  | .name _ rep, value, hu => (rep.conform_calm value).safe.bind fun _ _ => write_safe h hu _
  | .deref _ rep, value, hu => (rep.conform_calm value).safe.bind fun _ _ => write_safe h hu _
  | .field base field rep, value, hu => by
    refine (rep.conform_calm value).safe.bind fun value _ => ?_
    refine (load_safe h base hu).bind fun record _ => ?_
    cases hset : record.setField? field value with
    | none => exact .error rfl
    | some record => exact store_safe h base record hu

end Activation

end IsaBackend
