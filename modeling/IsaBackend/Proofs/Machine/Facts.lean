import IsaBackend.Proofs.Code.Match
import IsaBackend.Proofs.Machine.Stores

/-!
# Facts about two activations

Where facts hold of the locals of two activations, operands that match have the same value, and
stores to places that match keep the facts.
-/

namespace IsaBackend

namespace Facts

variable [OwnNames]

/-- The facts hold of the locals of two activations. -/
structure Hold (facts : Facts) (frame other : Frame) : Prop where
  shared : ∀ name, ¬Own name → frame.get? name = other.get? name
  tied : ∀ entry ∈ facts.ties, ∃ slot, frame.get? entry.1 = some slot ∧
    other.get? entry.2 = some slot ∧ slot.released = false
  pairing : Pairing facts.ties

variable {facts less : Facts} {frame other : Frame} {left right : String}

theorem Hold.mono (h : facts.Hold frame other) (hless : less.Within facts) :
    less.Hold frame other :=
  ⟨h.shared, fun entry he => h.tied entry (hless he), h.pairing.mono hless⟩

theorem Hold.get? (h : facts.Hold frame other) (hsame : facts.Same left right) :
    frame.get? left = other.get? right := by
  rcases hsame with hmem | ⟨rfl, hplain⟩
  · obtain ⟨slot, hleft, hright, _⟩ := h.tied _ hmem
    exact hleft.trans hright.symm
  · exact h.shared left hplain

theorem Hold.alike_of_same (h : facts.Hold frame other) (hsame : facts.Same left right) :
    Alike left right := by
  rcases hsame with hmem | hplain
  · exact h.pairing.alike _ hmem
  · exact .inl hplain

private theorem shared_set (h : ∀ name, ¬Own name → frame.get? name = other.get? name)
    (halike : Alike left right) (slot : Slot) (name : String) (hname : ¬Own name) :
    (frame.set left slot).get? name = (other.set right slot).get? name := by
  rw [NameTable.get?_set, NameTable.get?_set, h name hname]
  rcases halike with ⟨rfl, _⟩ | ⟨hleft, hright⟩
  · rfl
  · rw [if_neg (ne_of_own hname hleft), if_neg (ne_of_own hname hright)]

theorem Hold.set (h : facts.Hold frame other) (hsame : facts.Same left right) {slot : Slot}
    (hslot : slot.released = false) : facts.Hold (frame.set left slot) (other.set right slot) where
  shared := shared_set h.shared (h.alike_of_same hsame) slot
  tied := by
    intro entry he
    have hiff := h.pairing.eq_iff he hsame
    obtain ⟨old, hold, hother, hkept⟩ := h.tied entry he
    rw [NameTable.get?_set, NameTable.get?_set]
    by_cases heq : entry.1 = left
    · rw [if_pos heq, if_pos (hiff.mp heq)]
      exact ⟨slot, rfl, rfl, hslot⟩
    · rw [if_neg heq, if_neg fun hr => heq (hiff.mpr hr)]
      exact ⟨old, hold, hother, hkept⟩
  pairing := h.pairing

theorem Hold.replace (h : facts.Hold frame other) (halike : Alike left right)
    (hleft : ¬facts.HasLeft left) (hright : ¬facts.HasRight right) (slot : Slot) :
    facts.Hold (frame.set left slot) (other.set right slot) where
  shared := shared_set h.shared halike slot
  tied := by
    intro entry he
    rw [NameTable.get?_set, NameTable.get?_set, if_neg (ne_left_of_tie hleft he),
      if_neg (ne_right_of_tie hright he)]
    exact h.tied entry he
  pairing := h.pairing

theorem Hold.tie (h : facts.Hold frame other) (halike : Alike left right)
    (hleft : ¬facts.HasLeft left) (hright : ¬facts.HasRight right) {slot : Slot}
    (hslot : slot.released = false) :
    (facts.tie left right).Hold (frame.set left slot) (other.set right slot) := by
  have hkept := h.replace halike hleft hright slot
  have hfresh : ∀ entry ∈ facts.ties, entry.1 ≠ left ∧ entry.2 ≠ right := fun entry he =>
    ⟨ne_left_of_tie hleft he, ne_right_of_tie hright he⟩
  refine ⟨hkept.shared, ?_, List.forall_mem_cons.mpr ⟨halike, h.pairing.alike⟩, ?_⟩
  · refine List.forall_mem_cons.mpr ⟨⟨slot, ?_, ?_, hslot⟩, hkept.tied⟩
    · exact (NameTable.get?_set frame left slot left).trans (if_pos rfl)
    · exact (NameTable.get?_set other right slot right).trans (if_pos rfl)
  · intro entry he second hs
    rcases List.mem_cons.mp he with rfl | he
    · rcases List.mem_cons.mp hs with rfl | hs
      · simp
      · exact iff_of_false (hfresh second hs).1.symm (hfresh second hs).2.symm
    · rcases List.mem_cons.mp hs with rfl | hs
      · exact iff_of_false (hfresh entry he).1 (hfresh entry he).2
      · exact h.pairing.single entry he second hs

theorem Hold.pair {pairs : List (String × String)} (h : ({ ties := pairs } : Facts).Hold frame other)
    (hpairing : Pairing ((left, right) :: pairs)) {slot : Slot} (hslot : slot.released = false) :
    ({ ties := (left, right) :: pairs } : Facts).Hold (frame.set left slot)
      (other.set right slot) := by
  by_cases htied : (left, right) ∈ pairs
  · exact (h.set (.inl htied) hslot).mono (List.cons_subset.mpr ⟨htied, List.Subset.refl _⟩)
  · have hnew : ∀ entry ∈ pairs, entry.1 ≠ left ∧ entry.2 ≠ right := by
      intro entry he
      have hiff := hpairing.single entry (List.mem_cons_of_mem _ he) (left, right) List.mem_cons_self
      have hboth : ¬(entry.1 = left ∧ entry.2 = right) := by
        rintro ⟨rfl, rfl⟩
        exact htied he
      exact ⟨fun heq => hboth ⟨heq, hiff.mp heq⟩, fun heq => hboth ⟨hiff.mpr heq, heq⟩⟩
    have hleft : ¬Facts.HasLeft { ties := pairs } left := by
      simpa [Facts.HasLeft] using fun other hm => (hnew _ hm).1 rfl
    have hright : ¬Facts.HasRight { ties := pairs } right := by
      simpa [Facts.HasRight] using fun other hm => (hnew _ hm).2 rfl
    exact h.tie (hpairing.alike _ List.mem_cons_self) hleft hright hslot

/-- The facts hold of two activations, and the registers and the fuel are the same. -/
structure Paired (facts : Facts) (act other : Activation) : Prop where
  frames : facts.Hold act.frame other.frame
  store : act.toStore = other.toStore

theorem Paired.mono {act other : Activation} (h : facts.Paired act other)
    (hless : less.Within facts) : less.Paired act other :=
  ⟨h.frames.mono hless, h.store⟩

private theorem Paired.registers {act other : Activation} (h : facts.Paired act other) :
    act.registers = other.registers :=
  congrArg Store.registers h.store

end Facts

/-- Two results are good together, or the same error. -/
inductive ResultsAgree {α β : Type} (good : α → β → Prop) :
    Except RunError α → Except RunError β → Prop where
  | ok {value : α} {other : β} : good value other → ResultsAgree good (.ok value) (.ok other)
  | error (cause : RunError) : ResultsAgree good (.error cause) (.error cause)

theorem ResultsAgree.mono {α β : Type} {good better : α → β → Prop} {first : Except RunError α}
    {second : Except RunError β} (h : ResultsAgree good first second)
    (himp : ∀ value other, good value other → better value other) :
    ResultsAgree better first second := by
  cases h with
  | ok hgood => exact .ok (himp _ _ hgood)
  | error cause => exact .error cause

theorem ResultsAgree.bind {α β γ δ : Type} {good : α → β → Prop} {better : γ → δ → Prop}
    {first : Except RunError α} {second : Except RunError β} {next : α → Except RunError γ}
    {twin : β → Except RunError δ} (h : ResultsAgree good first second)
    (hnext : ∀ value other, good value other → ResultsAgree better (next value) (twin other)) :
    ResultsAgree better (first >>= next) (second >>= twin) := by
  cases h with
  | ok hgood => exact hnext _ _ hgood
  | error cause => exact .error cause

def Program.SameMembers (program other : Program) : Prop :=
  ∀ name, program.isMember name = other.isMember name

section Plain

variable {program twinProgram : Program} {act other : Activation}

/-- The value of an expression rests on the registers, and on what its names mean. -/
theorem Activation.evalInline_congr (hregisters : act.registers = other.registers) :
    ∀ expr : Inline,
      (∀ name ∈ expr.names, act.read program name = other.read twinProgram name) →
      act.evalInline program expr = other.evalInline twinProgram expr
  | .name name, h => h name (List.mem_singleton_self name)
  | .unit, _ => rfl
  | .bool _, _ => rfl
  | .int _, _ => rfl
  | .bits _ _, _ => rfl
  | .text _, _ => rfl
  | .field record _, h => by
    simp only [Activation.evalInline, evalInline_congr hregisters record h]
  | .binary _ left right, h => by
    have hleft := evalInline_congr hregisters left fun name hn => h name (List.mem_append_left _ hn)
    have hright :=
      evalInline_congr hregisters right fun name hn => h name (List.mem_append_right _ hn)
    simp only [Activation.evalInline, hleft, hright]
  | .not operand, h => by
    simp only [Activation.evalInline, evalInline_congr hregisters operand h]
  | .address _, _ => by simp only [Activation.evalInline, hregisters]

end Plain

section Values

variable [OwnNames] {facts : Facts} {program twinProgram : Program} {act other : Activation}

private theorem Facts.Paired.read (h : facts.Paired act other)
    (hmembers : program.SameMembers twinProgram)
    {left right : String} (hsame : facts.Same left right) :
    act.read program left = other.read twinProgram right := by
  have hget := h.frames.get? hsame
  unfold Activation.read NameTable.contains Frame.read
  rw [← hget]
  rcases hsame with hmem | ⟨rfl, _⟩
  · obtain ⟨slot, hslot, _, hkept⟩ := h.frames.tied _ hmem
    simp [hslot, hkept]
  · rw [h.registers, hmembers left]

private theorem Inline.Matches.eval {left right : Inline} (hmatch : left.Matches facts right)
    (h : facts.Paired act other) (hmembers : program.SameMembers twinProgram) :
    act.evalInline program left = other.evalInline twinProgram right := by
  induction hmatch with
  | name hsame => exact h.read hmembers hsame
  | plain hnames => exact Activation.evalInline_congr h.registers _ (by simp [hnames])
  | field key _ ih => simp only [Activation.evalInline, ih]
  | binary op _ _ ihLeft ihRight => simp only [Activation.evalInline, ihLeft, ihRight]
  | not _ ih => simp only [Activation.evalInline, ih]

theorem Operand.Matches.eval {left right : Operand} (hmatch : left.Matches facts right)
    (h : facts.Paired act other) (hmembers : program.SameMembers twinProgram) :
    act.eval program left = other.eval twinProgram right := by
  cases hmatch with
  | name rep hsame => exact h.read hmembers hsame
  | inline rep hinline => exact hinline.eval h hmembers

theorem Operand.MatchesAll.eval {lefts rights : List Operand}
    (hmatch : Operand.MatchesAll facts lefts rights) (h : facts.Paired act other)
    (hmembers : program.SameMembers twinProgram) :
    act.evalAll program lefts = other.evalAll twinProgram rights := by
  induction hmatch with
  | nil => rfl
  | cons hhead _ ih => simp only [Activation.evalAll, hhead.eval h hmembers, ih]

private theorem Place.Parallel.load {left right : Place} (hplace : left.Parallel right)
    (hsame : facts.Same left.root right.root) (h : facts.Paired act other)
    (hmembers : program.SameMembers twinProgram) :
    act.load program left = other.load twinProgram right := by
  induction hplace with
  | name left right rep => exact h.read hmembers hsame
  | deref left right rep => exact h.read hmembers hsame
  | field key rep _ ih => simp only [Activation.load, ih hsame]

private theorem Facts.Paired.write (h : facts.Paired act other) {left right : String}
    (hsame : facts.Same left right) (value : Value) :
    ResultsAgree facts.Paired (act.write left value) (other.write right value) := by
  have hget := h.frames.get? hsame
  unfold Activation.write NameTable.contains Frame.write
  rw [← hget]
  cases hslot : act.frame.get? left with
  | some slot =>
    cases hreleased : slot.released with
    | false =>
      simp only [Option.isSome_some, if_true, hreleased]
      exact .ok ⟨h.frames.set hsame rfl, h.store⟩
    | true =>
      rcases hsame with hmem | ⟨rfl, _⟩
      · obtain ⟨tied, htied, _, hkept⟩ := h.frames.tied _ hmem
        rw [hslot] at htied
        cases htied
        rw [hreleased] at hkept
        cases hkept
      · simp only [Option.isSome_some, if_true, hreleased]
        exact .error _
  | none =>
    rcases hsame with hmem | ⟨rfl, _⟩
    · obtain ⟨tied, htied, _, _⟩ := h.frames.tied _ hmem
      rw [hslot] at htied
      cases htied
    · simp only [Option.isSome_none, Bool.false_eq_true, if_false, ← h.registers]
      cases act.registers.get? left with
      | some register =>
        have hfuel : act.fuel = other.fuel := congrArg Store.fuel h.store
        exact .ok ⟨h.frames, by simp only [hfuel]⟩
      | none => exact .error _

/-- A store to places that match keeps the facts, or fails alike. -/
theorem Place.Matches.store {left right : Place} (hplace : left.Matches facts right)
    (h : facts.Paired act other) (hmembers : program.SameMembers twinProgram) (value : Value) :
    ResultsAgree facts.Paired (act.store program left value)
      (other.store twinProgram right value) := by
  obtain ⟨hparallel, hsame⟩ := hplace
  have hconform : ∀ (rep : Rep) (value : Value),
      ResultsAgree (· = ·) (rep.conform value) (rep.conform value) := by
    intro rep value
    cases rep.conform value with
    | ok shaped => exact .ok rfl
    | error cause => exact .error cause
  induction hparallel generalizing value with
  | name left right rep =>
    refine (hconform rep value).bind ?_
    rintro shaped _ rfl
    exact h.write hsame shaped
  | deref left right rep =>
    refine (hconform rep value).bind ?_
    rintro shaped _ rfl
    exact h.write hsame shaped
  | field key rep hbase ih =>
    refine (hconform rep value).bind ?_
    rintro shaped _ rfl
    rw [hbase.load hsame h hmembers]
    cases other.load twinProgram _ with
    | error cause => exact .error cause
    | ok record =>
      simp only [except_ok_bind]
      cases record.setField? key shaped with
      | none => exact .error _
      | some updated => exact ih updated hsame

end Values

end IsaBackend
