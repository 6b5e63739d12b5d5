import IsaBackend.Proofs.Machine.Runs
import IsaBackend.Proofs.Staging.Storage
import IsaBackend.Staging.Term

/-!
# States in which staging succeeds

A state hosts source names if they are locals of the code with given representations. Names that
staging introduces were not in use before, so the locals of the code that came before keep their
values while new code runs.
-/

namespace IsaBackend

/-- The representations of the source names in scope. -/
abbrev LocalReps := String → Option Rep

abbrev Valuation := String → Value

def LocalReps.set (reps : LocalReps) (name : String) (rep : Rep) : LocalReps :=
  fun key => if key = name then some rep else reps key

theorem LocalReps.set_eq_some {reps : LocalReps} {name key : String} {rep keyRep : Rep} :
    reps.set name rep key = some keyRep ↔
      key = name ∧ rep = keyRep ∨ key ≠ name ∧ reps key = some keyRep := by
  unfold LocalReps.set
  split <;> simp_all

def Valuation.set (values : Valuation) (name : String) (value : Value) : Valuation :=
  fun key => if key = name then value else values key

def LocalReps.Within (reps more : LocalReps) : Prop :=
  ∀ name rep, reps name = some rep → more name = some rep

/-- The values of the names in scope have the shapes of their representations. -/
def Valuation.Fits (values : Valuation) (reps : LocalReps) : Prop :=
  ∀ name rep, reps name = some rep → rep.conform (values name) = .ok (values name)

theorem Valuation.Fits.weaken {values : Valuation} {reps more : LocalReps} (h : values.Fits more)
    (hmore : reps.Within more) : values.Fits reps :=
  fun name rep hrep => h name rep (hmore name rep hrep)

theorem Valuation.Fits.set {values : Valuation} {reps : LocalReps} (h : values.Fits reps)
    {name : String} {rep : Rep} {value : Value} (hvalue : rep.conform value = .ok value) :
    (values.set name value).Fits (reps.set name rep) := by
  intro key keyRep hkey
  unfold Valuation.set
  rcases LocalReps.set_eq_some.mp hkey with ⟨heq, rfl⟩ | ⟨hne, hkey⟩
  · rw [if_pos heq]
    exact hvalue
  · rw [if_neg hne]
    exact h key keyRep hkey

namespace StagingState

/-- What staging relies on: generated names from the next number on are not in use, the function
has a result of unbounded integers, and nothing will release the result parameter. -/
structure Sane (base : Nat) (state : StagingState) : Prop where
  base_le : base ≤ state.names.next
  fresh : ∀ number, state.names.next ≤ number → FreshNames.name number ∉ state.declared
  result : state.result = some .bigInt
  resultParam : Routine.resultParam ∈ state.declared
  live : ∀ entry ∈ state.live, entry.1 ≠ Routine.resultParam

/-- The names in scope are locals of the code. -/
structure Hosts (base : Nat) (reps : LocalReps) (state : StagingState) : Prop
    extends Sane base state where
  locals : ∀ name rep, reps name = some rep →
    ∃ codeName, state.locals.get? name = some ⟨codeName, rep⟩ ∧ codeName ∈ state.declared

variable {base : Nat} {reps : LocalReps} {before after state : StagingState}

theorem Hosts.lead (h : before.Hosts base reps) (hleads : before.Leads after)
    (hsane : after.Sane base) : after.Hosts base reps where
  toSane := hsane
  locals := by
    intro name rep hrep
    obtain ⟨codeName, hlocal, hdeclared⟩ := h.locals name rep hrep
    exact ⟨codeName, (hleads.locals name).trans hlocal, hleads.declared codeName hdeclared⟩

theorem Hosts.weaken {more : LocalReps} (h : state.Hosts base more) (hmore : reps.Within more) :
    state.Hosts base reps where
  toSane := h.toSane
  locals := fun name rep hrep => h.locals name rep (hmore name rep hrep)

theorem Hosts.enter (h : state.Hosts base reps) (name : String) {codeName : String} (rep : Rep)
    (hcode : codeName ∈ state.declared) :
    (state.enter name ⟨codeName, rep⟩).Hosts base (reps.set name rep) where
  toSane := ⟨h.base_le, h.fresh, h.result, h.resultParam, h.live⟩
  locals := by
    intro key keyRep hkey
    have hget : (state.enter name ⟨codeName, rep⟩).locals.get? key =
        if key = name then some ⟨codeName, rep⟩ else state.locals.get? key :=
      NameTable.get?_set state.locals name _ key
    rw [hget]
    rcases LocalReps.set_eq_some.mp hkey with ⟨heq, rfl⟩ | ⟨hne, hkey⟩
    · exact ⟨codeName, if_pos heq, hcode⟩
    · rw [if_neg hne]
      exact h.locals key keyRep hkey

/-- A name comes into use that was not before. -/
structure Adds (before : StagingState) (name : String) (after : StagingState) : Prop where
  leads : before.Leads after
  new : name ∉ before.declared
  declared : name ∈ after.declared

theorem Adds.ne {name other : String} (h : before.Adds name after)
    (hother : other ∈ before.declared) : other ≠ name := by
  rintro rfl
  exact h.new hother

end StagingState

/-- Code keeps the locals that were in use before it was staged. -/
def Frame.SameOn (frame : Frame) (state : StagingState) (last : Frame) : Prop :=
  ∀ name ∈ state.declared, last.get? name = frame.get? name

/-- The locals of the code have the values of the source names. -/
structure Frame.Agrees (frame : Frame) (state : StagingState) (reps : LocalReps)
    (values : Valuation) : Prop where
  locals : ∀ name rep, reps name = some rep → ∀ entry, state.locals.get? name = some entry →
    frame.Holds entry.name (values name)
  result : ∃ value, frame.Holds Routine.resultParam value

namespace Frame

open StagingState

variable {base : Nat} {reps : LocalReps} {before after : StagingState} {frame last final : Frame}
  {values : Valuation}

theorem SameOn.refl : frame.SameOn before frame := fun _ _ => rfl

theorem SameOn.trans (h : frame.SameOn before last) (hleads : before.Leads after)
    (hnext : last.SameOn after final) : frame.SameOn before final :=
  fun name hn => (hnext name (hleads.declared name hn)).trans (h name hn)

theorem Updated.sameOn {name : String} {value : Value} (h : frame.Updated name value last)
    (hadds : before.Adds name after) : frame.SameOn before last :=
  fun key hkey => h.same key (hadds.ne hkey)

theorem SameOn.update {name : String} {value : Value} (h : frame.SameOn before last)
    (hadds : before.Adds name after) (hnext : last.Updated name value final) :
    frame.SameOn before final :=
  fun key hkey => (hnext.same key (hadds.ne hkey)).trans (h key hkey)

theorem Agrees.lead (h : frame.Agrees before reps values) (hhosts : before.Hosts base reps)
    (hleads : before.Leads after) (hsame : frame.SameOn before last) :
    last.Agrees after reps values where
  locals := by
    intro name rep hrep entry hentry
    obtain ⟨codeName, hlocal, hdeclared⟩ := hhosts.locals name rep hrep
    rw [hleads.locals] at hentry
    have hname : entry.name = codeName := by
      rw [hlocal] at hentry
      cases hentry
      rfl
    have hdecl : entry.name ∈ before.declared := hname ▸ hdeclared
    exact (h.locals name rep hrep entry hentry).of_get?_eq (hsame _ hdecl)
  result := by
    obtain ⟨value, hvalue⟩ := h.result
    exact ⟨value, hvalue.of_get?_eq (hsame _ hhosts.resultParam)⟩

theorem Agrees.enter (h : frame.Agrees before reps values) (name : String) {codeName : String}
    (rep : Rep) {value : Value} (hcode : frame.Holds codeName value) :
    frame.Agrees (before.enter name ⟨codeName, rep⟩) (reps.set name rep) (values.set name value)
    where
  locals := by
    intro key keyRep hkey entry hentry
    have hget : (before.enter name ⟨codeName, rep⟩).locals.get? key =
        if key = name then some ⟨codeName, rep⟩ else before.locals.get? key :=
      NameTable.get?_set before.locals name _ key
    rw [hget] at hentry
    unfold Valuation.set
    rcases LocalReps.set_eq_some.mp hkey with ⟨heq, _⟩ | ⟨hne, hkey⟩
    · rw [if_pos heq] at hentry ⊢
      cases hentry
      exact hcode
    · rw [if_neg hne] at hentry ⊢
      exact h.locals key keyRep hkey entry hentry
  result := h.result

theorem Agrees.weaken {more : LocalReps} (h : frame.Agrees before more values)
    (hmore : reps.Within more) : frame.Agrees before reps values where
  locals := fun name rep hrep => h.locals name rep (hmore name rep hrep)
  result := h.result

end Frame

namespace Staging

open StagingState

variable {base : Nat} {reps : LocalReps} {state : StagingState} {name : String}

private theorem sane_claim (h : state.Sane base) {next : Nat} (hnext : state.names.next ≤ next)
    (hname : ∀ number, next ≤ number → FreshNames.name number ≠ name) :
    ({ state with names := ⟨next⟩, declared := state.declared.insert name } :
      StagingState).Sane base where
  base_le := Nat.le_trans h.base_le hnext
  fresh := by
    intro number hnumber hmem
    rcases List.mem_insert_iff.mp hmem with heq | hmem
    · exact hname number hnumber heq
    · exact h.fresh number (Nat.le_trans hnext hnumber) hmem
  result := h.result
  resultParam := List.mem_insert_iff.mpr (.inr h.resultParam)
  live := h.live

private theorem adds_claim (state : StagingState) {next : Nat} (hnext : state.names.next ≤ next)
    (hname : name ∉ state.declared) :
    state.Adds name { state with names := ⟨next⟩, declared := state.declared.insert name } where
  leads := ⟨hnext, fun _ hn => List.mem_insert_iff.mpr (.inr hn), fun _ => rfl⟩
  new := hname
  declared := List.mem_insert_iff.mpr (.inl rfl)

private def claimNext (state : StagingState) : StagingState :=
  { state with
    names := ⟨state.names.next + 1⟩
    declared := state.declared.insert (FreshNames.name state.names.next) }

private theorem sane_claimNext (h : state.Sane base) : (claimNext state).Sane base := by
  refine sane_claim h (Nat.le_succ _) fun number hnumber heq => ?_
  rw [FreshNames.name_inj] at heq
  omega

private theorem adds_claimNext (h : state.Sane base) :
    state.Adds (FreshNames.name state.names.next) (claimNext state) :=
  adds_claim state (Nat.le_succ _) (h.fresh _ (Nat.le_refl _))

def DeclaredBy (decl : Instr) (name : String) (rep : Rep) : Prop :=
  decl = .decl rep name ∨ decl = .alloc rep name

private theorem sane_pushLive (h : state.Sane base) (hname : name ≠ Routine.resultParam)
    (rep : Rep) : (state.withLive ((name, rep) :: state.live)).Sane base :=
  ⟨h.base_le, h.fresh, h.result, h.resultParam, List.forall_mem_cons.mpr ⟨hname, h.live⟩⟩

theorem declare_gives (h : state.Sane base) (hname : name ≠ Routine.resultParam) (rep : Rep) :
    Gives (declare name rep) state fun decl after =>
      after.Sane base ∧ state.Leads after ∧ after.declared = state.declared ∧
        DeclaredBy decl name rep := by
  unfold declare
  split
  · exact .pure ⟨h, .refl state, rfl, .inl rfl⟩
  · exact ⟨_, _, rfl, sane_pushLive h hname rep, state.leads_withLive _, rfl, .inr rfl⟩

theorem temp_gives (h : state.Sane base) (rep : Rep) :
    Gives (temp rep) state fun (name, decl) after =>
      after.Sane base ∧ state.Adds name after ∧ DeclaredBy decl name rep := by
  have hadds := adds_claimNext h
  obtain ⟨decl, after, hdeclare, hsane, hleads, hdeclared, hdecl⟩ :=
    declare_gives (sane_claimNext h) (hadds.ne h.resultParam).symm rep
  refine ⟨(FreshNames.name state.names.next, decl), after, bind_of_ok hdeclare, hsane, ?_, hdecl⟩
  exact ⟨hadds.leads.trans hleads, hadds.new, hdeclared ▸ hadds.declared⟩

theorem tempFrom_gives (h : state.Sane base) (rep : Rep) (value : Operand) :
    Gives (tempFrom rep value) state fun (name, init) after =>
      after.Sane base ∧ state.Adds name after ∧ init = .init rep name value := by
  have hadds := adds_claimNext h
  have hsane := sane_pushLive (sane_claimNext h) (hadds.ne h.resultParam).symm rep
  refine ⟨(FreshNames.name state.names.next, _), _, rfl, hsane, ?_, rfl⟩
  exact ⟨hadds.leads.trans (leads_withLive _ _), hadds.new, hadds.declared⟩

theorem localName_gives (h : state.Sane base)
    (hname : ∀ number, name = FreshNames.name number → number < base) :
    Gives (localName name) state fun codeName after =>
      after.Sane base ∧ state.Adds codeName after := by
  refine Gives.get.bind ?_
  rintro _ _ ⟨rfl, rfl⟩
  split
  · exact ⟨_, _, rfl, sane_claimNext h, adds_claimNext h⟩
  · rename_i hdeclared
    have hnew : name ∉ state.declared := by simpa using hdeclared
    refine ⟨name, _, rfl, sane_claim h (Nat.le_refl _) fun number hnumber heq => ?_,
      adds_claim state (Nat.le_refl _) hnew⟩
    exact Nat.not_lt.mpr (Nat.le_trans h.base_le hnumber) (hname number heq.symm)

theorem settle_gives (h : state.Sane base) (cleanup : List Instr) :
    Gives (settle cleanup) state fun _ after => after.Sane base ∧ state.Leads after := by
  have hlive : ∀ (cleanup : List Instr) (live : List (String × Rep)),
      ∀ entry ∈ cleanup.foldl strike live, entry ∈ live := by
    intro cleanup
    induction cleanup with
    | nil => exact fun _ _ he => he
    | cons instr rest ih =>
      intro live entry he
      have hstrike := ih (strike live instr) entry he
      unfold strike at hstrike
      split at hstrike
      · exact List.mem_of_mem_eraseP hstrike
      · exact hstrike
  refine ⟨(), _, rfl, ⟨h.base_le, h.fresh, h.result, h.resultParam, fun entry he => ?_⟩,
    ⟨Nat.le_refl _, fun _ hn => hn, fun _ => rfl⟩⟩
  exact h.live entry (hlive cleanup state.live entry he)

theorem close_gives (h : state.Sane base) (staged : Staged) (dest : Place) :
    Gives (close staged dest) state fun code after =>
      code = staged.into dest ∧ after.Sane base ∧ state.Leads after := by
  refine (settle_gives h staged.cleanup).bind ?_
  rintro _ after ⟨hsane, hleads⟩
  exact .pure ⟨rfl, hsane, hleads⟩

theorem within_gives {α : Type} {act : Staging α} {entry : Local}
    {good : α → StagingState → Prop} (h : Gives act (state.enter name entry) good) :
    Gives (within name entry act) state fun value after =>
      ∃ inner, good value inner ∧ after = inner.exit name (state.locals.get? name) := by
  obtain ⟨value, inner, hact, hgood⟩ := h
  refine ⟨value, _, ?_, inner, hgood, rfl⟩
  change ensuring act _ (state.enter name entry) = _
  unfold IsaBackend.ensuring
  rw [hact]
  rfl

end Staging

end IsaBackend
