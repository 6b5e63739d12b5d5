import IsaBackend.Proofs.Lifetime.Acceptance
import IsaBackend.Proofs.Machine.Safety
import IsaBackend.Proofs.Machine.Rules

/-!
# Uses of released locals

The lifetime check follows each path with the set of names that were released on it, and refuses
the use of such a name. Three kinds of uses escape it. An operator is read without a look at the
names in it. A loop is followed for one round, and what comes after it is followed from the state
before it, so what a round releases is forgotten at the end of the round. And the result parameter
is read after the last instruction. Where none of these can happen, no run uses what it has
released.
-/

namespace IsaBackend

/-- Whether an error reports the use of a released local. -/
def RunError.isUseAfterRelease : RunError → Bool
  | useAfterRelease _ => true
  | _ => false

private theorem RunError.isUseAfterRelease_of_isLifetime {cause : RunError}
    (h : cause.isLifetime = false) : cause.isUseAfterRelease = false := by
  cases cause <;> simp_all [RunError.isLifetime, RunError.isUseAfterRelease]

/-- The names of an operand that the check does not look at. -/
def Operand.unseen (operand : Operand) : List String :=
  match operand.root? with
  | some _ => []
  | none => operand.names

namespace Instr

mutual

/-- The names that an instruction and those nested in it release. -/
def released : Instr → List String
  | .release _ name => [name]
  | .branch _ onTrue onFalse _ => releasedAll onTrue ++ releasedAll onFalse
  | .loop body => releasedAll body
  | _ => []

def releasedAll : List Instr → List String
  | [] => []
  | instr :: rest => instr.released ++ releasedAll rest

end

mutual

/-- The names that are released inside a loop. -/
def releasedInLoops : Instr → List String
  | .branch _ onTrue onFalse _ => releasedInLoopsAll onTrue ++ releasedInLoopsAll onFalse
  | .loop body => releasedAll body
  | _ => []

def releasedInLoopsAll : List Instr → List String
  | [] => []
  | instr :: rest => instr.releasedInLoops ++ releasedInLoopsAll rest

end

mutual

/-- The names that operators read, in an instruction and those nested in it. -/
def unseen : Instr → List String
  | .init _ _ value => value.unseen
  | .branch test onTrue onFalse _ => test.unseen ++ (unseenAll onTrue ++ unseenAll onFalse)
  | .call _ _ args => args.flatMap Operand.unseen
  | .convert _ value => value.unseen
  | .assign _ value => value.unseen
  | .copy _ value => value.unseen
  | .ret value => value.unseen
  | .loop body => unseenAll body
  | _ => []

def unseenAll : List Instr → List String
  | [] => []
  | instr :: rest => instr.unseen ++ unseenAll rest

end

mutual

theorem releasedInLoops_subset {name : String} :
    ∀ {instr : Instr}, name ∈ instr.releasedInLoops → name ∈ instr.released
  | .branch _ _ _ _, h => by
    simp only [releasedInLoops, released, List.mem_append] at h ⊢
    exact h.imp releasedInLoopsAll_subset releasedInLoopsAll_subset
  | .loop _, h => h

private theorem releasedInLoopsAll_subset {name : String} :
    ∀ {code : List Instr}, name ∈ releasedInLoopsAll code → name ∈ releasedAll code
  | _ :: _, h => by
    simp only [releasedInLoopsAll, releasedAll, List.mem_append] at h ⊢
    exact h.imp releasedInLoops_subset releasedInLoopsAll_subset

end

/-- Code that allocates and releases names, one after the other. -/
def churn (names : List String) : List Instr :=
  names.flatMap fun name => [.alloc .bigInt name, .release .bigInt name]

end Instr

/-- A routine before which everything that its loops release was allocated and released once. The
check of it follows the first round of a loop as if it were a later one. -/
def Routine.primed (routine : Routine) : Routine :=
  { routine with body := Instr.churn (Instr.releasedInLoopsAll routine.body) ++ routine.body }

section Frames

variable {frame next : Frame}

/-- The discipline under which a frame may be used as it is. -/
def Frame.discipline (frame : Frame) : Discipline where
  owns name := ∃ slot, frame.get? name = some slot ∧ (slot.isLive = true ∨ slot.released = true)
  watches := True

private theorem Frame.mem_liveNames (h : frame.Unique) {name : String} :
    name ∈ frame.liveNames ↔ ∃ slot, frame.get? name = some slot ∧ slot.isLive = true := by
  have hmem : ∀ slot, (name, slot) ∈ frame.entries ↔ frame.get? name = some slot := by
    intro slot
    constructor
    · exact h.get?_of_mem
    · intro hs
      obtain ⟨front, back, hsplit, _⟩ := List.lookup_eq_some_iff.mp hs
      exact hsplit ▸ List.mem_append_right _ List.mem_cons_self
  simp only [Frame.liveNames, List.mem_filterMap, Prod.exists]
  constructor
  · rintro ⟨other, slot, hm, hlive⟩
    split at hlive
    · rename_i hl
      cases hlive
      exact ⟨slot, (hmem slot).mp hm, hl⟩
    · cases hlive
  · rintro ⟨slot, hs, hl⟩
    exact ⟨name, slot, (hmem slot).mpr hs, by simp [hl]⟩

private theorem Frame.follows_liveNames (h : frame.Unique) :
    frame.Follows frame.discipline frame.liveNames where
  unique := h
  distinct := by
    have hsub : frame.liveNames.Sublist (frame.entries.map Prod.fst) := by
      unfold Frame.liveNames
      induction frame.entries with
      | nil => exact .slnil
      | cons entry rest ih =>
        obtain ⟨name, slot⟩ := entry
        rw [List.filterMap_cons]
        by_cases hl : slot.isLive = true
        · simpa [hl] using ih
        · simpa [hl] using ih.cons name
    exact hsub.nodup h
  owned := by
    intro name hn
    obtain ⟨slot, hs, hl⟩ := (Frame.mem_liveNames h).mp hn
    exact ⟨slot, hs, .inl hl⟩
  live_iff := fun _ => Frame.mem_liveNames h
  released := fun _ slot hs hr => ⟨slot, hs, .inr hr⟩

private theorem Frame.usable_of_not_released (h : frame.Unique) {name : String}
    (hname : ∀ slot, frame.get? name = some slot → slot.released = false) :
    frame.discipline.Usable frame.liveNames name := by
  intro _
  by_cases hlive : name ∈ frame.liveNames
  · exact .inl hlive
  · refine .inr ?_
    rintro ⟨slot, hs, hl | hr⟩
    · exact hlive ((Frame.mem_liveNames h).mpr ⟨slot, hs, hl⟩)
    · simp [hname slot hs] at hr

/-- A frame with the same live names has nothing released that was not released before. -/
theorem Frame.Follows.released_before (h : frame.Unique)
    (hnext : next.Follows frame.discipline frame.liveNames) {name : String} {slot : Slot}
    (hs : next.get? name = some slot) (hr : slot.released = true) :
    ∃ old, frame.get? name = some old ∧ old.released = true := by
  obtain ⟨old, ho, hlive | hgone⟩ := hnext.released name slot hs hr
  · have hm : name ∈ frame.liveNames := (Frame.mem_liveNames h).mpr ⟨old, ho, hlive⟩
    obtain ⟨other, hother, hl⟩ := (hnext.live_iff name).mp hm
    cases hs.symm.trans hother
    simp [Slot.isLive, hr] at hl
  · exact ⟨old, ho, hgone⟩

end Frames

namespace PathState

variable {state next : PathState} {frame : Frame}

private theorem use_eq_ok {name : String} (h : state.use name = .ok ()) :
    state.released.contains name = false := by
  unfold use at h
  split at h
  · cases h
  · rename_i hc
    simpa using hc

/-- What is released in a frame was released on the path that led to it. -/
structure Tracks (state : PathState) (frame : Frame) : Prop where
  unique : frame.Unique
  marked : ∀ name slot, frame.get? name = some slot → slot.released = true →
    state.released.contains name = true

private theorem Tracks.usable (h : state.Tracks frame) {name : String}
    (hname : state.released.contains name = false) :
    frame.discipline.Usable frame.liveNames name := by
  refine Frame.usable_of_not_released h.unique fun slot hs => ?_
  cases hr : slot.released with
  | false => rfl
  | true => simp [h.marked name slot hs hr] at hname

private theorem Tracks.keep (h : state.Tracks frame) {after : Frame}
    (hafter : after.Follows frame.discipline frame.liveNames) : state.Tracks after where
  unique := hafter.unique
  marked := by
    intro name slot hs hr
    obtain ⟨old, ho, hgone⟩ := Frame.Follows.released_before h.unique hafter hs hr
    exact h.marked name old ho hgone

private theorem Tracks.bind (h : state.Tracks frame) (name : String) (rep : Rep) (value : Value)
    (owned : Bool) (hmarks : ∀ other, other ≠ name → state.released.contains other = true →
      next.released.contains other = true) : next.Tracks (frame.bind name rep value owned) where
  unique := h.unique.set name _
  marked := by
    intro other slot hs hr
    by_cases ho : other = name
    · simp only [Frame.bind, NameTable.get?_set, if_pos ho, Option.some.injEq] at hs
      subst hs
      cases hr
    · simp only [Frame.bind, NameTable.get?_set, if_neg ho] at hs
      exact hmarks other ho (h.marked other slot hs hr)

private theorem Tracks.release (h : state.Tracks frame) {name : String} {after : Frame}
    (hafter : frame.release name = .ok after)
    (hmarks : ∀ other, other = name ∨ state.released.contains other = true →
      next.released.contains other = true) : next.Tracks after := by
  obtain ⟨slot, _, rfl⟩ := Frame.release_eq_ok hafter
  refine ⟨h.unique.set name _, fun other slot hs hr => ?_⟩
  by_cases ho : other = name
  · exact hmarks other (.inl ho)
  · simp only [NameTable.get?_set, if_neg ho] at hs
    exact hmarks other (.inr (h.marked other slot hs hr))

/-- An operand that the check lets pass can be read, if it can read what the check does not look
at. -/
theorem Tracks.reads (h : state.Tracks frame) {operand : Operand}
    (hread : state.read operand = .ok ())
    (hunseen : ∀ name ∈ operand.unseen, state.released.contains name = false) :
    frame.discipline.Reads frame.liveNames operand := by
  cases operand with
  | name key rep => exact Discipline.reads_name (h.usable (use_eq_ok hread))
  | inline expr rep =>
    simp only [read] at hread
    split at hread
    · rename_i hfits
      refine ⟨hfits, fun name hn => h.usable ?_⟩
      cases hroot : expr.root? with
      | none => exact hunseen name (by simpa [Operand.unseen, Operand.root?, hroot] using hn)
      | some key =>
        simp only [hroot] at hread
        have hname : name = key := by
          simpa [Operand.names, names_of_root? hroot] using hn
        exact hname ▸ use_eq_ok hread
    · cases hread

private theorem Tracks.readsAll (h : state.Tracks frame) {operands : List Operand}
    (hread : state.readAll operands = .ok ())
    (hunseen : ∀ name ∈ operands.flatMap Operand.unseen, state.released.contains name = false) :
    ∀ operand ∈ operands, frame.discipline.Reads frame.liveNames operand := by
  induction operands with
  | nil => simp
  | cons operand rest ih =>
    obtain ⟨_, hfirst, hrest⟩ := except_bind_eq_ok.mp hread
    rw [List.flatMap_cons] at hunseen
    intro other ho
    rcases List.mem_cons.mp ho with rfl | ho
    · exact h.reads hfirst fun name hn => hunseen name (List.mem_append_left _ hn)
    · exact ih hrest (fun name hn => hunseen name (List.mem_append_right _ hn)) other ho

/-- A path on which every name of a list was released before, unless it is live again, and on
which nothing was released outside a bound. -/
structure Primed (stale : List String) (bound : String → Prop) (state : PathState) : Prop where
  distinct : state.live.Nodup
  apart : ∀ name ∈ state.live, state.released.contains name = false
  stale : ∀ name ∈ stale, name ∈ state.live ∨ state.released.contains name = true
  bounded : ∀ name, state.released.contains name = true → bound name

variable {stale : List String} {bound : String → Prop}

private theorem Primed.allocate (h : state.Primed stale bound) {name : String}
    (hnext : state.allocate name = .ok next) : next.Primed stale bound := by
  obtain ⟨hnew, rfl⟩ := allocate_eq_ok hnext
  refine ⟨List.nodup_cons.mpr ⟨hnew, h.distinct⟩, ?_, ?_, ?_⟩
  · intro other ho
    rcases List.mem_cons.mp ho with rfl | ho
    · simp
    · simp [h.apart other ho]
  · intro other ho
    by_cases he : other = name
    · exact .inl (he ▸ List.mem_cons_self)
    · exact (h.stale other ho).imp (List.mem_cons_of_mem _) fun hr => by simp [he, hr]
  · intro other ho
    simp only [NameSet.contains_erase, Bool.and_eq_true] at ho
    exact h.bounded other ho.2

private theorem Primed.release (h : state.Primed stale bound) {name : String}
    (hnext : state.release name = .ok next) (hname : bound name) : next.Primed stale bound := by
  obtain ⟨hlive, hreleased⟩ := release_eq_ok hnext
  have hdistinct := h.distinct
  have hapart := h.apart
  have hstale := h.stale
  rw [hlive] at hdistinct hapart hstale
  obtain ⟨hgone, hrest⟩ := List.nodup_cons.mp hdistinct
  refine ⟨hrest, ?_, ?_, ?_⟩
  · intro other ho
    have hne : other ≠ name := fun he => hgone (he ▸ ho)
    simp [hreleased, hne, hapart other (List.mem_cons_of_mem _ ho)]
  · intro other ho
    rcases hstale other ho with hm | hr
    · rcases List.mem_cons.mp hm with rfl | hm
      · simp [hreleased]
      · exact .inl hm
    · simp [hreleased, hr]
  · intro other ho
    simp only [hreleased, NameSet.contains_insert, Bool.or_eq_true, beq_iff_eq] at ho
    rcases ho with rfl | ho
    · exact hname
    · exact h.bounded other ho

/-- At the end of a round of a loop nothing is released that was not released at its start, if all
that the loop releases counts as released before it. -/
theorem Primed.tracks_entry {entry : PathState} (hstale : ∀ name ∈ stale,
      name ∈ entry.live ∨ entry.released.contains name = true)
    (hbound : ∀ name, bound name → entry.released.contains name = true ∨ name ∈ stale)
    (h : state.Primed stale bound) (hlive : state.live = entry.live)
    (htracks : state.Tracks frame) : entry.Tracks frame where
  unique := htracks.unique
  marked := by
    intro name slot hs hr
    have hgone := htracks.marked name slot hs hr
    rcases hbound name (h.bounded name hgone) with hentry | hname
    · exact hentry
    · rcases hstale name hname with hm | hentry
      · rw [← hlive] at hm
        simp [h.apart name hm] at hgone
      · exact hentry

end PathState

section Execution

variable {program : Program} {callees : Callees}

/-- From an activation, execution succeeds with a condition on how it ends and the locals it leaves,
or fails for another reason than the use of a released local. -/
def Exec.Clean (exec : Exec Flow) (act : Activation) (good : Flow → Frame → Prop) : Prop :=
  Meets exec act (fun flow final => good flow final.frame) fun cause _ => cause.isUseAfterRelease = false

/-- A step that is safe for a frame does not fail for the use of a released local. -/
theorem Frame.clean_of_safe {α : Type} {frame : Frame} {result : Except RunError α} {good : α → Prop}
    (h : frame.discipline.Safe result good) (cause : RunError) (hcause : result = .error cause) :
    cause.isUseAfterRelease = false := by
  subst hcause
  rcases h with hcalm | ⟨hno, _⟩
  · exact RunError.isUseAfterRelease_of_isLifetime hcalm
  · exact absurd trivial hno

private theorem PathState.Tracks.eval_safe {act : Activation} {state : PathState}
    (h : state.Tracks act.frame) {operand : Operand} (hread : state.read operand = .ok ())
    (hunseen : ∀ name ∈ operand.unseen, state.released.contains name = false) (fuel : Nat) :
    act.frame.discipline.Safe (Activation.eval program { act with fuel } operand) fun _ => True := by
  have hfollows : Frame.Follows _ (Activation.frame { act with fuel }) _ :=
    Frame.follows_liveNames h.unique
  exact Activation.eval_safe hfollows (h.reads hread hunseen)

/-- Where execution may end: it falls through with locals that some state of the check tracks,
leaves a loop with locals that the state at its start tracks, or returns with nothing released
that is not among the names that are ever released. -/
def Flow.Tracked (gone stale : List String) (bound : String → Prop) (entry : Option PathState)
    (ends : List PathState) : Flow → Frame → Prop
  | .next, frame => ∃ state ∈ ends, state.Primed stale bound ∧ state.Tracks frame
  | .leave, frame => ∃ state, entry = some state ∧ state.Tracks frame
  | .ret _, frame => ∀ name slot, frame.get? name = some slot → slot.released = true → name ∈ gone

private theorem Flow.Tracked.mono {gone stale : List String} {bound : String → Prop}
    {entry : Option PathState} {ends more : List PathState} {flow : Flow} {frame : Frame}
    (h : flow.Tracked gone stale bound entry ends frame)
    (hsub : ∀ state ∈ ends, state ∈ more) : flow.Tracked gone stale bound entry more frame := by
  cases flow with
  | next =>
    obtain ⟨state, hs, hstate⟩ := h
    exact ⟨state, hsub state hs, hstate⟩
  | leave => exact h
  | ret value => exact h

/-- What is known about code that the check follows: an operator reads nothing that is ever
released, what the code releases is within the bound, and what its loops release is stale. -/
structure Instr.Open (gone stale : List String) (bound : String → Prop) (code : List Instr) :
    Prop where
  unseen : ∀ name ∈ Instr.unseenAll code, name ∉ gone
  released : ∀ name ∈ Instr.releasedAll code, bound name
  loops : ∀ name ∈ Instr.releasedInLoopsAll code, name ∈ stale

def PathState.later (state : PathState) (stale : List String) (name : String) : Prop :=
  state.released.contains name = true ∨ name ∈ stale

/-- What is known about the state at the start of the loop around the code: all that the loop
releases was released before it or is live. -/
structure PathState.Encloses (stale : List String) (bound : String → Prop) (entry : PathState) :
    Prop where
  before : ∀ name ∈ stale, name ∈ entry.live ∨ entry.released.contains name = true
  within : ∀ name, bound name → entry.later stale name

section Code

variable {gone stale : List String} {bound : String → Prop} {entry : Option PathState}
  {state : PathState} {ends : List PathState} {meet : Meeting}

private theorem Instr.Open.head {instr : Instr} {rest : List Instr}
    (h : Instr.Open gone stale bound (instr :: rest)) : Instr.Open gone stale bound [instr] where
  unseen := by
    intro name hn
    simp only [Instr.unseenAll, List.append_nil] at hn
    exact h.unseen name (List.mem_append_left _ hn)
  released := by
    intro name hn
    simp only [Instr.releasedAll, List.append_nil] at hn
    exact h.released name (List.mem_append_left _ hn)
  loops := by
    intro name hn
    simp only [Instr.releasedInLoopsAll, List.append_nil] at hn
    exact h.loops name (List.mem_append_left _ hn)

private theorem Instr.Open.tail {instr : Instr} {rest : List Instr}
    (h : Instr.Open gone stale bound (instr :: rest)) : Instr.Open gone stale bound rest where
  unseen := fun name hn => h.unseen name (List.mem_append_right _ hn)
  released := fun name hn => h.released name (List.mem_append_right _ hn)
  loops := fun name hn => h.loops name (List.mem_append_right _ hn)

private theorem Instr.Open.arms {test : Operand} {onTrue onFalse : List Instr} {rep : Rep}
    (h : Instr.Open gone stale bound [.branch test onTrue onFalse rep]) :
    Instr.Open gone stale bound onTrue ∧ Instr.Open gone stale bound onFalse := by
  obtain ⟨hunseen, hreleased, hloops⟩ := h
  simp only [Instr.unseenAll, Instr.unseen, Instr.releasedAll, Instr.released,
    Instr.releasedInLoopsAll, Instr.releasedInLoops, List.append_nil, List.mem_append]
    at hunseen hreleased hloops
  exact ⟨⟨fun name hn => hunseen name (.inr (.inl hn)), fun name hn => hreleased name (.inl hn),
      fun name hn => hloops name (.inl hn)⟩,
    ⟨fun name hn => hunseen name (.inr (.inr hn)), fun name hn => hreleased name (.inr hn),
      fun name hn => hloops name (.inr hn)⟩⟩

/-- The body of a loop, for which everything that it releases is stale. -/
theorem Instr.Open.body {body : List Instr} (h : Instr.Open gone stale bound [.loop body]) :
    Instr.Open gone stale (state.later stale) body := by
  obtain ⟨hunseen, _, hloops⟩ := h
  simp only [Instr.unseenAll, Instr.unseen, Instr.releasedInLoopsAll, Instr.releasedInLoops,
    List.append_nil] at hunseen hloops
  exact ⟨hunseen, fun name hn => .inr (hloops name hn), fun name hn =>
    hloops name (Instr.releasedInLoopsAll_subset hn)⟩

/-- The names that the check does not look at were not released. -/
theorem Instr.Open.spared {instr : Instr} (h : Instr.Open gone stale bound [instr])
    (hgone : ∀ name, bound name → name ∈ gone) (hstate : state.Primed stale bound) :
    ∀ name ∈ instr.unseen, state.released.contains name = false := by
  intro name hn
  have hspared : name ∉ gone := h.unseen name (List.mem_append_left _ hn)
  cases hr : state.released.contains name with
  | false => rfl
  | true => exact absurd (hgone name (hstate.bounded name hr)) hspared

private theorem store_clean (hstate : state.Primed stale bound) {dest : Place}
    (hwrite : state.write dest = .ok ()) (value : Value) {act : Activation}
    (htracks : state.Tracks act.frame) :
    Exec.Clean (do
        Exec.store program dest value
        return Flow.next) act (Flow.Tracked gone stale bound entry [state]) := by
  have hsafe : act.frame.discipline.Safe (act.store program dest value) _ :=
    Activation.store_safe (Frame.follows_liveNames htracks.unique) dest value
      (htracks.usable (PathState.use_eq_ok hwrite))
  refine Exec.meets_store (Frame.clean_of_safe hsafe) fun final hfinal => ?_
  rw [hfinal] at hsafe
  exact ⟨state, List.mem_singleton_self state, hstate, htracks.keep hsafe⟩

private theorem transfer_clean (hstate : state.Primed stale bound) {dest : Place}
    {value : Operand}
    (h : (do state.read value; state.write dest; return [state]) = Except.ok ends)
    (hunseen : ∀ name ∈ value.unseen, state.released.contains name = false) {act : Activation}
    (htracks : state.Tracks act.frame) :
    Exec.Clean (do
        Exec.spend
        let value ← Exec.ask fun act => act.eval program value
        Exec.store program dest value
        return Flow.next) act (Flow.Tracked gone stale bound entry ends) := by
  obtain ⟨_, hread, h⟩ := except_bind_eq_ok.mp h
  obtain ⟨_, hwrite, h⟩ := except_bind_eq_ok.mp h
  cases h
  refine Exec.meets_spend rfl fun fuel _ => Exec.meets_ask ?_ fun value _ =>
    store_clean hstate hwrite value htracks
  exact Frame.clean_of_safe (htracks.eval_safe hread hunseen fuel)

private theorem allocate_clean {next : PathState} (hstate : state.Primed stale bound)
    {name : String} (hnext : state.allocate name = .ok next) (rep : Rep) (value : Value)
    {act : Activation} (htracks : state.Tracks act.frame) :
    Exec.Clean (do
        Exec.changeFrame fun frame => frame.allocate name rep value
        return Flow.next) act (Flow.Tracked gone stale bound entry [next]) := by
  refine Exec.meets_changeFrame (fun cause hcause => ?_) fun after hafter => ?_
  · rw [Frame.allocate_eq_error hcause]
    rfl
  · refine ⟨next, List.mem_singleton_self next, hstate.allocate hnext, ?_⟩
    obtain ⟨_, rfl⟩ := PathState.allocate_eq_ok hnext
    rw [Frame.allocate_eq_ok hafter]
    exact htracks.bind name rep value true fun other ho hr => by simp [ho, hr]

section Steps

variable {act : Activation} (hstate : state.Primed stale bound) (htracks : state.Tracks act.frame)

include hstate htracks

private theorem init_clean {rep : Rep} {name : String} {value : Operand}
    (hunseen : ∀ name ∈ value.unseen, state.released.contains name = false)
    (h : (Instr.init rep name value).follow meet entry state = .ok ends) :
    ((Instr.init rep name value).exec program callees).Clean act
      (Flow.Tracked gone stale bound entry ends) := by
  obtain ⟨_, hread, h⟩ := except_bind_eq_ok.mp h
  obtain ⟨next, hnext, h⟩ := except_bind_eq_ok.mp h
  cases h
  refine Exec.meets_spend rfl fun fuel _ => Exec.meets_ask ?_ fun value _ =>
    allocate_clean hstate hnext rep value htracks
  exact Frame.clean_of_safe ((htracks.eval_safe hread hunseen fuel).bind
    fun value _ => (Exec.initialiser_calm rep value).safe.bind
      fun value _ => (rep.conform_calm value).safe)

private theorem release_clean {rep : Rep} {name : String} (hname : bound name)
    (h : (Instr.release rep name).follow meet entry state = .ok ends) :
    ((Instr.release rep name).exec program callees).Clean act
      (Flow.Tracked gone stale bound entry ends) := by
  obtain ⟨next, hnext, h⟩ := except_bind_eq_ok.mp h
  cases h
  refine Exec.meets_spend rfl fun _ _ => Exec.meets_changeFrame (fun cause hcause => ?_)
    fun after hafter => ?_
  · rcases Frame.release_eq_error hcause with rfl | rfl <;> rfl
  · refine ⟨next, List.mem_singleton_self next, hstate.release hnext hname,
      htracks.release hafter fun other ho => ?_⟩
    rw [(PathState.release_eq_ok hnext).2]
    simpa using ho

omit hstate in
private theorem branch_clean {test : Operand} {onTrue onFalse : List Instr} {rep : Rep}
    (hunseen : ∀ name ∈ test.unseen, state.released.contains name = false)
    (harms : ∀ arm, onTrue = arm ∨ onFalse = arm → ∀ ends,
      Instr.followAll meet entry [state] arm = .ok ends → ∀ act, state.Tracks act.frame →
      (Instr.execAll program callees arm).Clean act (Flow.Tracked gone stale bound entry ends))
    (h : (Instr.branch test onTrue onFalse rep).follow meet entry state = .ok ends) :
    ((Instr.branch test onTrue onFalse rep).exec program callees).Clean act
      (Flow.Tracked gone stale bound entry ends) := by
  obtain ⟨_, hread, h⟩ := except_bind_eq_ok.mp h
  obtain ⟨trueEnds, htrue, h⟩ := except_bind_eq_ok.mp h
  obtain ⟨falseEnds, hfalse, h⟩ := except_bind_eq_ok.mp h
  cases h
  refine Exec.meets_spend rfl fun fuel _ => Exec.meets_ask
    (Frame.clean_of_safe (htracks.eval_safe hread hunseen fuel)) fun value _ => ?_
  have hpaid : state.Tracks (Activation.frame { act with fuel }) := htracks
  cases value with
  | bool test =>
    cases test with
    | true =>
      exact (harms onTrue (.inl rfl) trueEnds htrue _ hpaid).mono fun flow frame hflow =>
        hflow.mono fun last hl => List.mem_append_left _ hl
    | false =>
      exact (harms onFalse (.inr rfl) falseEnds hfalse _ hpaid).mono fun flow frame hflow =>
        hflow.mono fun last hl => List.mem_append_right _ hl
  | _ => exact Meets.throw rfl

/-- Every round starts with locals that the state before the loop tracks. -/
private theorem loop_clean {body : List Instr}
    (hround : ∀ ends (act : Activation), state.Tracks act.frame →
      Instr.followAll meet (some state) [state] body = .ok ends →
      (Instr.execAll program callees body).Clean act
        (Flow.Tracked gone stale (state.later stale) (some state) ends))
    (h : (Instr.loop body).follow meet entry state = .ok ends) :
    ((Instr.loop body).exec program callees).Clean act
      (Flow.Tracked gone stale bound entry ends) := by
  obtain ⟨bodyEnds, hbody, h⟩ := except_bind_eq_ok.mp h
  obtain ⟨_, hbal, h⟩ := except_bind_eq_ok.mp h
  cases h
  have hlive : ∀ last ∈ bodyEnds, last.live = state.live := by
    unfold PathState.balanced at hbal
    split at hbal
    · rename_i hall
      exact fun last hl => by simpa using List.all_eq_true.mp hall last hl
    · cases hbal
  refine Exec.meets_spend rfl fun fuel _ => ?_
  split
  · exact Meets.throw rfl
  · refine Exec.meets_iterate (fun act => state.Tracks act.frame) (fun _ _ => rfl)
      (fun act ht => (hround _ act ht hbody).mono fun flow final hflow => ?_) _ _ htracks
    cases flow with
    | next =>
      obtain ⟨last, hl, hprimed, hlast⟩ := hflow
      exact hprimed.tracks_entry hstate.stale (fun _ h => h) (hlive last hl) hlast
    | leave =>
      obtain ⟨last, hlast, hafter⟩ := hflow
      cases hlast
      exact ⟨state, List.mem_singleton_self state, hstate, hafter⟩
    | ret value => exact hflow

private theorem leave_clean
    (hentry : ∀ outer, entry = some outer → outer.Encloses stale bound)
    (h : Instr.leave.follow meet entry state = .ok ends) :
    (Instr.leave.exec program callees).Clean act (Flow.Tracked gone stale bound entry ends) := by
  cases entry with
  | none => cases h
  | some outer =>
    simp only [Instr.follow] at h
    split at h
    · rename_i hlive
      have houter := hentry outer rfl
      exact Exec.meets_spend rfl fun _ _ => ⟨outer, rfl,
        hstate.tracks_entry houter.before houter.within hlive htracks⟩
    · cases h

private theorem ret_clean {value : Operand} (hgone : ∀ name, bound name → name ∈ gone)
    (hunseen : ∀ name ∈ value.unseen, state.released.contains name = false)
    (h : (Instr.ret value).follow meet entry state = .ok ends) :
    ((Instr.ret value).exec program callees).Clean act
      (Flow.Tracked gone stale bound entry ends) := by
  obtain ⟨_, hread, h⟩ := except_bind_eq_ok.mp h
  exact Exec.meets_spend rfl fun fuel _ => Exec.meets_ask
    (Frame.clean_of_safe (htracks.eval_safe hread hunseen fuel))
    fun value _ name slot hs hr => hgone name (hstate.bounded name (htracks.marked name slot hs hr))

private theorem call_clean {dest : Place} {callee : String} {args : List Operand}
    (hcallees : callees.Admit (·.isUseAfterRelease = false))
    (hunseen : ∀ name ∈ args.flatMap Operand.unseen, state.released.contains name = false)
    (h : (Instr.call dest callee args).follow meet entry state = .ok ends) :
    ((Instr.call dest callee args).exec program callees).Clean act
      (Flow.Tracked gone stale bound entry ends) := by
  obtain ⟨_, hread, h⟩ := except_bind_eq_ok.mp h
  obtain ⟨_, hwrite, h⟩ := except_bind_eq_ok.mp h
  cases h
  refine Exec.meets_spend rfl fun fuel _ => Exec.meets_ask ?_ fun values _ =>
    Exec.meets_outside <| .intro (fun result store _ => ?_) (hcallees callee values _)
  · have hfollows : Frame.Follows _ (Activation.frame { act with fuel }) _ :=
      Frame.follows_liveNames htracks.unique
    exact Frame.clean_of_safe (Activation.evalAll_safe hfollows (htracks.readsAll hread hunseen))
  · have hback : state.Tracks (Activation.frame ⟨store, act.frame⟩) := htracks
    exact store_clean hstate hwrite result hback

end Steps

mutual

theorem Instr.follow_clean (hmeet : ∀ states s, s ∈ states → s ∈ meet states)
    (hcallees : callees.Admit (·.isUseAfterRelease = false))
    (hstale : ∀ name ∈ stale, name ∈ gone) {bound : String → Prop} {entry : Option PathState}
    {state : PathState} {ends : List PathState} (hgone : ∀ name, bound name → name ∈ gone)
    (hentry : ∀ outer, entry = some outer → outer.Encloses stale bound)
    (hstate : state.Primed stale bound) {act : Activation} (htracks : state.Tracks act.frame) :
    ∀ {instr : Instr}, Instr.Open gone stale bound [instr] →
      instr.follow meet entry state = .ok ends →
      (instr.exec program callees).Clean act (Flow.Tracked gone stale bound entry ends)
  | .decl rep name, _, h => by
    cases h
    refine Exec.meets_spend rfl fun fuel _ => Exec.meets_changeFrame nofun ?_
    rintro _ ⟨⟩
    exact ⟨state, List.mem_singleton_self state, hstate,
      htracks.bind name rep _ false fun _ _ hr => hr⟩
  | .alloc rep name, _, h => by
    obtain ⟨next, hnext, h⟩ := except_bind_eq_ok.mp h
    cases h
    exact Exec.meets_spend rfl fun _ _ => allocate_clean hstate hnext rep _ htracks
  | .init _ _ _, hopen, h => init_clean hstate htracks (hopen.spared hgone hstate) h
  | .release _ name, hopen, h =>
    release_clean hstate htracks (hopen.released name (List.mem_append_left _ List.mem_cons_self)) h
  | .branch test onTrue onFalse _, hopen, h => by
    refine branch_clean htracks (fun name hn =>
      hopen.spared hgone hstate name (List.mem_append_left _ hn)) ?_ h
    rintro arm (rfl | rfl) ends harm act ht
    · exact Instr.followAll_clean hmeet hcallees hstale hgone hentry hstate ht
        (List.mem_singleton_self state) hopen.arms.1 harm
    · exact Instr.followAll_clean hmeet hcallees hstale hgone hentry hstate ht
        (List.mem_singleton_self state) hopen.arms.2 harm
  | .loop body, hopen, h => by
    refine loop_clean hstate htracks (fun ends act ht hbody => ?_) h
    refine Instr.followAll_clean hmeet hcallees hstale ?_ ?_ ?_ ht
      (List.mem_singleton_self state) hopen.body hbody
    · exact fun name hn => hn.elim (fun hr => hgone name (hstate.bounded name hr)) (hstale name)
    · intro outer houter
      cases houter
      exact ⟨hstate.stale, fun _ hn => hn⟩
    · exact ⟨hstate.distinct, hstate.apart, hstate.stale, fun _ hr => .inl hr⟩
  | .leave, _, h => leave_clean hstate htracks hentry h
  | .ret _, hopen, h => ret_clean hstate htracks hgone (hopen.spared hgone hstate) h
  | .call _ _ _, hopen, h =>
    call_clean hstate htracks hcallees (hopen.spared hgone hstate) h
  | .convert _ _, hopen, h => transfer_clean hstate h (hopen.spared hgone hstate) htracks
  | .assign _ _, hopen, h => transfer_clean hstate h (hopen.spared hgone hstate) htracks
  | .copy _ _, hopen, h => transfer_clean hstate h (hopen.spared hgone hstate) htracks
  | .comment _, _, h => by
    cases h
    exact Exec.meets_spend rfl fun _ _ => ⟨state, List.mem_singleton_self state, hstate, htracks⟩

private theorem Instr.followAll_clean (hmeet : ∀ states s, s ∈ states → s ∈ meet states)
    (hcallees : callees.Admit (·.isUseAfterRelease = false))
    (hstale : ∀ name ∈ stale, name ∈ gone) {bound : String → Prop} {entry : Option PathState}
    {states ends : List PathState} {state : PathState} (hgone : ∀ name, bound name → name ∈ gone)
    (hentry : ∀ outer, entry = some outer → outer.Encloses stale bound)
    (hstate : state.Primed stale bound) {act : Activation} (htracks : state.Tracks act.frame)
    (hmem : state ∈ states) :
    ∀ {code : List Instr}, Instr.Open gone stale bound code →
      Instr.followAll meet entry states code = .ok ends →
      (Instr.execAll program callees code).Clean act (Flow.Tracked gone stale bound entry ends)
  | [], _, h => by
    cases h
    exact ⟨state, hmem, hstate, htracks⟩
  | instr :: rest, hopen, h => by
    rw [Instr.followAll] at h
    split at h
    · rename_i hempty
      rw [List.isEmpty_iff.mp hempty] at hmem
      cases hmem
    · obtain ⟨middles, hmiddles, hrest⟩ := except_bind_eq_ok.mp h
      obtain ⟨own, hown, hsub⟩ := mem_of_followEach hmiddles hmem
      refine Meets.bind (Instr.follow_clean hmeet hcallees hstale hgone hentry hstate htracks
        hopen.head hown) fun flow after hflow => ?_
      cases flow with
      | next =>
        obtain ⟨middle, hm, hprimed, hmiddle⟩ := hflow
        exact Instr.followAll_clean hmeet hcallees hstale hgone hentry hprimed hmiddle
          (hmeet _ middle (hsub middle hm)) hopen.tail hrest
      | leave => exact hflow
      | ret value => exact hflow

end

end Code

private theorem Routine.bindParams_tracks {state : PathState} {frame next : Frame}
    {params : List (String × Rep)} {args : List Value} (hframe : state.Tracks frame)
    (h : Routine.bindParams frame params args = .ok next) : state.Tracks next := by
  induction params generalizing frame args with
  | nil =>
    cases h
    exact hframe
  | cons param params ih =>
    obtain ⟨name, rep⟩ := param
    cases args with
    | nil =>
      cases h
      exact hframe
    | cons arg args =>
      obtain ⟨value, _, h⟩ := except_bind_eq_ok.mp h
      exact ih (hframe.bind name rep value false fun _ _ hr => hr) h

private theorem Routine.entryFrame_tracks {routine : Routine} (state : PathState)
    {args : List Value}
    {frame : Frame} (h : routine.entryFrame args = .ok frame) : state.Tracks frame := by
  have hempty : state.Tracks (∅ : Frame) := by
    refine ⟨NameTable.unique_empty, fun name slot hs => ?_⟩
    change (NameTable.empty : Frame).get? name = some slot at hs
    simp at hs
  unfold Routine.entryFrame at h
  split at h
  · cases h
  · obtain ⟨bound, hbound, h⟩ := except_bind_eq_ok.mp h
    have htracks := Routine.bindParams_tracks hempty hbound
    split at h
    · cases h
      exact htracks.bind _ _ _ false fun _ _ hr => hr
    · cases h
      exact htracks

private theorem Routine.exitValue_clean {routine : Routine} {gone stale : List String}
    {bound : String → Prop} {ends : List PathState} {frame : Frame} {flow : Flow}
    {cause : RunError} (hresult : routine.returnsByReference = true → Routine.resultParam ∉ gone)
    (hflow : flow.Tracked gone stale bound none ends frame)
    (h : routine.exitValue frame flow = .error cause) : cause.isUseAfterRelease = false := by
  cases flow with
  | next =>
    cases h
    rfl
  | leave =>
    cases h
    rfl
  | ret value =>
    simp only [Routine.exitValue] at h
    split at h
    · cases h
      rfl
    · split at h
      · rename_i hreference
        unfold Frame.read at h
        split at h
        · rename_i slot hs
          split at h
          · rename_i hgone
            exact absurd (hflow _ slot hs hgone) (hresult hreference)
          · cases h
        · cases h
          rfl
      · exact RunError.isUseAfterRelease_of_isLifetime (routine.result.conform_calm value cause h)

/-- Names that were allocated and released count as released for the code that follows. -/
theorem Instr.followAll_churn (rest : List Instr) :
    ∀ (names : List String) (state : PathState), state.live = [] → ∃ primed : PathState,
      primed.live = [] ∧ (∀ name, primed.released.contains name = true ↔
        name ∈ names ∨ state.released.contains name = true) ∧
      Instr.followAll PathState.distinct none [state] (Instr.churn names ++ rest) =
        Instr.followAll PathState.distinct none [primed] rest
  | [], state, hlive => ⟨state, hlive, by simp, rfl⟩
  | name :: names, state, hlive => by
    obtain ⟨primed, hprimed, hmarks, hfollow⟩ := Instr.followAll_churn rest names
      ⟨[], (state.released.erase name).insert name⟩ rfl
    refine ⟨primed, hprimed, fun other => ?_, ?_⟩
    · rw [hmarks]
      by_cases ho : other = name <;> simp [ho]
    · rw [← hfollow]
      have hallocate : state.allocate name = .ok ⟨[name], state.released.erase name⟩ := by
        simp [PathState.allocate, hlive]
      simp [Instr.churn, Instr.followAll, followEach, Instr.follow, hallocate, PathState.release,
        PathState.distinct]

end Execution

/-- A run of a routine never reports the use of a local that the routine has released, whatever
the arguments, the registers, the fuel and the number of rounds of its loops, if the check accepts
it with everything that its loops release counted as released before, no operator reads a name
that it releases, and it does not release the result parameter. Calls may do anything else than
report such a use themselves. -/
theorem Routine.checked_run_uses_nothing_released (program : Program) (routine : Routine)
    (hcheck : routine.primed.checkLifetimes = .ok ())
    (hunseen : ∀ name ∈ Instr.unseenAll routine.body, name ∉ Instr.releasedAll routine.body)
    (hresult : routine.returnsByReference = true →
      Routine.resultParam ∉ Instr.releasedAll routine.body)
    (callees : Callees) (hcallees : callees.Admit (·.isUseAfterRelease = false))
    (args : List Value) (store final : Store) (cause : RunError)
    (hrun : routine.run program callees args store = .error cause final) :
    cause.isUseAfterRelease = false := by
  obtain ⟨ends, hends, _⟩ := except_bind_eq_ok.mp hcheck
  obtain ⟨primed, hlive, hmarks, hfollow⟩ := Instr.followAll_churn routine.body
    (Instr.releasedInLoopsAll routine.body) {} rfl
  rw [Routine.primed, hfollow] at hends
  have hprimed : primed.Primed (Instr.releasedInLoopsAll routine.body)
      (· ∈ Instr.releasedAll routine.body) := by
    refine ⟨by simp [hlive], by simp [hlive], fun name hn => .inr ((hmarks name).mpr (.inl hn)), ?_⟩
    intro name hr
    rcases (hmarks name).mp hr with hn | hempty
    · exact Instr.releasedInLoopsAll_subset hn
    · cases hempty
  have hmeets : Meets (routine.run program callees args) store (fun _ _ => True)
      fun cause _ => cause.isUseAfterRelease = false := by
    refine Routine.meets_run (fun other hentry => ?_) fun frame hentry => ?_
    · exact RunError.isUseAfterRelease_of_isLifetime (routine.entryFrame_calm args _ hentry)
    · have hclean : (Instr.execAll program callees routine.body).Clean { store with frame }
          (Flow.Tracked _ _ _ none ends) :=
        Instr.followAll_clean (fun _ _ => PathState.mem_distinct.mpr) hcallees
          (fun _ hn => Instr.releasedInLoopsAll_subset hn) (fun _ hn => hn)
          (fun _ h => by cases h) hprimed (Routine.entryFrame_tracks primed hentry)
          (List.mem_singleton_self primed) ⟨hunseen, fun _ hn => hn, fun _ hn => hn⟩ hends
      exact Meets.mono hclean fun flow act hflow =>
        ⟨fun _ => routine.exitValue_clean hresult hflow, fun _ _ => trivial⟩
  exact hmeets.error hrun

/-- A loop that allocates in every round, compares its parameter, and gives back what the last round
has allocated. -/
def Routine.polling : Routine where
  name := "poll"
  params := [("ticks", .machInt)]
  result := .bigInt
  body := [.loop [
    .alloc .bigInt "tick",
    .convert (.name "tick" .bigInt) (.name "ticks" .machInt),
    .branch (.inline (.binary .lt (.name "ticks") (.int 3)) .bool)
      [.assign (.name "ticks" .machInt) (.inline (.binary .add (.name "ticks") (.int 1)) .machInt),
        .release .bigInt "tick"]
      [.copy (.deref Routine.resultParam .bigInt) (.name "tick" .bigInt),
        .release .bigInt "tick",
        .ret .unit]
      .unit]]

theorem Routine.polling_uses_nothing_released :
    Routine.polling.primed.checkLifetimes = .ok () ∧
    (∀ name ∈ Instr.unseenAll Routine.polling.body,
      name ∉ Instr.releasedAll Routine.polling.body) ∧
    Routine.polling.returnsByReference = true ∧
    Routine.resultParam ∉ Instr.releasedAll Routine.polling.body ∧
    ∀ args store final cause,
      Routine.polling.run ⟨[]⟩ (fun _ _ => throw .outOfFuel) args store = .error cause final →
        cause.isUseAfterRelease = false := by
  have hcheck : Routine.polling.primed.checkLifetimes = .ok () := rfl
  have hunseen : ∀ name ∈ Instr.unseenAll Routine.polling.body,
      name ∉ Instr.releasedAll Routine.polling.body := by decide
  have hresult : Routine.resultParam ∉ Instr.releasedAll Routine.polling.body := by decide
  refine ⟨hcheck, hunseen, rfl, hresult, fun args store final cause hrun => ?_⟩
  refine Routine.checked_run_uses_nothing_released ⟨[]⟩ Routine.polling hcheck hunseen
    (fun _ => hresult) (fun _ _ => throw .outOfFuel) ?_ args store final cause hrun
  intro name args store cause final h
  cases h
  rfl

/-- An operator reads a released local. -/
def Routine.comparing : Routine where
  name := "compare"
  params := []
  result := .unit
  body := [
    .alloc .bigInt "x",
    .release .bigInt "x",
    .decl .bool "b",
    .assign (.name "b" .bool) (.inline (.binary .gt (.name "x") (.int 0)) .bool),
    .ret .unit]

/-- A local that was released in a loop is read after it. -/
def Routine.leaving : Routine where
  name := "leave"
  params := []
  result := .unit
  body := [
    .loop [.alloc .bigInt "x", .release .bigInt "x", .leave],
    .decl .machInt "y",
    .convert (.name "y" .machInt) (.name "x" .bigInt),
    .ret .unit]

/-- A local that was released in one round of a loop is read in the next one. -/
def Routine.repeating : Routine where
  name := "repeat"
  params := []
  result := .unit
  body := [
    .decl .bool "again",
    .decl .machInt "y",
    .loop [
      .branch (.name "again" .bool)
        [.convert (.name "y" .machInt) (.name "x" .bigInt)]
        [.assign (.name "again" .bool) (.inline (.bool true) .bool)]
        .unit,
      .alloc .bigInt "x",
      .release .bigInt "x"]]

/-- The result parameter is released. -/
def Routine.clearing : Routine where
  name := "clear"
  params := []
  result := .bigInt
  body := [.alloc .bigInt Routine.resultParam, .release .bigInt Routine.resultParam, .ret .unit]

/-- The check by itself does not exclude such a use. It accepts routines that read what they have
released in an operator, after a loop, in a later round of a loop and as their result. -/
theorem Routine.checked_runs_use_released :
    (Routine.comparing.checkLifetimes = .ok () ∧
      (Machine.call ⟨⟨[.routine Routine.comparing]⟩, ∅, 20⟩ Routine.comparing.name []).1 =
        .error (.useAfterRelease "x")) ∧
    (Routine.leaving.checkLifetimes = .ok () ∧
      (Machine.call ⟨⟨[.routine Routine.leaving]⟩, ∅, 20⟩ Routine.leaving.name []).1 =
        .error (.useAfterRelease "x")) ∧
    (Routine.repeating.checkLifetimes = .ok () ∧
      (Machine.call ⟨⟨[.routine Routine.repeating]⟩, ∅, 20⟩ Routine.repeating.name []).1 =
        .error (.useAfterRelease "x")) ∧
    Routine.clearing.checkLifetimes = .ok () ∧
      (Machine.call ⟨⟨[.routine Routine.clearing]⟩, ∅, 20⟩ Routine.clearing.name []).1 =
        .error (.useAfterRelease Routine.resultParam) :=
  ⟨⟨rfl, rfl⟩, ⟨rfl, rfl⟩, ⟨rfl, rfl⟩, rfl, rfl⟩

end IsaBackend
