import IsaBackend.Lifetime.Check
import IsaBackend.Proofs.Code.Tidy
import IsaBackend.Proofs.Effects
import Mathlib.Data.List.Induction

/-!
# What the lifetime check accepts

The check and tidiness meet in both directions. Tidy code passes the check, except that names
whose uses are not watched may be reported as used after their release. Code that passes the check
is tidy, with the ends of its paths as the stacks it can fall through with.
-/

namespace IsaBackend

namespace PathState

/-- A further state is kept unless an equal one was. -/
theorem distinct_concat (states : List PathState) (state : PathState) :
    distinct (states ++ [state]) =
      if state ∈ distinct states then distinct states else distinct states ++ [state] := by
  simp only [distinct, List.foldl_append, List.foldl_cons, List.foldl_nil, List.mem_reverse]
  split
  · rfl
  · exact List.reverse_cons

@[simp] theorem mem_distinct {states : List PathState} {state : PathState} :
    state ∈ distinct states ↔ state ∈ states := by
  induction states using List.reverseRecOn with
  | nil => rfl
  | append_singleton states last ih =>
    rw [distinct_concat, List.mem_append, List.mem_singleton]
    split
    · rename_i hkept
      rw [ih, or_iff_left_of_imp]
      rintro rfl
      exact ih.mp hkept
    · rw [List.mem_append, ih, List.mem_singleton]

/-- The live names of a path own storage, each of them once, and what has been released owned
storage and is not live again. -/
structure Fits (disc : Discipline) (state : PathState) : Prop where
  distinct : state.live.Nodup
  owned : ∀ name ∈ state.live, disc.owns name
  released : ∀ name, state.released.contains name = true →
    disc.owns name ∧ name ∉ state.live

end PathState

/-- A step of the check gives a result, or complains about the use of a name that is not
watched. -/
def Passes {α : Type} (disc : Discipline) (result : Except LifetimeError α) (post : α → Prop) :
    Prop :=
  (∃ value, result = .ok value ∧ post value) ∨
    (¬disc.watches ∧ ∃ name, result = .error (.useAfterRelease name))

section Acceptance

variable {disc : Discipline}

theorem Passes.ok {α : Type} {post : α → Prop} {value : α} (h : post value) :
    Passes disc (.ok value) post := .inl ⟨value, rfl, h⟩

theorem Passes.bind {α β : Type} {first : Except LifetimeError α}
    {next : α → Except LifetimeError β} {mid : α → Prop} {post : β → Prop}
    (h : Passes disc first mid) (hnext : ∀ value, mid value → Passes disc (next value) post) :
    Passes disc (first >>= next) post := by
  rcases h with ⟨value, rfl, hv⟩ | ⟨hw, name, rfl⟩
  · exact hnext value hv
  · exact .inr ⟨hw, name, rfl⟩

namespace PathState

variable {state : PathState}

private theorem use_passes (fits : state.Fits disc) {name : String}
    (h : disc.Usable state.live name) : Passes disc (state.use name) fun _ => True := by
  unfold use
  by_cases hr : state.released.contains name = true
  · rw [if_pos hr]
    refine .inr ⟨fun hw => ?_, name, rfl⟩
    obtain ⟨owned, gone⟩ := fits.released name hr
    exact (h hw).elim gone (fun free => free owned)
  · rw [if_neg hr]
    exact .ok trivial

theorem names_of_root? : ∀ {expr : Inline} {key : String}, expr.root? = some key →
    expr.names = [key]
  | .name _, _, h => by simp_all [Inline.root?, Inline.names]
  | .field record _, key, h => by
    have hrecord : record.root? = some key := h
    rw [Inline.names]
    exact names_of_root? hrecord

private theorem read_passes (fits : state.Fits disc) {operand : Operand}
    (h : disc.Reads state.live operand) : Passes disc (state.read operand) fun _ => True := by
  cases operand with
  | name key rep => exact use_passes fits (h.2 key (by simp [Operand.names]))
  | inline expr rep =>
    have hfit : expr.fitsMachineWord = true := h.1
    simp only [read, hfit, if_true]
    cases hroot : expr.root? with
    | none => exact .ok trivial
    | some key => exact use_passes fits (h.2 key (by simp [Operand.names, names_of_root? hroot]))

private theorem readAll_passes (fits : state.Fits disc) {operands : List Operand}
    (h : ∀ operand ∈ operands, disc.Reads state.live operand) :
    Passes disc (state.readAll operands) fun _ => True := by
  induction operands with
  | nil => exact .ok trivial
  | cons operand rest ih =>
    apply Passes.bind (read_passes fits (h operand (by simp)))
    intro _ _
    exact ih fun other ho => h other (by simp [ho])

private theorem allocate_passes (fits : state.Fits disc) {name : String} (owned : disc.owns name)
    (fresh : name ∉ state.live) :
    Passes disc (state.allocate name) fun next =>
      next.live = name :: state.live ∧ next.Fits disc := by
  have hc : ¬state.live.contains name = true := by simpa using fresh
  simp only [allocate, if_neg hc]
  refine .ok ⟨rfl, List.nodup_cons.mpr ⟨fresh, fits.distinct⟩, ?_, ?_⟩
  · intro other ho
    rcases List.mem_cons.mp ho with rfl | ho
    · exact owned
    · exact fits.owned other ho
  · intro other ho
    simp only [NameSet.contains_erase, Bool.and_eq_true, bne_iff_ne, ne_eq] at ho
    obtain ⟨howns, gone⟩ := fits.released other ho.2
    exact ⟨howns, by simp [ho.1, gone]⟩

private theorem release_passes (fits : state.Fits disc) {name : String} {rest : List String}
    (hlive : state.live = name :: rest) :
    Passes disc (state.release name) fun next => next.live = rest ∧ next.Fits disc := by
  have hd := fits.distinct
  have ho := fits.owned
  have hr := fits.released
  rw [hlive] at hd ho
  obtain ⟨last, distinct⟩ := List.nodup_cons.mp hd
  simp only [release, hlive, if_true]
  refine .ok ⟨rfl, distinct, fun other h => ho other (List.mem_cons_of_mem _ h), ?_⟩
  intro other h
  simp only [NameSet.contains_insert, Bool.or_eq_true, beq_iff_eq] at h
  rcases h with rfl | h
  · exact ⟨ho _ List.mem_cons_self, last⟩
  · obtain ⟨howns, gone⟩ := hr other h
    rw [hlive] at gone
    exact ⟨howns, fun h => gone (List.mem_cons_of_mem _ h)⟩

end PathState

/-- The states after a step of the check keep the condition on the stack. -/
def Reach (disc : Discipline) (post : List String → Prop) (states : List PathState) : Prop :=
  ∀ state ∈ states, post state.live ∧ state.Fits disc

private theorem followEach_passes {step : PathState → Except LifetimeError (List PathState)}
    {states : List PathState} {post : List String → Prop}
    (h : ∀ state ∈ states, Passes disc (step state) (Reach disc post)) :
    Passes disc (followEach step states) (Reach disc post) := by
  induction states with
  | nil => exact .ok (fun _ hs => absurd hs (List.not_mem_nil))
  | cons state rest ih =>
    apply Passes.bind (h state (by simp))
    intro ends hends
    apply Passes.bind (ih fun other ho => h other (by simp [ho]))
    intro more hmore
    refine .ok ?_
    intro last hl
    rcases List.mem_append.mp hl with hl | hl
    · exact hends last hl
    · exact hmore last hl

private theorem store_passes {state : PathState} (fits : state.Fits disc) {dest : Place}
    {value : Operand} {post : List String → Prop}
    (h : disc.Reads state.live value ∧ disc.Usable state.live dest.root ∧ post state.live) :
    Passes disc (do state.read value; state.write dest; return [state]) (Reach disc post) := by
  apply Passes.bind (PathState.read_passes fits h.1)
  intro _ _
  apply Passes.bind (PathState.use_passes fits h.2.1)
  intro _ _
  exact .ok (by simpa [Reach] using ⟨h.2.2, fits⟩)

private theorem from_one {P : PathState → Prop} {state : PathState} (h : P state) :
    ∀ other ∈ [state], P other := by
  simpa using h

mutual

theorem Instr.Tidy.follow_passes {meet : Meeting} (hmeet : ∀ states s, s ∈ meet states → s ∈ states)
    {entry : Option PathState} {state : PathState} {post : List String → Prop}
    (fits : state.Fits disc) :
    ∀ {instr : Instr}, instr.Tidy disc (entry.map PathState.live) state.live post →
      Passes disc (instr.follow meet entry state) (Reach disc post)
  | .decl _ _, h => .ok (by simpa [Reach] using ⟨h.2, fits⟩)
  | .comment _, h => .ok (by simpa [Reach] using ⟨h, fits⟩)
  | .alloc _ name, h => by
    rw [Instr.follow]
    apply Passes.bind (PathState.allocate_passes fits h.1 h.2.1)
    rintro next ⟨hlive, hfits⟩
    refine .ok ?_
    simpa [Reach, hlive] using ⟨h.2.2, hfits⟩
  | .init _ name value, h => by
    rw [Instr.follow]
    apply Passes.bind (PathState.read_passes fits h.1)
    intro _ _
    apply Passes.bind (PathState.allocate_passes fits h.2.1 h.2.2.1)
    rintro next ⟨hlive, hfits⟩
    refine .ok ?_
    simpa [Reach, hlive] using ⟨h.2.2.2, hfits⟩
  | .release _ name, ⟨rest, hlive, hpost⟩ => by
    rw [Instr.follow]
    apply Passes.bind (PathState.release_passes fits hlive)
    rintro next ⟨hnext, hfits⟩
    refine .ok ?_
    simpa [Reach, hnext] using ⟨hpost, hfits⟩
  | .branch test onTrue onFalse _, h => by
    rw [Instr.follow]
    apply Passes.bind (PathState.read_passes fits h.1)
    intro _ _
    apply Passes.bind (Instr.TidyAll.followAll_passes hmeet (from_one ⟨h.2.1, fits⟩))
    intro ends hends
    apply Passes.bind (Instr.TidyAll.followAll_passes hmeet (from_one ⟨h.2.2, fits⟩))
    intro more hmore
    refine .ok ?_
    intro last hl
    rcases List.mem_append.mp hl with hl | hl
    · exact hends last hl
    · exact hmore last hl
  | .loop body, h => by
    rw [Instr.follow]
    have hbody : Instr.TidyAll disc ((some state).map PathState.live) state.live body
        (· = state.live) := h.1
    apply Passes.bind (Instr.TidyAll.followAll_passes hmeet (from_one ⟨hbody, fits⟩))
    intro ends hends
    have hall : ends.all (fun last => last.live = state.live) = true := by
      simpa using fun last hl => (hends last hl).1
    rw [PathState.balanced, if_pos hall]
    exact .ok (by simpa [Reach] using ⟨h.2, fits⟩)
  | .leave, h => by
    cases entry with
    | none => simp [Instr.Tidy] at h
    | some entry =>
      have hlive : state.live = entry.live := by simpa [Instr.Tidy, eq_comm] using h
      simp only [Instr.follow, hlive, if_true]
      exact .ok (fun _ hs => absurd hs (List.not_mem_nil))
  | .ret value, h => by
    rw [Instr.follow]
    apply Passes.bind (PathState.read_passes fits h.1)
    intro _ _
    simp only [PathState.settled, h.2]
    exact .ok (fun _ hs => absurd hs (List.not_mem_nil))
  | .call dest _ args, h => by
    rw [Instr.follow]
    apply Passes.bind (PathState.readAll_passes fits h.1)
    intro _ _
    apply Passes.bind (PathState.use_passes fits h.2.1)
    intro _ _
    exact .ok (by simpa [Reach] using ⟨h.2.2, fits⟩)
  | .convert _ _, h => store_passes fits h
  | .assign _ _, h => store_passes fits h
  | .copy _ _, h => store_passes fits h

theorem Instr.TidyAll.followAll_passes {meet : Meeting}
    (hmeet : ∀ states s, s ∈ meet states → s ∈ states) {entry : Option PathState}
    {states : List PathState} {post : List String → Prop} :
    ∀ {code : List Instr},
      (∀ state ∈ states, Instr.TidyAll disc (entry.map PathState.live) state.live code post ∧
        state.Fits disc) →
      Passes disc (Instr.followAll meet entry states code) (Reach disc post)
  | [], h => .ok h
  | instr :: rest, h => by
    rw [Instr.followAll]
    by_cases hs : states.isEmpty = true
    · rw [if_pos hs]
      rw [List.isEmpty_iff.mp hs]
      exact .ok (fun _ hm => absurd hm (List.not_mem_nil))
    · rw [if_neg hs]
      apply Passes.bind (followEach_passes fun state hm =>
        Instr.Tidy.follow_passes hmeet (h state hm).2 (h state hm).1)
      intro ends hends
      exact Instr.TidyAll.followAll_passes hmeet fun state hm =>
        hends state (hmeet ends state hm)

end

end Acceptance

section Tidiness

variable {disc : Discipline}

private theorem reads_of_read (hwatch : ¬disc.watches) {state : PathState} {operand : Operand}
    (h : state.read operand = .ok ()) : disc.Reads state.live operand := by
  refine ⟨?_, fun _ _ hw => absurd hw hwatch⟩
  cases operand with
  | name key rep => rfl
  | inline expr rep =>
    simp only [PathState.read] at h
    split at h
    · assumption
    · cases h

private theorem reads_of_readAll (hwatch : ¬disc.watches) {state : PathState}
    {operands : List Operand} (h : state.readAll operands = .ok ()) :
    ∀ operand ∈ operands, disc.Reads state.live operand := by
  induction operands with
  | nil => simp
  | cons operand rest ih =>
    obtain ⟨_, hfirst, hrest⟩ := except_bind_eq_ok.mp h
    intro other ho
    rcases List.mem_cons.mp ho with rfl | ho
    · exact reads_of_read hwatch hfirst
    · exact ih hrest other ho

theorem PathState.allocate_eq_ok {state next : PathState} {name : String}
    (h : state.allocate name = .ok next) :
    name ∉ state.live ∧ next = ⟨name :: state.live, state.released.erase name⟩ := by
  unfold PathState.allocate at h
  split at h
  · cases h
  · rename_i hc
    cases h
    exact ⟨by simpa using hc, rfl⟩

theorem PathState.release_eq_ok {state next : PathState} {name : String}
    (h : state.release name = .ok next) :
    state.live = name :: next.live ∧ next.released = state.released.insert name := by
  unfold PathState.release at h
  split at h
  · rename_i top rest hlive
    split at h
    · rename_i heq
      cases h
      exact ⟨by rw [hlive, heq], rfl⟩
    · split at h
      · cases h
      · split at h <;> cases h
  · split at h <;> cases h

theorem PathState.live_of_settled {state : PathState} {leak : String → LifetimeError}
    (h : state.settled leak = .ok ()) : state.live = [] := by
  unfold PathState.settled at h
  split at h
  · cases h
  · assumption

/-- The stacks of a list of states. -/
def StackOf (states : List PathState) (live : List String) : Prop :=
  ∃ state ∈ states, state.live = live

theorem mem_of_followEach {step : PathState → Except LifetimeError (List PathState)}
    {states ends : List PathState} (h : followEach step states = .ok ends) {state : PathState}
    (hs : state ∈ states) : ∃ some, step state = .ok some ∧ ∀ last ∈ some, last ∈ ends := by
  induction states generalizing ends with
  | nil => cases hs
  | cons first rest ih =>
    obtain ⟨firstEnds, hfirst, hmore⟩ := except_bind_eq_ok.mp h
    obtain ⟨restEnds, hrest, hends⟩ := except_bind_eq_ok.mp hmore
    cases hends
    rcases List.mem_cons.mp hs with rfl | hs
    · exact ⟨firstEnds, hfirst, fun last hl => List.mem_append_left _ hl⟩
    · obtain ⟨ends, hstep, hsub⟩ := ih hrest hs
      exact ⟨ends, hstep, fun last hl => List.mem_append_right _ (hsub last hl)⟩

private theorem store_tidy (hwatch : ¬disc.watches) {state : PathState} {dest : Place}
    {value : Operand} {ends : List PathState}
    (h : (do state.read value; state.write dest; return [state]) = Except.ok ends) :
    disc.Reads state.live value ∧ disc.Usable state.live dest.root ∧
      StackOf ends state.live := by
  obtain ⟨_, hread, h⟩ := except_bind_eq_ok.mp h
  obtain ⟨_, _, h⟩ := except_bind_eq_ok.mp h
  cases h
  exact ⟨reads_of_read hwatch hread, fun hw => absurd hw hwatch, state, by simp, rfl⟩

mutual

/-- An instruction that the check follows without complaint is tidy. -/
theorem Instr.tidy_of_follow (hwatch : ¬disc.watches) {meet : Meeting}
    (hmeet : ∀ states s, s ∈ states → s ∈ meet states) {entry : Option PathState}
    {state : PathState} {ends : List PathState} :
    ∀ {instr : Instr}, disc.Covers instr.introduced → instr.follow meet entry state = .ok ends →
      instr.Tidy disc (entry.map PathState.live) state.live (StackOf ends)
  | .decl _ name, hcov, h => by
    cases h
    refine ⟨fun ho => ?_, state, by simp, rfl⟩
    simpa using (hcov (name, false) (by simp [Instr.introduced])).mp ho
  | .comment _, _, h => by
    cases h
    exact ⟨state, by simp, rfl⟩
  | .alloc _ name, hcov, h => by
    obtain ⟨next, hnext, h⟩ := except_bind_eq_ok.mp h
    cases h
    obtain ⟨fresh, rfl⟩ := PathState.allocate_eq_ok hnext
    exact ⟨(hcov (name, true) (by simp [Instr.introduced])).mpr rfl, fresh, _,
      List.mem_singleton_self _, rfl⟩
  | .init _ name value, hcov, h => by
    obtain ⟨_, hread, h⟩ := except_bind_eq_ok.mp h
    obtain ⟨next, hnext, h⟩ := except_bind_eq_ok.mp h
    cases h
    obtain ⟨fresh, rfl⟩ := PathState.allocate_eq_ok hnext
    exact ⟨reads_of_read hwatch hread, (hcov (name, true) (by simp [Instr.introduced])).mpr rfl,
      fresh, _, List.mem_singleton_self _, rfl⟩
  | .release _ name, _, h => by
    obtain ⟨next, hnext, h⟩ := except_bind_eq_ok.mp h
    cases h
    exact ⟨next.live, (PathState.release_eq_ok hnext).1, next, by simp, rfl⟩
  | .branch test onTrue onFalse _, hcov, h => by
    obtain ⟨_, hread, h⟩ := except_bind_eq_ok.mp h
    obtain ⟨trueEnds, htrue, h⟩ := except_bind_eq_ok.mp h
    obtain ⟨falseEnds, hfalse, h⟩ := except_bind_eq_ok.mp h
    cases h
    obtain ⟨trueCov, falseCov⟩ := Discipline.covers_append.mp hcov
    refine ⟨reads_of_read hwatch hread, ?_, ?_⟩
    · refine (Instr.tidyAll_of_followAll hwatch hmeet trueCov htrue state (by simp)).mono ?_
      rintro live ⟨last, hl, rfl⟩
      exact ⟨last, List.mem_append_left _ hl, rfl⟩
    · refine (Instr.tidyAll_of_followAll hwatch hmeet falseCov hfalse state (by simp)).mono ?_
      rintro live ⟨last, hl, rfl⟩
      exact ⟨last, List.mem_append_right _ hl, rfl⟩
  | .loop body, hcov, h => by
    obtain ⟨bodyEnds, hbody, h⟩ := except_bind_eq_ok.mp h
    obtain ⟨_, hbal, h⟩ := except_bind_eq_ok.mp h
    cases h
    unfold PathState.balanced at hbal
    split at hbal
    · rename_i hall
      refine ⟨?_, state, by simp, rfl⟩
      refine (Instr.tidyAll_of_followAll hwatch hmeet hcov hbody state (by simp)).mono ?_
      rintro live ⟨last, hl, rfl⟩
      simpa using List.all_eq_true.mp hall last hl
    · cases hbal
  | .leave, _, h => by
    cases entry with
    | none => cases h
    | some entry =>
      simp only [Instr.follow] at h
      split at h
      · rename_i hlive
        simp [Instr.Tidy, hlive]
      · cases h
  | .ret value, _, h => by
    obtain ⟨_, hread, h⟩ := except_bind_eq_ok.mp h
    obtain ⟨_, hsettled, _⟩ := except_bind_eq_ok.mp h
    exact ⟨reads_of_read hwatch hread, PathState.live_of_settled hsettled⟩
  | .call dest _ args, _, h => by
    obtain ⟨_, hread, h⟩ := except_bind_eq_ok.mp h
    obtain ⟨_, _, h⟩ := except_bind_eq_ok.mp h
    cases h
    exact ⟨reads_of_readAll hwatch hread, fun hw => absurd hw hwatch, state, by simp, rfl⟩
  | .convert _ _, _, h => store_tidy hwatch h
  | .assign _ _, _, h => store_tidy hwatch h
  | .copy _ _, _, h => store_tidy hwatch h

theorem Instr.tidyAll_of_followAll (hwatch : ¬disc.watches) {meet : Meeting}
    (hmeet : ∀ states s, s ∈ states → s ∈ meet states) {entry : Option PathState}
    {states ends : List PathState} :
    ∀ {code : List Instr}, disc.Covers (Instr.introducedAll code) →
      Instr.followAll meet entry states code = .ok ends → ∀ state ∈ states,
        Instr.TidyAll disc (entry.map PathState.live) state.live code (StackOf ends)
  | [], _, h, state, hs => by
    cases h
    exact ⟨state, hs, rfl⟩
  | instr :: rest, hcov, h, state, hs => by
    obtain ⟨instrCov, restCov⟩ := Discipline.covers_append.mp hcov
    have hne : ¬states.isEmpty = true := by
      intro he
      rw [List.isEmpty_iff.mp he] at hs
      cases hs
    rw [Instr.followAll, if_neg hne] at h
    obtain ⟨mids, hmids, hrest⟩ := except_bind_eq_ok.mp h
    obtain ⟨some, hstep, hsub⟩ := mem_of_followEach hmids hs
    refine (Instr.tidy_of_follow hwatch hmeet instrCov hstep).mono ?_
    rintro live ⟨mid, hm, rfl⟩
    exact Instr.tidyAll_of_followAll hwatch hmeet restCov hrest mid (hmeet mids mid (hsub mid hm))

end

end Tidiness

end IsaBackend
