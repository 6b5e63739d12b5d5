import IsaBackend.Proofs.Lifetime.Acceptance

/-!
# States that meet

Equal states are followed once. What this leaves out is always a later copy of a state that is
followed, so it reaches nothing new and is never the first to fail. The check answers as if it
followed every state on its own, and reports the same breach.
-/

namespace IsaBackend

namespace PathState

variable {states others ends more : List PathState}

private theorem distinct_append_distinct (states others : List PathState) :
    distinct (states ++ distinct others) = distinct (states ++ others) := by
  induction others using List.reverseRecOn with
  | nil => rfl
  | append_singleton others last ih =>
    rw [distinct_concat, ← List.append_assoc, distinct_concat (states ++ others)]
    split
    · rename_i hkept
      have hmem : last ∈ others := mem_distinct.mp hkept
      rw [ih, if_pos (mem_distinct.mpr (List.mem_append_right states hmem))]
    · rw [← List.append_assoc, distinct_concat, ih]

private theorem distinct_distinct_append (states others : List PathState) :
    distinct (distinct states ++ others) = distinct (states ++ others) := by
  induction others using List.reverseRecOn with
  | nil => simpa using distinct_append_distinct [] states
  | append_singleton others last ih =>
    rw [← List.append_assoc, ← List.append_assoc, distinct_concat, distinct_concat, ih]

private theorem distinct_append_congr (h : distinct states = distinct others)
    (hends : distinct ends = distinct more) :
    distinct (states ++ ends) = distinct (others ++ more) :=
  calc distinct (states ++ ends)
    _ = distinct (distinct others ++ distinct more) := by
      rw [← h, ← hends, distinct_append_distinct, distinct_distinct_append]
    _ = distinct (others ++ more) := by rw [distinct_append_distinct, distinct_distinct_append]

private theorem distinct_append_of_subset (h : others ⊆ states) :
    distinct (states ++ others) = distinct states := by
  induction others using List.reverseRecOn with
  | nil => rw [List.append_nil]
  | append_singleton others last ih =>
    obtain ⟨hothers, hlast⟩ := List.append_subset.mp h
    have hmem : last ∈ states ++ others :=
      List.mem_append_left _ (hlast (List.mem_singleton_self _))
    rw [← List.append_assoc, distinct_concat, if_pos (mem_distinct.mpr hmem), ih hothers]

private theorem mem_iff_of_distinct_eq (h : distinct states = distinct others) {state : PathState} :
    state ∈ states ↔ state ∈ others := by
  rw [← mem_distinct, h, mem_distinct]

private theorem balanced_congr (entry : PathState) (h : distinct states = distinct others) :
    entry.balanced states = entry.balanced others := by
  simp only [balanced, List.all_eq_true, mem_iff_of_distinct_eq h]

end PathState

open PathState

/-- The same error, or states that are the same in the order in which they first occur. -/
inductive Agree : (result other : Except LifetimeError (List PathState)) → Prop where
  | error (cause : LifetimeError) : Agree (.error cause) (.error cause)
  | ok {states others : List PathState} (h : distinct states = distinct others) :
    Agree (.ok states) (.ok others)

namespace Agree

variable {first second third fourth : Except LifetimeError (List PathState)}

private theorem refl : ∀ result : Except LifetimeError (List PathState), Agree result result
  | .error cause => .error cause
  | .ok _ => .ok rfl

private theorem trans (h : Agree first second) (hnext : Agree second third) :
    Agree first third := by
  cases h with
  | error cause => exact hnext
  | ok h =>
    cases hnext with
    | ok hnext => exact .ok (h.trans hnext)

private theorem bind {next twin : List PathState → Except LifetimeError (List PathState)}
    (h : Agree first second) (hnext : ∀ states others, distinct states = distinct others →
      Agree (next states) (twin others)) : Agree (first >>= next) (second >>= twin) := by
  cases h with
  | error cause => exact .error cause
  | ok h => exact hnext _ _ h

private theorem verdict (h : Agree first second) : first.map (fun _ => ()) = second.map fun _ =>
    () := by
  cases h <;> rfl

private theorem join (h : Agree first second) (hnext : Agree third fourth) :
    Agree (do return (← first) ++ (← third)) (do return (← second) ++ (← fourth)) :=
  h.bind fun _ _ h => hnext.bind fun _ _ hnext => .ok (distinct_append_congr h hnext)

end Agree

section Each

variable {step other : PathState → Except LifetimeError (List PathState)}
  {states others : List PathState}

private theorem followEach_append (step : PathState → Except LifetimeError (List PathState))
    (states others : List PathState) : followEach step (states ++ others) =
      (do return (← followEach step states) ++ (← followEach step others)) := by
  induction states with
  | nil => cases hothers : followEach step others <;> simp [followEach, hothers]
  | cons state rest ih =>
    simp only [List.cons_append, followEach, ih, bind_assoc, pure_bind, List.append_assoc]

/-- A state that was followed before fails no more and reaches nothing new. -/
theorem followEach_distinct (step : PathState → Except LifetimeError (List PathState))
    (states : List PathState) :
    Agree (followEach step (distinct states)) (followEach step states) := by
  induction states using List.reverseRecOn with
  | nil => exact .ok rfl
  | append_singleton states last ih =>
    rw [distinct_concat, followEach_append step states]
    split
    · rename_i hkept
      cases hends : followEach step states with
      | error cause =>
        rw [hends] at ih
        exact ih
      | ok ends =>
        obtain ⟨reached, hreached, hsub⟩ := mem_of_followEach hends (mem_distinct.mp hkept)
        have hlast : followEach step [last] = .ok reached := by
          simp only [followEach, hreached, except_ok_bind, List.append_nil]
          rfl
        rw [hlast]
        rw [hends] at ih
        exact ih.trans (.ok (distinct_append_of_subset hsub).symm)
    · rw [followEach_append]
      exact ih.join (.refl _)

private theorem followEach_agree (hstep : ∀ state, Agree (step state) (other state)) :
    ∀ states, Agree (followEach step states) (followEach other states)
  | [] => .ok rfl
  | state :: rest => (hstep state).join (followEach_agree hstep rest)

end Each

mutual

theorem Instr.follow_agree (entry : Option PathState) (state : PathState) :
    ∀ instr : Instr, Agree (instr.follow distinct entry state) (instr.follow id entry state)
  | .branch test onTrue onFalse _ => by
    rw [Instr.follow, Instr.follow]
    cases state.read test with
    | error cause => exact .error cause
    | ok _ =>
      exact (Instr.followAll_agree entry [state] onTrue).join
        (Instr.followAll_agree entry [state] onFalse)
  | .loop body => by
    refine (Instr.followAll_agree (some state) [state] body).bind fun ends more h => ?_
    rw [balanced_congr state h]
    exact .refl _
  | .alloc _ _ => .refl _
  | .init _ _ _ => .refl _
  | .release _ _ => .refl _
  | .leave => .refl _
  | .ret _ => .refl _
  | .call _ _ _ => .refl _
  | .convert _ _ => .refl _
  | .assign _ _ => .refl _
  | .copy _ _ => .refl _
  | .decl _ _ => .refl _
  | .comment _ => .refl _

private theorem Instr.followAll_agree (entry : Option PathState) (states : List PathState) :
    ∀ code : List Instr, Agree (Instr.followAll distinct entry (distinct states) code)
      (Instr.followAll id entry states code)
  | [] => .ok (distinct_append_distinct [] states)
  | instr :: rest => by
    have hempty : (distinct states).isEmpty = states.isEmpty := by
      rw [Bool.eq_iff_iff]
      simp only [List.isEmpty_iff, List.eq_nil_iff_forall_not_mem, mem_distinct]
    rw [Instr.followAll, Instr.followAll, hempty]
    split
    · exact .ok (distinct_append_distinct [] states)
    · have heach := (followEach_distinct (instr.follow distinct entry) states).trans
        (followEach_agree (fun state => Instr.follow_agree entry state instr) states)
      refine heach.bind fun ends more h => ?_
      rw [h]
      exact Instr.followAll_agree entry more rest

end

/-- The check at the end of a path as a step that leads nowhere. -/
private def settledEnd (leak : String → LifetimeError) (state : PathState) :
    Except LifetimeError (List PathState) := do
  state.settled leak
  return []

private theorem forM_settled_eq_followEach (leak : String → LifetimeError) :
    ∀ states : List PathState, (states.forM fun state => state.settled leak) =
      (followEach (settledEnd leak) states).map fun _ => ()
  | [] => rfl
  | state :: rest => by
    change (state.settled leak >>= fun _ => rest.forM fun state => state.settled leak) = _
    rw [forM_settled_eq_followEach leak rest, followEach, settledEnd]
    cases state.settled leak with
    | error cause => rfl
    | ok _ => cases followEach (settledEnd leak) rest <;> rfl

private theorem forM_settled_congr (leak : String → LifetimeError) {states others : List PathState}
    (h : distinct states = distinct others) :
    (states.forM fun state => state.settled leak) =
      others.forM fun state => state.settled leak := by
  have hends := fun states => (followEach_distinct (settledEnd leak) states).verdict
  rw [forM_settled_eq_followEach, forM_settled_eq_followEach, ← hends states, h, hends others]

/-- Following equal states once changes neither the verdict of the check nor the breach that it
reports. -/
theorem Routine.merging_keeps_verdict (routine : Routine) :
    routine.checkLifetimes = routine.checkLifetimesWith id := by
  have hends := Instr.followAll_agree none [{}] routine.body
  unfold checkLifetimes checkLifetimesWith
  change Agree (Instr.followAll distinct none [{}] routine.body) _ at hends
  revert hends
  generalize Instr.followAll distinct none [{}] routine.body = result
  generalize Instr.followAll id none [{}] routine.body = other
  rintro (cause | h)
  · rfl
  · exact forM_settled_congr .leakAtEnd h

end IsaBackend
