import Mathlib.Algebra.Group.Nat.Defs
import IsaBackend.Proofs.Lifetime.Acceptance
import IsaBackend.Proofs.Names
import IsaBackend.Proofs.Renaming.Names
import IsaBackend.Proofs.Staging.State
import IsaBackend.Staging.Term
import Mathlib.Data.List.Nodup
import Mathlib.Data.List.Perm.Subperm

/-!
# How many paths the lifetime check follows

States that meet are followed once if they are equal, and they are equal if the same storage is live
and the same names are released. An instruction that no path leaves with other storage never adds a
state. The arms of a branch in which storage is allocated or released may do so, and then every
branch can double the states: a sequence of such branches has as many states as it has paths.
-/

namespace IsaBackend

namespace PathState

private theorem nodup_distinct (states : List PathState) : (distinct states).Nodup := by
  induction states using List.reverseRecOn with
  | nil => exact List.nodup_nil
  | append_singleton states last ih =>
    rw [distinct_concat]
    split
    · exact ih
    · exact List.nodup_append'.mpr ⟨ih, List.nodup_singleton last, List.disjoint_singleton.mpr ‹_›⟩

private theorem length_distinct_le {states others : List PathState} (h : states ⊆ others) :
    (distinct states).length ≤ others.length :=
  (List.Nodup.subperm (nodup_distinct states)
    fun _ hstate => h (mem_distinct.mp hstate)).length_le

private theorem distinct_eq_self {states : List PathState} (h : states.Nodup) :
    distinct states = states := by
  induction states using List.reverseRecOn with
  | nil => rfl
  | append_singleton states last ih =>
    obtain ⟨hstates, _, hnew⟩ := List.nodup_append'.mp h
    rw [distinct_concat, ih hstates, if_neg fun hmem => hnew hmem (List.mem_singleton_self last)]

end PathState

namespace Instr

mutual

/-- A path that falls through the instruction has the same storage as before. A loop is left in the
state in which it is entered. -/
def isSteady : Instr → Bool
  | alloc _ _ => false
  | init _ _ _ => false
  | release _ _ => false
  | branch _ onTrue onFalse _ => isSteadyAll onTrue && isSteadyAll onFalse
  | _ => true

def isSteadyAll : List Instr → Bool
  | [] => true
  | instr :: rest => instr.isSteady && isSteadyAll rest

end

mutual

/-- The number of branches, outside of loops, with an arm in which storage is allocated or
released. -/
def forks : Instr → Nat
  | branch _ onTrue onFalse _ =>
    if isSteadyAll onTrue && isSteadyAll onFalse then 0 else forksAll onTrue + forksAll onFalse + 1
  | _ => 0

def forksAll : List Instr → Nat
  | [] => 0
  | instr :: rest => instr.forks + forksAll rest

end

mutual

def size : Instr → Nat
  | branch _ onTrue onFalse _ => sizeAll onTrue + sizeAll onFalse + 1
  | loop body => sizeAll body + 1
  | _ => 1

def sizeAll : List Instr → Nat
  | [] => 0
  | instr :: rest => instr.size + sizeAll rest

end

private theorem forksAll_append (code rest : List Instr) :
    forksAll (code ++ rest) = forksAll code + forksAll rest := by
  induction code with
  | nil => exact (Nat.zero_add _).symm
  | cons instr code ih => rw [List.cons_append, forksAll, forksAll, ih, Nat.add_assoc]

private theorem sizeAll_append (code rest : List Instr) :
    sizeAll (code ++ rest) = sizeAll code + sizeAll rest := by
  induction code with
  | nil => exact (Nat.zero_add _).symm
  | cons instr code ih => rw [List.cons_append, sizeAll, sizeAll, ih, Nat.add_assoc]

section Bounds

variable {entry : Option PathState} {states ends : List PathState} {state : PathState}

private theorem mem_followEach {step : PathState → Except LifetimeError (List PathState)}
    (h : followEach step states = .ok ends) {last : PathState} (hlast : last ∈ ends) :
    ∃ state ∈ states, ∃ reached, step state = .ok reached ∧ last ∈ reached := by
  induction states generalizing ends with
  | nil =>
    cases h
    cases hlast
  | cons first rest ih =>
    obtain ⟨firstEnds, hfirst, hmore⟩ := except_bind_eq_ok.mp h
    obtain ⟨restEnds, hrest, hends⟩ := except_bind_eq_ok.mp hmore
    cases hends
    rcases List.mem_append.mp hlast with hlast | hlast
    · exact ⟨first, List.mem_cons_self, firstEnds, hfirst, hlast⟩
    · obtain ⟨state, hstate, hreached⟩ := ih hrest hlast
      exact ⟨state, List.mem_cons_of_mem _ hstate, hreached⟩

private theorem length_followEach_le {step : PathState → Except LifetimeError (List PathState)}
    {bound : Nat} (hstep : ∀ state reached, step state = .ok reached → reached.length ≤ bound)
    (h : followEach step states = .ok ends) : ends.length ≤ states.length * bound := by
  induction states generalizing ends with
  | nil =>
    cases h
    exact Nat.zero_le _
  | cons first rest ih =>
    obtain ⟨firstEnds, hfirst, hmore⟩ := except_bind_eq_ok.mp h
    obtain ⟨restEnds, hrest, hends⟩ := except_bind_eq_ok.mp hmore
    cases hends
    have hbound := hstep first firstEnds hfirst
    have hrestBound := ih hrest
    rw [List.length_append, List.length_cons, Nat.succ_mul]
    omega

private theorem followAll_cons_eq_ok {meet : Meeting} {instr : Instr} {code : List Instr}
    (h : followAll meet entry states (instr :: code) = .ok ends) :
    (states = [] ∧ ends = []) ∨ ∃ middle,
      followEach (fun state => instr.follow meet entry state) states = .ok middle ∧
        followAll meet entry (meet middle) code = .ok ends := by
  rw [followAll] at h
  split at h
  · rename_i hempty
    obtain rfl := List.isEmpty_iff.mp hempty
    cases h
    exact .inl ⟨rfl, rfl⟩
  · exact .inr (except_bind_eq_ok.mp h)

private theorem ends_of_store {value : Except LifetimeError Unit} {dest : Except LifetimeError Unit}
    (h : (do
      value
      dest
      return [state]) = Except.ok ends) : ends = [state] := by
  obtain ⟨_, _, h⟩ := except_bind_eq_ok.mp h
  obtain ⟨_, _, h⟩ := except_bind_eq_ok.mp h
  cases h
  rfl

mutual

/-- A steady instruction leads to the state that it starts from, or to none. -/
theorem follow_steady {meet : Meeting} (hmeet : ∀ states, meet states ⊆ states) :
    ∀ {instr : Instr} {entry : Option PathState} {state : PathState} {ends : List PathState},
      instr.isSteady = true → instr.follow meet entry state = .ok ends → ends ⊆ [state]
  | branch _ onTrue onFalse _, _, state, _, hsteady, h => by
    obtain ⟨htrue, hfalse⟩ := Bool.and_eq_true_iff.mp hsteady
    obtain ⟨_, _, h⟩ := except_bind_eq_ok.mp h
    obtain ⟨trueEnds, htrueEnds, h⟩ := except_bind_eq_ok.mp h
    obtain ⟨falseEnds, hfalseEnds, h⟩ := except_bind_eq_ok.mp h
    cases h
    exact List.append_subset.mpr ⟨followAll_steady hmeet htrue htrueEnds,
      followAll_steady hmeet hfalse hfalseEnds⟩
  | loop _, _, _, _, _, h => by
    obtain ⟨_, _, h⟩ := except_bind_eq_ok.mp h
    obtain ⟨_, _, h⟩ := except_bind_eq_ok.mp h
    cases h
    exact List.Subset.refl _
  | leave, entry, _, _, _, h => by
    unfold follow at h
    split at h
    · cases h
    · split at h
      · cases h
        exact List.nil_subset _
      · cases h
  | ret _, _, _, _, _, h => by
    obtain ⟨_, _, h⟩ := except_bind_eq_ok.mp h
    obtain ⟨_, _, h⟩ := except_bind_eq_ok.mp h
    cases h
    exact List.nil_subset _
  | call _ _ _, _, _, _, _, h => by rw [ends_of_store h]; exact List.Subset.refl _
  | convert _ _, _, _, _, _, h => by rw [ends_of_store h]; exact List.Subset.refl _
  | assign _ _, _, _, _, _, h => by rw [ends_of_store h]; exact List.Subset.refl _
  | copy _ _, _, _, _, _, h => by rw [ends_of_store h]; exact List.Subset.refl _
  | decl _ _, _, _, _, _, h => by
    cases h
    exact List.Subset.refl _
  | comment _, _, _, _, _, h => by
    cases h
    exact List.Subset.refl _

theorem followAll_steady {meet : Meeting} (hmeet : ∀ states, meet states ⊆ states) :
    ∀ {code : List Instr} {entry : Option PathState} {states ends : List PathState},
      isSteadyAll code = true → followAll meet entry states code = .ok ends → ends ⊆ states
  | [], _, _, _, _, h => by
    cases h
    exact List.Subset.refl _
  | instr :: code, entry, states, ends, hsteady, h => by
    obtain ⟨hinstr, hcode⟩ := Bool.and_eq_true_iff.mp hsteady
    rcases followAll_cons_eq_ok h with ⟨rfl, rfl⟩ | ⟨middle, hmiddle, hrest⟩
    · exact List.Subset.refl _
    · intro last hlast
      have hmem := hmeet _ (followAll_steady hmeet hcode hrest hlast)
      obtain ⟨state, hstate, reached, hreached, hmem⟩ := mem_followEach hmiddle hmem
      have heq := List.mem_singleton.mp (follow_steady hmeet hinstr hreached hmem)
      exact heq ▸ hstate

end

private theorem distinct_subset (states : List PathState) : PathState.distinct states ⊆ states :=
  fun _ => PathState.mem_distinct.mp

private theorem two_pow_add_le (first second : Nat) :
    2 ^ first + 2 ^ second ≤ 2 ^ (first + second + 1) := by
  have hfirst : 2 ^ first ≤ 2 ^ (first + second) := Nat.pow_le_pow_right Nat.two_pos (by omega)
  have hsecond : 2 ^ second ≤ 2 ^ (first + second) := Nat.pow_le_pow_right Nat.two_pos (by omega)
  rw [Nat.pow_succ]
  omega

mutual

/-- An instruction that is not steady leads from one state to as many as its forks allow. -/
theorem length_follow_le : ∀ {instr : Instr} {entry : Option PathState} {state : PathState}
    {ends : List PathState}, instr.isSteady = false →
      instr.follow PathState.distinct entry state = .ok ends → ends.length ≤ 2 ^ instr.forks
  | alloc _ _, _, _, _, _, h => by
    obtain ⟨_, _, h⟩ := except_bind_eq_ok.mp h
    cases h
    exact Nat.le_refl _
  | init _ _ _, _, _, _, _, h => by
    obtain ⟨_, _, h⟩ := except_bind_eq_ok.mp h
    obtain ⟨_, _, h⟩ := except_bind_eq_ok.mp h
    cases h
    exact Nat.le_refl _
  | release _ _, _, _, _, _, h => by
    obtain ⟨_, _, h⟩ := except_bind_eq_ok.mp h
    cases h
    exact Nat.le_refl _
  | branch _ onTrue onFalse _, _, _, _, hsteady, h => by
    obtain ⟨_, _, h⟩ := except_bind_eq_ok.mp h
    obtain ⟨trueEnds, htrueEnds, h⟩ := except_bind_eq_ok.mp h
    obtain ⟨falseEnds, hfalseEnds, h⟩ := except_bind_eq_ok.mp h
    cases h
    have htrue := length_followAll_le htrueEnds
    have hfalse := length_followAll_le hfalseEnds
    have hforks := two_pow_add_le (forksAll onTrue) (forksAll onFalse)
    change (isSteadyAll onTrue && isSteadyAll onFalse) = false at hsteady
    rw [forks, hsteady, List.length_append]
    simp only [List.length_singleton, Nat.one_mul, Bool.false_eq_true, if_false] at *
    omega

private theorem length_followAll_le : ∀ {code : List Instr} {entry : Option PathState}
    {states ends : List PathState}, followAll PathState.distinct entry states code = .ok ends →
      ends.length ≤ states.length * 2 ^ forksAll code
  | [], _, _, _, h => by
    cases h
    exact Nat.le_of_eq (Nat.mul_one _).symm
  | instr :: code, entry, states, ends, h => by
    rcases followAll_cons_eq_ok h with ⟨rfl, rfl⟩ | ⟨middle, hmiddle, hrest⟩
    · exact Nat.zero_le _
    · have hstep : (PathState.distinct middle).length ≤ states.length * 2 ^ instr.forks := by
        cases hsteady : instr.isSteady with
        | true =>
          have hsubset : middle ⊆ states := by
            intro last hlast
            obtain ⟨state, hstate, reached, hreached, hmem⟩ := mem_followEach hmiddle hlast
            have heq := List.mem_singleton.mp (follow_steady distinct_subset hsteady hreached hmem)
            exact heq ▸ hstate
          have hlength := PathState.length_distinct_le hsubset
          have hpos := Nat.le_mul_of_pos_right states.length (Nat.two_pow_pos instr.forks)
          omega
        | false =>
          have hlength := PathState.length_distinct_le (List.Subset.refl middle)
          have hmiddleLength := length_followEach_le (fun _ _ => length_follow_le hsteady) hmiddle
          omega
      calc ends.length
        _ ≤ (PathState.distinct middle).length * 2 ^ forksAll code := length_followAll_le hrest
        _ ≤ states.length * 2 ^ instr.forks * 2 ^ forksAll code := Nat.mul_le_mul_right _ hstep
        _ = states.length * 2 ^ forksAll (instr :: code) := by
          rw [Nat.mul_assoc, ← Nat.pow_add, forksAll]

end

end Bounds

end Instr

/-- A statement that takes one of two numbers. Only the first needs storage. -/
def Term.choice : Term :=
  .cond (.lit (.bool true) .bool) (.atom (.lit .undefined .int)) (.atom (.lit (.num 0) .int))
    (.range (.const 0) (.const 9))

open FreshNames (name)

/-- The arm of a choice that needs storage: it moves an unspecified number to a place. -/
def Instr.choiceArm (number : Nat) (dest : Place) : List Instr :=
  [.alloc .bigInt (name number), .alloc .bigInt (name (number + 1)),
    .copy (.name (name (number + 1)) .bigInt) (.name (name number) .bigInt),
    .convert dest (.name (name (number + 1)) .bigInt), .release .bigInt (name (number + 1)),
    .release .bigInt (name number)]

def Instr.choice (number : Nat) : List Instr :=
  let dest := Place.name (name number) .machInt
  [.decl .machInt (name number), .decl .bool (name (number + 1)),
    .assign (.name (name (number + 1)) .bool) (.inline (.bool true) .bool),
    .branch (.name (name (number + 1)) .bool) (Instr.choiceArm (number + 2) dest)
      [.assign dest (.inline (.int 0) .machInt)] .machInt]

namespace Staging

private theorem settle_two (first second : String) (state : StagingState) :
    settle [.release .bigInt first, .release .bigInt second]
      { state with live := (first, .bigInt) :: (second, .bigInt) :: state.live } = .ok () state := by
  have hstruck : [Instr.release .bigInt first, .release .bigInt second].foldl strike
      ((first, .bigInt) :: (second, .bigInt) :: state.live) = state.live := by
    simp [strike]
  change EStateM.Result.ok () { state with live := _ } = _
  rw [hstruck]

private theorem discard_choice (state : StagingState) : ∃ declared,
    discard .bare Term.choice.ty (fun want => stage .bare want Term.choice) state =
      .ok (Instr.choice state.names.next)
        { state with names := ⟨state.names.next + 4⟩, declared } := by
  let next := state.names.next
  let first : StagingState :=
    { state with names := ⟨next + 1⟩, declared := state.declared.insert (name next) }
  let second : StagingState :=
    { first with names := ⟨next + 2⟩, declared := first.declared.insert (name (next + 1)) }
  let last : StagingState :=
    { second with
      names := ⟨next + 4⟩
      declared := (second.declared.insert (name (next + 2))).insert (name (next + 3)) }
  have htrue : stage .bare (some (.machInt, "then branch")) (.atom (.lit .undefined .int)) second =
      .ok { setup := [.alloc .bigInt (name (next + 2)), .alloc .bigInt (name (next + 3)),
              .copy (.name (name (next + 3)) .bigInt) (.name (name (next + 2)) .bigInt)]
            rep := .machInt
            deliver := fun dest => .convert dest (.name (name (next + 3)) .bigInt)
            cleanup := [.release .bigInt (name (next + 3)), .release .bigInt (name (next + 2))] }
        { last with live := (name (next + 3), .bigInt) :: (name (next + 2), .bigInt) :: last.live } := rfl
  have hfalse : stage .bare (some (.machInt, "else branch")) (.atom (.lit (.num 0) .int)) last =
      .ok { Staged.ofLoaded { value := .inline (.int 0) .machInt } with rep := .machInt } last := rfl
  have hsettle := settle_two (name (next + 3)) (name (next + 2)) last
  have hcond : stage .bare (some (.machInt, "statement")) Term.choice first =
      .ok { setup := [.decl .bool (name (next + 1)),
              .assign (.name (name (next + 1)) .bool) (.inline (.bool true) .bool)]
            rep := .machInt
            deliver := fun dest => .branch (.name (name (next + 1)) .bool)
              (Instr.choiceArm (next + 2) dest) [.store dest (.inline (.int 0) .machInt)] .machInt
            cleanup := [] } last := by
    refine bind_eq_ok.mpr ⟨.machInt, first, rfl, bind_eq_ok.mpr ⟨_, first, rfl, ?_⟩⟩
    refine bind_eq_ok.mpr ⟨(name (next + 1), _), second, rfl, ?_⟩
    refine bind_eq_ok.mpr ⟨_, second, rfl, bind_eq_ok.mpr ⟨(), second, rfl, ?_⟩⟩
    refine bind_eq_ok.mpr ⟨_, _, htrue, bind_eq_ok.mpr ⟨(), last, hsettle, ?_⟩⟩
    exact bind_eq_ok.mpr ⟨_, last, hfalse, bind_eq_ok.mpr ⟨(), last, rfl, rfl⟩⟩
  refine ⟨last.declared, bind_eq_ok.mpr ⟨.machInt, state, rfl, ?_⟩⟩
  refine bind_eq_ok.mpr ⟨(name next, .decl .machInt (name next)), first, rfl, ?_⟩
  exact bind_eq_ok.mpr ⟨_, last, hcond, rfl⟩

end Staging

section Choices

/-- Nothing is live, and no name has been released that is generated from a number on. -/
structure PathState.Unchosen (number : Nat) (state : PathState) : Prop where
  live : state.live = []
  released : ∀ later, number ≤ later → state.released.contains (name later) = false

def PathState.chosen (number : Nat) (state : PathState) : PathState where
  live := []
  released := (state.released.insert (name (number + 1))).insert (name number)

variable {number : Nat} {state other : PathState} {states : List PathState}

private theorem PathState.Unchosen.chosen (h : state.Unchosen number) {later : Nat}
    (hnumber : number ≤ later) : (state.chosen later).Unchosen (later + 2) := by
  refine ⟨rfl, fun last hlast => ?_⟩
  have hfirst : name last ≠ name later := fun heq => by
    have := FreshNames.name_inj.mp heq
    omega
  have hsecond : name last ≠ name (later + 1) := fun heq => by
    have := FreshNames.name_inj.mp heq
    omega
  have hstate := h.released last (by omega)
  simp [PathState.chosen, hfirst, hsecond, hstate]

private theorem PathState.Unchosen.mono (h : state.Unchosen number) {later : Nat}
    (hle : number ≤ later) : state.Unchosen later :=
  ⟨h.live, fun last hlast => h.released last (Nat.le_trans hle hlast)⟩

private theorem PathState.Unchosen.chosen_ne (hother : other.Unchosen number) :
    state.chosen number ≠ other := by
  rintro rfl
  have hfresh := hother.released number (Nat.le_refl _)
  simp [PathState.chosen] at hfresh

private theorem PathState.Unchosen.chosen_inj (h : state.Unchosen number)
    (hother : other.Unchosen number)
    (heq : state.chosen number = other.chosen number) : state = other := by
  have hreleased : state.released = other.released := by
    refine NameSet.ext_contains fun key => ?_
    have hkey : (state.chosen number).released.contains key =
        (other.chosen number).released.contains key := by rw [heq]
    simp only [PathState.chosen, NameSet.contains_insert] at hkey
    by_cases hfirst : key = name number
    · rw [hfirst, h.released _ (Nat.le_refl _), hother.released _ (Nat.le_refl _)]
    · by_cases hsecond : key = name (number + 1)
      · rw [hsecond, h.released _ (Nat.le_succ _), hother.released _ (Nat.le_succ _)]
      · rw [beq_false_of_ne hfirst, beq_false_of_ne hsecond] at hkey
        simpa using hkey
  cases state
  cases other
  exact congrArg₂ PathState.mk (h.live.trans hother.live.symm) hreleased

/-- The states after a choice: each state goes on, in one of two ways. -/
def PathState.chooseAll (number : Nat) (states : List PathState) : List PathState :=
  states.flatMap fun state => [state.chosen (number + 2), state]

private theorem PathState.length_chooseAll (number : Nat) (states : List PathState) :
    (chooseAll number states).length = states.length * 2 := by
  simp [chooseAll, List.length_flatMap]

private theorem PathState.nodup_chooseAll (h : ∀ state ∈ states, state.Unchosen number)
    (hnodup : states.Nodup) : (chooseAll number states).Nodup := by
  have hlater : ∀ state ∈ states, state.Unchosen (number + 2) := fun state hstate =>
    (h state hstate).mono (Nat.le_add_right _ _)
  refine List.nodup_flatMap.mpr ⟨fun state hstate => ?_, ?_⟩
  · exact List.nodup_cons.mpr ⟨fun hmem => (hlater state hstate).chosen_ne
      (List.mem_singleton.mp hmem), List.nodup_singleton _⟩
  · refine List.Pairwise.imp_of_mem (fun {first second} hfirst hsecond hne => ?_) hnodup
    intro last hlast hother
    have hfirst := hlater first hfirst
    have hsecond := hlater second hsecond
    simp only [List.mem_cons, List.not_mem_nil, or_false] at hlast hother
    rcases hlast with rfl | rfl <;> rcases hother with heq | heq
    · exact hne (hfirst.chosen_inj hsecond heq)
    · exact hsecond.chosen_ne heq
    · exact hfirst.chosen_ne heq.symm
    · exact hne heq

private theorem PathState.unchosen_chooseAll (h : ∀ state ∈ states, state.Unchosen number) :
    ∀ state ∈ chooseAll number states, state.Unchosen (number + 4) := by
  intro last hlast
  obtain ⟨state, hstate, hmem⟩ := List.mem_flatMap.mp hlast
  simp only [List.mem_cons, List.not_mem_nil, or_false] at hmem
  rcases hmem with rfl | rfl
  · exact (h state hstate).chosen (Nat.le_add_right _ _)
  · exact (h last hstate).mono (Nat.le_add_right _ _)

namespace Instr

private theorem followAll_cons {entry : Option PathState} {instr : Instr} {rest : List Instr}
    (step : PathState → List PathState)
    (h : ∀ state ∈ states, instr.follow PathState.distinct entry state = .ok (step state))
    (hnodup : (states.flatMap step).Nodup) :
    followAll PathState.distinct entry states (instr :: rest) =
      followAll PathState.distinct entry (states.flatMap step) rest := by
  have heach : ∀ states : List PathState,
      (∀ state ∈ states, instr.follow PathState.distinct entry state = .ok (step state)) →
      followEach (fun state => instr.follow PathState.distinct entry state) states =
        .ok (states.flatMap step) := by
    intro states
    induction states with
    | nil => exact fun _ => rfl
    | cons first others ih =>
      intro h
      obtain ⟨hfirst, hothers⟩ := List.forall_mem_cons.mp h
      rw [followEach, hfirst, except_ok_bind, ih hothers]
      rfl
  rw [followAll]
  split
  · rename_i hempty
    obtain rfl := List.isEmpty_iff.mp hempty
    cases rest <;> rfl
  · rw [heach states h, except_ok_bind, PathState.distinct_eq_self hnodup]

private theorem followAll_one {entry : Option PathState} {instr : Instr} {rest : List Instr}
    {next : PathState} (h : instr.follow PathState.distinct entry state = .ok [next]) :
    followAll PathState.distinct entry [state] (instr :: rest) =
      followAll PathState.distinct entry [next] rest :=
  followAll_cons (fun _ => [next]) (List.forall_mem_singleton.mpr h) (List.nodup_singleton next)

private theorem followAll_choiceArm (h : state.Unchosen number) {dest : Place}
    (hdest : state.released.contains dest.root = false) :
    followAll PathState.distinct none [state] (choiceArm number dest) =
      .ok [state.chosen number] := by
  have hne : name (number + 1) ≠ name number := fun heq => by
    have := FreshNames.name_inj.mp heq
    omega
  obtain ⟨live, released⟩ := state
  obtain rfl : live = [] := h.live
  let kept := (released.erase (name number)).erase (name (number + 1))
  have hkept : ∀ {key : String}, released.contains key = false → kept.contains key = false := by
    intro key hkey
    simp [kept, hkey]
  have hfirst := hkept (h.released number (Nat.le_refl _))
  have hsecond := hkept (h.released (number + 1) (Nat.le_succ _))
  have hlast : (⟨[], (kept.insert (name (number + 1))).insert (name number)⟩ : PathState) =
      PathState.chosen number ⟨[], released⟩ := by
    refine congrArg (PathState.mk []) (NameSet.ext_contains fun key => ?_)
    simp only [kept, NameSet.contains_insert, NameSet.contains_erase]
    grind
  calc followAll PathState.distinct none [⟨[], released⟩] (choiceArm number dest)
    _ = followAll PathState.distinct none [⟨[name number], released.erase (name number)⟩] _ :=
      followAll_one rfl
    _ = followAll PathState.distinct none [⟨[name (number + 1), name number], kept⟩] _ :=
      followAll_one (by simp [follow, PathState.allocate, hne, kept])
    _ = followAll PathState.distinct none [⟨[name (number + 1), name number], kept⟩] _ :=
      followAll_one (by simp [follow, PathState.read, PathState.write, PathState.use, Place.root,
        hfirst, hsecond])
    _ = followAll PathState.distinct none [⟨[name (number + 1), name number], kept⟩] _ :=
      followAll_one (by simp [follow, PathState.read, PathState.write, PathState.use, hsecond,
        hkept hdest])
    _ = followAll PathState.distinct none [⟨[name number], kept.insert (name (number + 1))⟩] _ :=
      followAll_one (by simp [follow, PathState.release])
    _ = .ok [PathState.chosen number ⟨[], released⟩] :=
      followAll_one (by simp [follow, PathState.release, hlast])

private theorem followAll_choice (h : ∀ state ∈ states, state.Unchosen number)
    (hnodup : states.Nodup) (rest : List Instr) :
    followAll PathState.distinct none states (choice number ++ rest) =
      followAll PathState.distinct none (PathState.chooseAll number states) rest := by
  have hkept : states.flatMap (fun state => [state]) = states := by simp
  have hstay : ∀ {instr : Instr} {rest : List Instr},
      (∀ state ∈ states, instr.follow PathState.distinct none state = .ok [state]) →
      followAll PathState.distinct none states (instr :: rest) =
        followAll PathState.distinct none states rest := by
    intro instr rest hinstr
    rw [followAll_cons (fun state => [state]) hinstr (by rwa [hkept]), hkept]
  have hunused : ∀ state ∈ states, ∀ later, number ≤ later →
      state.released.contains (name later) = false := fun state hstate => (h state hstate).released
  have hassign : ∀ state ∈ states, (assign (.name (name (number + 1)) .bool)
      (.inline (.bool true) .bool)).follow PathState.distinct none state = .ok [state] := by
    intro state hstate
    have hflag := hunused state hstate (number + 1) (Nat.le_succ _)
    simp [follow, PathState.read, PathState.write, PathState.use, Inline.fitsMachineWord,
      Inline.root?, Place.root, hflag]
  have hbranch : ∀ state ∈ states, (branch (.name (name (number + 1)) .bool)
      (choiceArm (number + 2) (.name (name number) .machInt))
      [.assign (.name (name number) .machInt) (.inline (.int 0) .machInt)] .machInt).follow
        PathState.distinct none state = .ok [state.chosen (number + 2), state] := by
    intro state hstate
    have hflag := hunused state hstate (number + 1) (Nat.le_succ _)
    have hdest := hunused state hstate number (Nat.le_refl _)
    have harm : followAll PathState.distinct none [state]
        (choiceArm (number + 2) (.name (name number) .machInt)) =
          .ok [state.chosen (number + 2)] :=
      followAll_choiceArm ((h state hstate).mono (Nat.le_add_right number 2)) hdest
    have hother : followAll PathState.distinct none [state]
        [.assign (.name (name number) .machInt) (.inline (.int 0) .machInt)] = .ok [state] :=
      followAll_one (by simp [follow, PathState.read, PathState.write, PathState.use,
        Inline.fitsMachineWord, Inline.root?, Place.root, hdest, fitsWord])
    rw [follow, harm, hother]
    simp [PathState.read, PathState.use, hflag]
  calc followAll PathState.distinct none states (choice number ++ rest)
    _ = followAll PathState.distinct none states _ := hstay fun _ _ => rfl
    _ = followAll PathState.distinct none states _ := hstay fun _ _ => rfl
    _ = followAll PathState.distinct none states _ := hstay hassign
    _ = followAll PathState.distinct none (PathState.chooseAll number states) rest :=
      followAll_cons _ hbranch (PathState.nodup_chooseAll h hnodup)

def choices (number : Nat) : Nat → List Instr
  | 0 => []
  | count + 1 => choice number ++ choices (number + 4) count

/-- Every choice doubles the states, so that there are as many of them as ways to choose. -/
theorem followAll_choices (count : Nat) (h : ∀ state ∈ states, state.Unchosen number)
    (hnodup : states.Nodup) : ∃ ends,
      followAll PathState.distinct none states (choices number count) = .ok ends ∧
        ends.length = states.length * 2 ^ count := by
  induction count generalizing number states with
  | zero => exact ⟨states, rfl, (Nat.mul_one _).symm⟩
  | succ count ih =>
    obtain ⟨ends, hends, hlength⟩ :=
      ih (PathState.unchosen_chooseAll h) (PathState.nodup_chooseAll h hnodup)
    refine ⟨ends, (followAll_choice h hnodup _).trans hends, ?_⟩
    rw [hlength, PathState.length_chooseAll, Nat.mul_assoc, ← Nat.pow_succ']

private theorem forksAll_choices (number count : Nat) : forksAll
    (choices number count) = count := by
  induction count generalizing number with
  | zero => rfl
  | succ count ih =>
    have hone : forksAll (choice number) = 1 := rfl
    rw [choices, forksAll_append, hone, ih, Nat.add_comm]

private theorem sizeAll_choices (number count : Nat) : sizeAll
    (choices number count) = 11 * count := by
  induction count generalizing number with
  | zero => rfl
  | succ count ih =>
    have hone : sizeAll (choice number) = 11 := rfl
    rw [choices, sizeAll_append, hone, ih]
    omega

end Instr

end Choices

def Term.choices (count : Nat) : Term :=
  .block (List.replicate count .choice) (.atom (.lit .unit .unit)) .unit

namespace Staging

private theorem stageAll_choices (count : Nat) (state : StagingState) : ∃ declared,
    stageAll .bare (List.replicate count .choice) state =
      .ok (Instr.choices state.names.next count)
        { state with names := ⟨state.names.next + 4 * count⟩, declared } := by
  induction count generalizing state with
  | zero => exact ⟨state.declared, rfl⟩
  | succ count ih =>
    obtain ⟨declared, hfirst⟩ := discard_choice state
    obtain ⟨last, hrest⟩ := ih { state with names := ⟨state.names.next + 4⟩, declared }
    refine ⟨last, bind_eq_ok.mpr ⟨_, _, hfirst, bind_eq_ok.mpr ⟨_, _, hrest, ?_⟩⟩⟩
    have hnames : state.names.next + 4 + 4 * count = state.names.next + 4 * (count + 1) := by omega
    rw [← hnames]
    rfl

/-- A function can choose as often as it likes, in code that grows with the number of choices only,
and each of its ways to choose is a path of its own. -/
theorem choices_have_paths (count : Nat) : ∃ routine final code ends,
    stageFunction .bare "choose" [] .unit (.choices count) {} = .ok routine final ∧
      code <+: routine.body ∧ Instr.forksAll code = count ∧ Instr.sizeAll code = 11 * count + 1 ∧
      Instr.followAll PathState.distinct none [{}] code = .ok ends ∧ ends.length = 2 ^ count := by
  let start : StagingState :=
    { declared := [Routine.resultParam], result := some .unit }
  obtain ⟨declared, hall⟩ := stageAll_choices count start
  let last : StagingState :=
    { start with names := ⟨start.names.next + 4 * count⟩, declared }
  let slot := name last.names.next
  have hblock : stage .bare (some (.unit, "result of choose")) (.choices count) start =
      .ok { setup := Instr.choices 0 count ++ []
            rep := .unit
            deliver := fun dest => .store dest (.inline .unit .unit)
            cleanup := [] } last :=
    bind_eq_ok.mpr ⟨_, last, hall, rfl⟩
  have hunchosen : ∀ state ∈ [({} : PathState)], state.Unchosen 0 :=
    List.forall_mem_singleton.mpr ⟨rfl, fun _ _ => rfl⟩
  obtain ⟨ends, hends, hlength⟩ :=
    Instr.followAll_choices count hunchosen (List.nodup_singleton _)
  refine ⟨_, _, .decl .unit slot :: Instr.choices 0 count, ends,
    bind_eq_ok.mpr ⟨(), start, rfl, bind_eq_ok.mpr ⟨_, { last with result := none },
      ensuring_eq_ok.mpr ⟨last, hblock, rfl⟩, rfl⟩⟩, ?_, ?_, ?_, ?_, ?_⟩
  · refine ⟨[.assign (.name slot .unit) (.inline .unit .unit), .ret (.name slot .unit)], ?_⟩
    simp [Staged.into, Instr.store, Place.rep, Rep.isStack, slot]
  · exact (Nat.zero_add _).trans (Instr.forksAll_choices 0 count)
  · exact (congrArg (1 + ·) (Instr.sizeAll_choices 0 count)).trans (Nat.add_comm _ _)
  · exact (Instr.followAll_one rfl).trans hends
  · simpa using hlength

/-- On every prefix of a routine, the check follows at most as many states as the branches that
allocate or release storage can tell apart. It may need all of them: a function with any number of
such branches, in code that grows with their number only, has a state for each of its paths. -/
theorem paths_follow_forks (routine : Routine) (code : List Instr) (ends : List PathState)
    (count : Nat) :
    (code <+: routine.body → Instr.followAll PathState.distinct none [{}] code = .ok ends →
      ends.length ≤ 2 ^ Instr.forksAll code) ∧
    ∃ body routine final code ends,
      stageFunction .bare "choose" [] .unit body {} = .ok routine final ∧ code <+: routine.body ∧
      Instr.forksAll code = count ∧ Instr.sizeAll code = 11 * count + 1 ∧
      Instr.followAll PathState.distinct none [{}] code = .ok ends ∧ ends.length = 2 ^ count := by
  refine ⟨fun _ hends => ?_, _, choices_have_paths count⟩
  simpa using Instr.length_followAll_le hends

/-- Two choices: the four states are as many as the forks allow. -/
theorem twoChoices_follow_forks : ∃ routine final code ends,
    stageFunction .bare "choose" [] .unit (.choices 2) {} = .ok routine final ∧
      code <+: routine.body ∧ Instr.followAll PathState.distinct none [{}] code = .ok ends ∧
      ends.length = 4 ∧ ends.length ≤ 2 ^ Instr.forksAll code := by
  obtain ⟨routine, final, code, ends, hstage, hprefix, _, _, hends, hlength⟩ := choices_have_paths 2
  exact ⟨routine, final, code, ends, hstage, hprefix, hends, hlength,
    (paths_follow_forks routine code ends 2).1 hprefix hends⟩

/-- Seven choices have more states than instructions. -/
theorem sevenChoices_exceed_size : ∃ routine final code ends,
    stageFunction .bare "choose" [] .unit (.choices 7) {} = .ok routine final ∧
      code <+: routine.body ∧ Instr.followAll PathState.distinct none [{}] code = .ok ends ∧
      Instr.sizeAll code + 1 < ends.length := by
  obtain ⟨routine, final, code, ends, hstage, hprefix, _, hsize, hends, hlength⟩ :=
    choices_have_paths 7
  refine ⟨routine, final, code, ends, hstage, hprefix, hends, ?_⟩
  rw [hsize, hlength]
  decide

end Staging

end IsaBackend
