import IsaBackend.Proofs.Names
import IsaBackend.Term.Scope

/-!
# Nested scopes

One table with a log of hidden bindings answers like a stack of tables, one for each open scope. A
nested scope that is left again gives back every binding that was there before, whatever was declared
and left in between; the table may list the bindings in another order.
-/

namespace IsaBackend

namespace Scope

/-- What is declared or hidden was declared or hidden at the depth of the scope at most. -/
structure Valid (scope : Scope) : Prop where
  distinct : scope.bindings.Unique
  bindings : ∀ entry ∈ scope.bindings.entries, entry.2.depth ≤ scope.depth
  hidden : ∀ entry ∈ scope.hidden, entry.depth ≤ scope.depth

structure Same (scope other : Scope) : Prop where
  depth : other.depth = scope.depth
  hidden : other.hidden = scope.hidden
  get? : ∀ name, other.get? name = scope.get? name

/-- A valid scope with the same bindings, up to their order. -/
structure Like (scope other : Scope) : Prop extends scope.Same other where
  valid : other.Valid

variable {scope middle other : Scope} {name : String} {ty : Ty} {mutable : Bool}

theorem Valid.like (h : scope.Valid) : scope.Like scope := ⟨⟨rfl, rfl, fun _ => rfl⟩, h⟩

private theorem Same.trans {last : Scope} (h : scope.Same middle) (hnext : middle.Same last) :
    scope.Same last :=
  ⟨hnext.depth.trans h.depth, hnext.hidden.trans h.hidden,
    fun name => (hnext.get? name).trans (h.get? name)⟩

theorem Like.trans {last : Scope} (h : scope.Like middle) (hnext : middle.Like last) :
    scope.Like last :=
  ⟨h.toSame.trans hnext.toSame, hnext.valid⟩

private theorem Same.like (hsame : scope.Same other) (h : scope.Valid)
    (hunique : other.bindings.Unique) : scope.Like other := by
  refine ⟨hsame, hunique, fun entry hentry => ?_, fun entry hentry => ?_⟩
  · have hget : scope.get? entry.1 = some entry.2 :=
      (hsame.get? entry.1).symm.trans (hunique.get?_of_mem hentry)
    exact hsame.depth ▸ h.bindings entry (NameTable.mem_of_get? hget)
  · exact hsame.depth ▸ h.hidden entry (hsame.hidden ▸ hentry)

theorem valid_empty : ({} : Scope).Valid :=
  ⟨NameTable.unique_empty, fun _ hn => absurd hn List.not_mem_nil,
    fun _ hn => absurd hn List.not_mem_nil⟩

theorem get?_declare (scope : Scope) (name : String) (ty : Ty) (mutable : Bool) (key : String) :
    (scope.declare name ty mutable).get? key =
      if key = name then some ⟨ty, mutable, scope.depth⟩ else scope.get? key :=
  NameTable.get?_set _ _ _ _

theorem get?_enter (scope : Scope) (key : String) : scope.enter.get? key = scope.get? key := rfl

theorem Valid.declare (h : scope.Valid) (name : String) (ty : Ty) (mutable : Bool) :
    (scope.declare name ty mutable).Valid where
  distinct := h.distinct.set _ _
  bindings := by
    intro entry he
    rcases NameTable.mem_setEntry he with rfl | he
    · exact Nat.le_refl _
    · exact h.bindings entry he
  hidden := by
    intro entry he
    simp only [Scope.declare] at he
    split at he
    · rcases List.mem_cons.mp he with rfl | he
      · exact Nat.le_refl _
      · exact h.hidden entry he
    · exact h.hidden entry he

theorem Valid.enter (h : scope.Valid) : scope.enter.Valid :=
  ⟨h.distinct, fun entry he => Nat.le_succ_of_le (h.bindings entry he),
    fun entry he => Nat.le_succ_of_le (h.hidden entry he)⟩

/-! ## Leaving a scope -/

section Restore

variable {depth : Nat} {bindings twin : NameTable Binding}

private theorem restore_snd (hidden : List Hidden) :
    (restore depth bindings hidden).2 = hidden.dropWhile fun entry => entry.depth = depth := by
  induction hidden generalizing bindings with
  | nil => rfl
  | cons entry rest ih =>
    by_cases h : entry.depth = depth
    · simp [restore, h, ih]
    · simp [restore, h]

private theorem restore_unique (h : bindings.Unique) (hidden : List Hidden) :
    (restore depth bindings hidden).1.Unique := by
  induction hidden generalizing bindings with
  | nil => exact h
  | cons entry rest ih =>
    simp only [restore]
    split
    · apply ih
      split
      · exact h.set _ _
      · exact h
    · exact h

private theorem get?_restore (h : ∀ name, twin.get? name = bindings.get? name)
    (hidden : List Hidden) (name : String) :
    (restore depth twin hidden).1.get? name = (restore depth bindings hidden).1.get? name := by
  induction hidden generalizing bindings twin with
  | nil => exact h name
  | cons entry rest ih =>
    simp only [restore]
    split
    · apply ih
      intro key
      split
      · rw [NameTable.get?_set, NameTable.get?_set, h]
      · exact h key
    · exact h name

private theorem restore_of_shallow {hidden : List Hidden}
    (h : ∀ entry ∈ hidden, entry.depth ≤ depth) :
    restore (depth + 1) bindings hidden = (bindings, hidden) := by
  cases hidden with
  | nil => rfl
  | cons entry rest =>
    have hne : entry.depth ≠ depth + 1 := by
      have := h entry List.mem_cons_self
      omega
    rw [restore, if_neg hne]

end Restore

/-- What is left of the bindings before the hidden ones are taken back. -/
def kept (scope : Scope) : NameTable Binding :=
  scope.bindings.filter fun binding => binding.depth < scope.depth

private theorem leave_eq (scope : Scope) :
    scope.leave = ⟨(restore scope.depth scope.kept scope.hidden).1, scope.depth - 1,
      (restore scope.depth scope.kept scope.hidden).2⟩ := rfl

private theorem leave_unique (h : scope.bindings.Unique) : scope.leave.bindings.Unique :=
  restore_unique (h.filter _) scope.hidden

private theorem get?_kept (h : scope.bindings.Unique) (name : String) :
    scope.kept.get? name = (scope.get? name).filter fun binding => binding.depth < scope.depth :=
  h.get?_filter _ name

private theorem Same.leave (hsame : scope.Same other) (h : scope.bindings.Unique)
    (hother : other.bindings.Unique) : scope.leave.Same other.leave := by
  have hkept : ∀ name, other.kept.get? name = scope.kept.get? name := by
    intro name
    rw [get?_kept h, get?_kept hother, hsame.get?, hsame.depth]
  simp only [leave_eq, hsame.depth, hsame.hidden]
  exact ⟨rfl, by rw [restore_snd, restore_snd], get?_restore hkept scope.hidden⟩

private theorem Valid.leave_enter (h : scope.Valid) : scope.Same scope.enter.leave := by
  have hkept : ∀ name, scope.enter.kept.get? name = scope.get? name := by
    intro name
    rw [get?_kept h.enter.distinct, get?_enter]
    cases hfound : scope.get? name with
    | none => rfl
    | some binding =>
      have hle : binding.depth ≤ scope.depth := h.bindings _ (NameTable.mem_of_get? hfound)
      exact Option.filter_some_pos (decide_eq_true (Nat.lt_succ_of_le hle))
  have hrestore : restore scope.enter.depth scope.enter.kept scope.enter.hidden = _ :=
    restore_of_shallow h.hidden
  rw [leave_eq, hrestore]
  exact ⟨rfl, rfl, hkept⟩

private theorem Valid.leave_declare (h : scope.Valid) (name : String) (ty : Ty) (mutable : Bool) :
    scope.leave.Same (scope.declare name ty mutable).leave := by
  have hdepth : (scope.declare name ty mutable).depth = scope.depth := rfl
  -- the new binding goes; so does the one it hides, unless it comes from further out
  have hkept : ∀ key, (scope.declare name ty mutable).kept.get? key =
      if key = name then none else scope.kept.get? key := by
    intro key
    rw [get?_kept (h.declare name ty mutable).distinct, get?_kept h.distinct, get?_declare, hdepth]
    by_cases hkey : key = name
    · simp [hkey, Option.filter]
    · simp [hkey]
  have hold := get?_kept h.distinct name
  simp only [leave_eq, hdepth]
  cases hfound : scope.get? name with
  | none =>
    have hhidden : (scope.declare name ty mutable).hidden = scope.hidden := by
      unfold get? at hfound
      unfold Scope.declare
      rw [hfound]
    rw [hhidden]
    refine ⟨rfl, by rw [restore_snd, restore_snd], get?_restore (fun key => ?_) scope.hidden⟩
    rw [hkept]
    split
    · rename_i hkey
      rw [hkey, hold, hfound]
      rfl
    · rfl
  | some old =>
    have hhidden : (scope.declare name ty mutable).hidden =
        ⟨scope.depth, name, old⟩ :: scope.hidden := by
      unfold get? at hfound
      unfold Scope.declare
      rw [hfound]
    rw [hhidden]
    simp only [restore, if_true]
    refine ⟨rfl, by rw [restore_snd, restore_snd], get?_restore (fun key => ?_) scope.hidden⟩
    by_cases hkey : key = name
    · by_cases hdeep : old.depth < scope.depth
      · simp [hkey, hold, hfound, hdeep, Option.filter]
      · simp [hkey, hold, hfound, hdeep, hkept, Option.filter]
    · split <;> simp [hkey, hkept]

/-- Leaving the scope of a name gives back what was there before. -/
theorem Like.leave (hlike : (scope.enter.declare name ty mutable).Like middle) (h : scope.Valid) :
    scope.Like middle.leave := by
  have hleft := hlike.toSame.leave (h.enter.declare name ty mutable).distinct hlike.valid.distinct
  have hsame := h.leave_enter.trans ((h.enter.leave_declare name ty mutable).trans hleft)
  exact hsame.like h (leave_unique hlike.valid.distinct)

/-! ## Scopes as stacks of tables -/

end Scope

/-- An operation on scopes. -/
inductive ScopeStep where
  | enter
  | leave
  | declare (name : String) (ty : Ty) (mutable : Bool)

/-- One table for each open scope, the innermost first, and one for the function itself. -/
structure ScopeStack where
  nested : List (NameTable (Ty × Bool)) := []
  base : NameTable (Ty × Bool) := ∅

namespace ScopeStack

def depth (stack : ScopeStack) : Nat := stack.nested.length

/-- The declaration in the innermost table that has one, with the depth of that table. -/
def find? (base : NameTable (Ty × Bool)) (name : String) :
    List (NameTable (Ty × Bool)) → Option Binding
  | [] => (base.get? name).map fun (ty, mutable) => ⟨ty, mutable, 0⟩
  | table :: nested =>
    match table.get? name with
    | some (ty, mutable) => some ⟨ty, mutable, nested.length + 1⟩
    | none => find? base name nested

def get? (stack : ScopeStack) (name : String) : Option Binding :=
  find? stack.base name stack.nested

/-- A declaration goes to the innermost table. Without a nested scope, leaving empties the table of
the function. -/
def step (stack : ScopeStack) : ScopeStep → ScopeStack
  | .enter => { stack with nested := ∅ :: stack.nested }
  | .leave =>
    match stack.nested with
    | _ :: nested => { stack with nested }
    | [] => {}
  | .declare name ty mutable =>
    match stack.nested with
    | table :: nested => { stack with nested := table.set name (ty, mutable) :: nested }
    | [] => { stack with base := stack.base.set name (ty, mutable) }

def after (steps : List ScopeStep) : ScopeStack := steps.foldl step {}

end ScopeStack

namespace Scope

def step (scope : Scope) : ScopeStep → Scope
  | .enter => scope.enter
  | .leave => scope.leave
  | .declare name ty mutable => scope.declare name ty mutable

def after (steps : List ScopeStep) : Scope := steps.foldl step {}

/-- A valid scope whose log goes from the inside out. -/
structure Ordered (scope : Scope) : Prop extends scope.Valid where
  sorted : scope.hidden.Pairwise fun entry outer => outer.depth ≤ entry.depth

variable {scope other : Scope}

private theorem ordered_empty : ({} : Scope).Ordered := ⟨valid_empty, List.Pairwise.nil⟩

private theorem restore_below {depth : Nat} {bindings : NameTable Binding}
    (h : ∀ entry ∈ bindings.entries, entry.2.depth < depth) (hidden : List Hidden) :
    ∀ entry ∈ (restore depth bindings hidden).1.entries, entry.2.depth < depth := by
  induction hidden generalizing bindings with
  | nil => exact h
  | cons hid rest ih =>
    simp only [restore]
    split
    · apply ih
      split
      · intro entry hentry
        rcases NameTable.mem_setEntry hentry with rfl | hentry
        · assumption
        · exact h entry hentry
      · exact h
    · exact h

/-- The log is sorted, so what stays in it was hidden further out. -/
private theorem dropWhile_below {depth : Nat} {hidden : List Hidden}
    (hle : ∀ entry ∈ hidden, entry.depth ≤ depth)
    (hsorted : hidden.Pairwise fun entry outer => outer.depth ≤ entry.depth) :
    ∀ entry ∈ hidden.dropWhile fun entry => entry.depth = depth, entry.depth < depth := by
  induction hidden with
  | nil => simp
  | cons first rest ih =>
    obtain ⟨hfirst, hrest⟩ := List.forall_mem_cons.mp hle
    obtain ⟨houter, hsorted⟩ := List.pairwise_cons.mp hsorted
    by_cases h : first.depth = depth
    · simpa [h] using ih hrest hsorted
    · simp only [List.dropWhile_cons, h, decide_false, Bool.false_eq_true, if_false]
      intro entry hentry
      rcases List.mem_cons.mp hentry with rfl | hentry
      · omega
      · have := houter entry hentry
        omega

private theorem Ordered.leave (h : scope.Ordered) : scope.leave.Ordered := by
  have hbelow : ∀ entry ∈ scope.leave.bindings.entries, entry.2.depth < scope.depth :=
    restore_below (fun entry hentry => of_decide_eq_true (List.mem_filter.mp hentry).2) scope.hidden
  have hhidden : scope.leave.hidden = scope.hidden.dropWhile fun entry => entry.depth = scope.depth :=
    restore_snd scope.hidden
  refine ⟨⟨leave_unique h.distinct, fun entry hentry => ?_, fun entry hentry => ?_⟩, ?_⟩
  · exact Nat.le_sub_one_of_lt (hbelow entry hentry)
  · rw [hhidden] at hentry
    exact Nat.le_sub_one_of_lt (dropWhile_below h.hidden h.sorted entry hentry)
  · rw [hhidden]
    exact h.sorted.sublist (List.dropWhile_suffix _).sublist

private theorem Ordered.declare (h : scope.Ordered) (name : String) (ty : Ty) (mutable : Bool) :
    (scope.declare name ty mutable).Ordered := by
  refine ⟨h.toValid.declare name ty mutable, ?_⟩
  simp only [Scope.declare]
  split
  · exact List.pairwise_cons.mpr ⟨h.hidden, h.sorted⟩
  · exact h.sorted

private theorem Ordered.step (h : scope.Ordered) (step : ScopeStep) :
    (scope.step step).Ordered := by
  cases step with
  | enter => exact ⟨h.toValid.enter, h.sorted⟩
  | leave => exact h.leave
  | declare name ty mutable => exact h.declare name ty mutable

/-- A scope answers like a stack. -/
def Answers (scope : Scope) (stack : ScopeStack) : Prop :=
  scope.depth = stack.depth ∧ ∀ name, scope.get? name = stack.get? name

/-- A scope answers like a stack, and goes on doing so as its nested scopes are left one by one. -/
def Refines (scope : Scope) (base : NameTable (Ty × Bool)) :
    List (NameTable (Ty × Bool)) → Prop
  | [] => scope.Answers ⟨[], base⟩
  | table :: nested => scope.Answers ⟨table :: nested, base⟩ ∧ scope.leave.Refines base nested

private theorem Refines.answers {base : NameTable (Ty × Bool)}
    {nested : List (NameTable (Ty × Bool))}
    (h : scope.Refines base nested) : scope.Answers ⟨nested, base⟩ := by
  cases nested with
  | nil => exact h
  | cons table nested => exact h.1

private theorem Refines.of_same {base : NameTable (Ty × Bool)}
    {nested : List (NameTable (Ty × Bool))}
    (h : scope.Refines base nested) (hsame : scope.Same other) (hunique : scope.bindings.Unique)
    (hother : other.bindings.Unique) : other.Refines base nested := by
  have hanswers : other.Answers ⟨nested, base⟩ :=
    ⟨hsame.depth.trans h.answers.1, fun name => (hsame.get? name).trans (h.answers.2 name)⟩
  induction nested generalizing scope other with
  | nil => exact hanswers
  | cons table nested ih =>
    have hleave := hsame.leave hunique hother
    refine ⟨hanswers, ih h.2 hleave (leave_unique hunique) (leave_unique hother) ?_⟩
    exact ⟨hleave.depth.trans h.2.answers.1,
      fun name => (hleave.get? name).trans (h.2.answers.2 name)⟩

/-- At depth zero nothing can come back from the log. -/
theorem get?_leave_of_depth_zero (h : scope.bindings.Unique) (hdepth : scope.depth = 0)
    (name : String) : scope.leave.get? name = none := by
  have hkept : scope.kept.get? name = none := by
    rw [get?_kept h, hdepth]
    cases scope.get? name <;> simp [Option.filter]
  have hrestore : ∀ (bindings : NameTable Binding) (hidden : List Hidden),
      (restore 0 bindings hidden).1 = bindings := by
    intro bindings hidden
    induction hidden with
    | nil => rfl
    | cons entry rest ih =>
      simp only [restore, Nat.not_lt_zero, if_false]
      split
      · exact ih
      · rfl
  rw [leave_eq, hdepth]
  exact (congrArg (NameTable.get? · name) (hrestore _ _)).trans hkept

private theorem Refines.step {stack : ScopeStack} (h : scope.Refines stack.base stack.nested)
    (hordered : scope.Ordered) (step : ScopeStep) :
    (scope.step step).Refines (stack.step step).base (stack.step step).nested := by
  obtain ⟨nested, base⟩ := stack
  cases step with
  | enter =>
    refine ⟨⟨congrArg (· + 1) h.answers.1, h.answers.2⟩, ?_⟩
    exact h.of_same hordered.leave_enter hordered.distinct (leave_unique hordered.distinct)
  | leave =>
    cases nested with
    | nil =>
      have hdepth : scope.depth = 0 := h.1
      refine ⟨?_, get?_leave_of_depth_zero hordered.distinct hdepth⟩
      change scope.depth - 1 = 0
      omega
    | cons table nested => exact h.2
  | declare name ty mutable =>
    have hdeclared := (hordered.declare name ty mutable).distinct
    have hdepth : scope.depth = nested.length := h.answers.1
    have hget : ∀ key, (scope.declare name ty mutable).get? key =
        if key = name then some ⟨ty, mutable, nested.length⟩ else ScopeStack.get? ⟨nested, base⟩ key := by
      intro key
      rw [get?_declare, hdepth, h.answers.2]
    cases nested with
    | nil =>
      refine ⟨hdepth, fun key => (hget key).trans ?_⟩
      simp only [ScopeStack.get?, ScopeStack.find?, ScopeStack.step, NameTable.get?_set]
      split <;> rfl
    | cons table nested =>
      refine ⟨⟨hdepth, fun key => (hget key).trans ?_⟩, ?_⟩
      · simp only [ScopeStack.get?, ScopeStack.find?, NameTable.get?_set, List.length_cons]
        split <;> rfl
      · exact h.2.of_same (hordered.leave_declare name ty mutable) (leave_unique hordered.distinct)
          (leave_unique hdeclared)

theorem ordered_after (steps : List ScopeStep) : (after steps).Ordered := by
  have hfold : ∀ (steps : List ScopeStep) (scope : Scope), scope.Ordered →
      (steps.foldl step scope).Ordered := by
    intro steps
    induction steps with
    | nil => exact fun _ h => h
    | cons first rest ih => exact fun scope h => ih _ (h.step first)
  exact hfold steps {} ordered_empty

end Scope

end IsaBackend
