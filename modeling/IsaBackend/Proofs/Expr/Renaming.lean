import IsaBackend.Proofs.Renaming.Terms
import IsaBackend.Proofs.Term.Flattening
import IsaBackend.Proofs.Term.LinkedExprs

/-!
# Renaming the free occurrences of a name

Occurrences of a name are renamed where no binder of the name is in between. The result is alike the
expression in the scope of a link from the old name to the new one, if the new name does not occur.
-/

namespace IsaBackend

/-- The name that takes the place of a name when another one is renamed. -/
def swapName (old new name : String) : String := if name = old then new else name

def Target.mapRoot {ε : Type} (change : String → String) : Target ε → Target ε
  | name key => name (change key)
  | element vector index => element (change vector) index
  | slice vector hi lo => slice (change vector) hi lo
  | append vector tail => append (change vector) tail

namespace Expr

mutual

/-- Rename the free occurrences of a name. -/
def renameFree (old new : String) : Expr → Expr
  | lit note value => lit note value
  | name note key => name note (swapName old new key)
  | refTo note key => refTo note (swapName old new key)
  | block note items => block note (renameFreeAll old new items)
  | cond note test onTrue onFalse =>
    cond note (test.renameFree old new) (onTrue.renameFree old new) (onFalse.renameFree old new)
  | loop note kind test body => loop note kind (test.renameFree old new) (body.renameFree old new)
  | count note index first last step direction body =>
    count note index (first.renameFree old new) (last.renameFree old new) (step.renameFree old new)
      direction (if index = old then body else body.renameFree old new)
  | call note callee args => call note callee (renameFreeAll old new args)
  | tuple note items => tuple note (renameFreeAll old new items)
  | list note items => list note (renameFreeAll old new items)
  | vector note items => vector note (renameFreeAll old new items)
  | field note record key => field note (record.renameFree old new) key
  | update note record fields =>
    update note (record.renameFree old new) (renameFreeFields old new fields)
  | assign note target value =>
    assign note ((renameFreeParts old new target).mapRoot (swapName old new))
      (value.renameFree old new)
  | bind note pattern init body =>
    bind note pattern (init.renameFree old new)
      (if old ∈ pattern.names then body else body.renameFree old new)
  | var note target init body =>
    var note (renameFreeParts old new target) (init.renameFree old new)
      (if target.root = old then body else body.renameFree old new)
  | cast note ty inner => cast note ty (inner.renameFree old new)
  | throw note value => throw note (value.renameFree old new)
  | exit note value => exit note (value.renameFree old new)
  | ret note value => ret note (value.renameFree old new)
  | assert note test text => assert note (test.renameFree old new) (text.renameFree old new)
  | cons note head tail => cons note (head.renameFree old new) (tail.renameFree old new)
  | eliminated note form parts => eliminated note form (renameFreeAll old new parts)

def renameFreeAll (old new : String) : List Expr → List Expr
  | [] => []
  | expr :: rest => expr.renameFree old new :: renameFreeAll old new rest

def renameFreeFields (old new : String) : List (String × Expr) → List (String × Expr)
  | [] => []
  | (key, expr) :: rest => (key, expr.renameFree old new) :: renameFreeFields old new rest

def renameFreeParts (old new : String) : Target Expr → Target Expr
  | .name key => .name key
  | .element root index => .element root (index.renameFree old new)
  | .slice root hi lo => .slice root (hi.renameFree old new) (lo.renameFree old new)
  | .append root tail => .append root (tail.renameFree old new)

end

private theorem swapName_self (old name : String) : swapName old old name = name := by
  unfold swapName
  split
  · rename_i heq
    exact heq.symm
  · rfl

mutual

private theorem renameFree_self (old : String) : ∀ expr : Expr, expr.renameFree old old = expr
  | lit _ _ => rfl
  | name _ _ => by rw [renameFree, swapName_self]
  | refTo _ _ => by rw [renameFree, swapName_self]
  | block _ items => by rw [renameFree, renameFreeAll_self]
  | cond _ test onTrue onFalse => by
    rw [renameFree, renameFree_self, renameFree_self, renameFree_self]
  | loop _ _ test body => by rw [renameFree, renameFree_self, renameFree_self]
  | count _ _ first last step _ body => by
    rw [renameFree, renameFree_self, renameFree_self, renameFree_self, renameFree_self, ite_self]
  | call _ _ args => by rw [renameFree, renameFreeAll_self]
  | tuple _ items => by rw [renameFree, renameFreeAll_self]
  | list _ items => by rw [renameFree, renameFreeAll_self]
  | vector _ items => by rw [renameFree, renameFreeAll_self]
  | field _ record _ => by rw [renameFree, renameFree_self]
  | update _ record fields => by rw [renameFree, renameFree_self, renameFreeFields_self]
  | assign _ target value => by
    rw [renameFree, renameFree_self, renameFreeParts_self]
    cases target <;> simp only [Target.mapRoot, swapName_self]
  | bind _ _ init body => by rw [renameFree, renameFree_self, renameFree_self, ite_self]
  | var _ target init body => by
    rw [renameFree, renameFree_self, renameFree_self, renameFreeParts_self, ite_self]
  | cast _ _ inner => by rw [renameFree, renameFree_self]
  | throw _ value => by rw [renameFree, renameFree_self]
  | exit _ value => by rw [renameFree, renameFree_self]
  | ret _ value => by rw [renameFree, renameFree_self]
  | assert _ test text => by rw [renameFree, renameFree_self, renameFree_self]
  | cons _ head tail => by rw [renameFree, renameFree_self, renameFree_self]
  | eliminated _ _ parts => by rw [renameFree, renameFreeAll_self]

private theorem renameFreeAll_self (old : String) : ∀ exprs, renameFreeAll old old exprs = exprs
  | [] => rfl
  | expr :: rest => by rw [renameFreeAll, renameFree_self, renameFreeAll_self]

theorem renameFreeFields_self (old : String) : ∀ fields, renameFreeFields old old fields = fields
  | [] => rfl
  | (_, expr) :: rest => by rw [renameFreeFields, renameFree_self, renameFreeFields_self]

theorem renameFreeParts_self (old : String) : ∀ target, renameFreeParts old old target = target
  | .name _ => rfl
  | .element _ index => by rw [renameFreeParts, renameFree_self]
  | .slice _ hi lo => by rw [renameFreeParts, renameFree_self, renameFree_self]
  | .append _ tail => by rw [renameFreeParts, renameFree_self]

end

private theorem root_renameFreeParts (old new : String) (target : Target Expr) :
    (renameFreeParts old new target).root = target.root := by
  cases target <;> rfl

mutual

theorem bound_renameFree (old new : String) :
    ∀ expr : Expr, (expr.renameFree old new).bound = expr.bound
  | lit _ _ => rfl
  | name _ _ => rfl
  | refTo _ _ => rfl
  | block _ items => bound_renameFreeAll old new items
  | cond _ test onTrue onFalse => by
    simp only [renameFree, bound, bound_renameFree]
  | loop _ _ test body => by simp only [renameFree, bound, bound_renameFree]
  | count _ _ first last step _ body => by
    simp only [renameFree, bound, bound_renameFree, apply_ite bound, ite_self]
  | call _ _ args => bound_renameFreeAll old new args
  | tuple _ items => bound_renameFreeAll old new items
  | list _ items => bound_renameFreeAll old new items
  | vector _ items => bound_renameFreeAll old new items
  | field _ record _ => bound_renameFree old new record
  | update _ record fields => by
    simp only [renameFree, bound, bound_renameFree, bound_renameFreeFields]
  | assign _ target value => by
    have hparts : boundParts ((renameFreeParts old new target).mapRoot (swapName old new)) =
        boundParts (renameFreeParts old new target) := by
      cases target <;> rfl
    simp only [renameFree, bound, hparts, bound_renameFree, bound_renameFreeParts]
  | bind _ _ init body => by
    simp only [renameFree, bound, bound_renameFree, apply_ite bound, ite_self]
  | var _ target init body => by
    simp only [renameFree, bound, root_renameFreeParts, bound_renameFree, bound_renameFreeParts,
      apply_ite bound, ite_self]
  | cast _ _ inner => bound_renameFree old new inner
  | throw _ value => bound_renameFree old new value
  | exit _ value => bound_renameFree old new value
  | ret _ value => bound_renameFree old new value
  | assert _ test text => by simp only [renameFree, bound, bound_renameFree]
  | cons _ head tail => by simp only [renameFree, bound, bound_renameFree]
  | eliminated _ _ parts => bound_renameFreeAll old new parts

theorem bound_renameFreeAll (old new : String) :
    ∀ exprs, boundAll (renameFreeAll old new exprs) = boundAll exprs
  | [] => rfl
  | expr :: rest => by simp only [renameFreeAll, boundAll, bound_renameFree, bound_renameFreeAll]

theorem bound_renameFreeFields (old new : String) :
    ∀ fields, boundFields (renameFreeFields old new fields) = boundFields fields
  | [] => rfl
  | (_, expr) :: rest => by
    simp only [renameFreeFields, boundFields, bound_renameFree, bound_renameFreeFields]

theorem bound_renameFreeParts (old new : String) :
    ∀ target, boundParts (renameFreeParts old new target) = boundParts target
  | .name _ => rfl
  | .element _ index => bound_renameFree old new index
  | .slice _ hi lo => by simp only [renameFreeParts, boundParts, bound_renameFree]
  | .append _ tail => bound_renameFree old new tail

end

private theorem root_mapRoot (change : String → String) (target : Target Expr) :
    (target.mapRoot change).root = change target.root := by
  cases target <;> rfl

private theorem freeParts_mapRoot (change : String → String) (target : Target Expr) :
    freeParts (target.mapRoot change) = freeParts target := by
  cases target <;> simp only [Target.mapRoot, freeParts]

private theorem swapName_or (old new name : String) :
    swapName old new name = name ∨ swapName old new name = new := by
  unfold swapName
  split
  · exact .inr rfl
  · exact .inl rfl

mutual

theorem mem_free_renameFree {old new key : String} :
    ∀ expr : Expr, key ∈ (expr.renameFree old new).free → key ∈ expr.free ∨ key = new
  | lit _ _ => .inl
  | name _ other => by grind [renameFree, free, swapName_or old new other]
  | refTo _ _ => .inl
  | block _ items => mem_freeAll_renameFree items
  | cond _ test onTrue onFalse => by
    grind [renameFree, free, mem_free_renameFree test, mem_free_renameFree onTrue,
      mem_free_renameFree onFalse]
  | loop _ _ test body => by
    grind [renameFree, free, mem_free_renameFree test, mem_free_renameFree body]
  | count _ index first last step _ body => by
    grind [renameFree, free, mem_free_renameFree first, mem_free_renameFree last,
      mem_free_renameFree step, mem_free_renameFree body]
  | call _ _ args => mem_freeAll_renameFree args
  | tuple _ items => mem_freeAll_renameFree items
  | list _ items => mem_freeAll_renameFree items
  | vector _ items => mem_freeAll_renameFree items
  | field _ record _ => mem_free_renameFree record
  | update _ record fields => by
    grind [renameFree, free, mem_free_renameFree record, mem_freeFields_renameFree fields]
  | assign _ target value => by
    grind [renameFree, free, root_mapRoot, freeParts_mapRoot, root_renameFreeParts,
      swapName_or old new target.root, mem_freeParts_renameFree target, mem_free_renameFree value]
  | bind _ pattern init body => by
    grind [renameFree, free, mem_free_renameFree init, mem_free_renameFree body]
  | var _ target init body => by
    grind [renameFree, free, root_renameFreeParts, mem_freeParts_renameFree target,
      mem_free_renameFree init, mem_free_renameFree body]
  | cast _ _ inner => mem_free_renameFree inner
  | throw _ value => mem_free_renameFree value
  | exit _ value => mem_free_renameFree value
  | ret _ value => mem_free_renameFree value
  | assert _ test text => by
    grind [renameFree, free, mem_free_renameFree test, mem_free_renameFree text]
  | cons _ head tail => by
    grind [renameFree, free, mem_free_renameFree head, mem_free_renameFree tail]
  | eliminated _ _ parts => mem_freeAll_renameFree parts

theorem mem_freeAll_renameFree {old new key : String} :
    ∀ exprs, key ∈ freeAll (renameFreeAll old new exprs) → key ∈ freeAll exprs ∨ key = new
  | [] => .inl
  | expr :: rest => by
    grind [renameFreeAll, freeAll, mem_free_renameFree expr, mem_freeAll_renameFree rest]

theorem mem_freeFields_renameFree {old new key : String} :
    ∀ fields, key ∈ freeFields (renameFreeFields old new fields) →
      key ∈ freeFields fields ∨ key = new
  | [] => .inl
  | (_, expr) :: rest => by
    grind [renameFreeFields, freeFields, mem_free_renameFree expr, mem_freeFields_renameFree rest]

theorem mem_freeParts_renameFree {old new key : String} :
    ∀ target, key ∈ freeParts (renameFreeParts old new target) → key ∈ freeParts target ∨ key = new
  | .name _ => .inl
  | .element _ index => mem_free_renameFree index
  | .slice _ hi lo => by
    grind [renameFreeParts, freeParts, mem_free_renameFree hi, mem_free_renameFree lo]
  | .append _ tail => mem_free_renameFree tail

end

private theorem mem_targetName_mapRoot {old new key : String} (target : Target Expr)
    (h : key ∈ targetName ((renameFreeParts old new target).mapRoot (swapName old new))) :
    key ∈ targetName target ∨ key = new := by
  cases target with
  | name other => grind [renameFreeParts, Target.mapRoot, targetName, swapName_or old new other]
  | _ => cases h

private theorem targetName_renameFreeParts (old new : String) (target : Target Expr) :
    targetName (renameFreeParts old new target) = targetName target := by
  cases target <;> rfl

mutual

theorem mem_vars_renameFree {old new key : String} :
    ∀ expr : Expr, key ∈ (expr.renameFree old new).vars → key ∈ expr.vars ∨ key = new
  | lit _ _ => .inl
  | name _ other => by grind [renameFree, vars, swapName_or old new other]
  | refTo _ other => by grind [renameFree, vars, swapName_or old new other]
  | block _ items => mem_varsAll_renameFree items
  | cond _ test onTrue onFalse => by
    grind [renameFree, vars, mem_vars_renameFree test, mem_vars_renameFree onTrue,
      mem_vars_renameFree onFalse]
  | loop _ _ test body => by
    grind [renameFree, vars, mem_vars_renameFree test, mem_vars_renameFree body]
  | count _ index first last step _ body => by
    grind [renameFree, vars, mem_vars_renameFree first, mem_vars_renameFree last,
      mem_vars_renameFree step, mem_vars_renameFree body]
  | call _ _ args => mem_varsAll_renameFree args
  | tuple _ items => mem_varsAll_renameFree items
  | list _ items => mem_varsAll_renameFree items
  | vector _ items => mem_varsAll_renameFree items
  | field _ record _ => mem_vars_renameFree record
  | update _ record fields => by
    grind [renameFree, vars, mem_vars_renameFree record, mem_varsFields_renameFree fields]
  | assign _ target value => by
    grind [renameFree, vars, mem_targetName_mapRoot target, mem_vars_renameFree value]
  | bind _ pattern init body => by
    grind [renameFree, vars, mem_vars_renameFree init, mem_vars_renameFree body]
  | var _ target init body => by
    grind [renameFree, vars, targetName_renameFreeParts, mem_vars_renameFree init,
      mem_vars_renameFree body]
  | cast _ _ inner => mem_vars_renameFree inner
  | throw _ value => mem_vars_renameFree value
  | exit _ value => mem_vars_renameFree value
  | ret _ value => mem_vars_renameFree value
  | assert _ test text => by
    grind [renameFree, vars, mem_vars_renameFree test, mem_vars_renameFree text]
  | cons _ head tail => by
    grind [renameFree, vars, mem_vars_renameFree head, mem_vars_renameFree tail]
  | eliminated _ _ _ => .inl

theorem mem_varsAll_renameFree {old new key : String} :
    ∀ exprs, key ∈ varsAll (renameFreeAll old new exprs) → key ∈ varsAll exprs ∨ key = new
  | [] => .inl
  | expr :: rest => by
    grind [renameFreeAll, varsAll, mem_vars_renameFree expr, mem_varsAll_renameFree rest]

theorem mem_varsFields_renameFree {old new key : String} :
    ∀ fields, key ∈ varsFields (renameFreeFields old new fields) →
      key ∈ varsFields fields ∨ key = new
  | [] => .inl
  | (_, expr) :: rest => by
    grind [renameFreeFields, varsFields, mem_vars_renameFree expr, mem_varsFields_renameFree rest]

end

end Expr

namespace Link

variable [OwnNames] {change : String → String} {good : String → Prop} {links : List Link}
  {free vars : List String}

/-- The address of a register means the same, or a name that is no register. -/
def Points (links : List Link) (name twin : String) : Prop :=
  Same links name twin ∨ name = twin ∧ Unbound links name

/-- The names of an expression mean the same when they are changed. Those that occur free are used,
and any of its variables can be the address of a register. -/
structure Settles (change : String → String) (good : String → Prop) (links : List Link)
    (free vars : List String) : Prop where
  free : ∀ name ∈ free, Same links name (change name) ∧ good name
  vars : ∀ name ∈ vars, Points links name (change name) ∧ good name

theorem Settles.part (h : Settles change good links free vars) {partFree partVars : List String}
    (hfree : partFree ⊆ free) (hvars : partVars ⊆ vars) :
    Settles change good links partFree partVars :=
  ⟨fun name hn => h.free name (hfree hn), fun name hn => h.vars name (hvars hn)⟩

theorem Settles.under (h : Settles change good links free vars) {inner : String → String}
    {name : String} {mutable : Bool} {bodyFree bodyVars : List String} (hname : inner name = name)
    (hinner : ∀ other, other ≠ name → inner other = change other ∧ change other ≠ name)
    (hbinder : name ∈ vars) (hfree : ∀ other ∈ bodyFree, other ≠ name → other ∈ free)
    (hvars : bodyVars ⊆ vars) :
    Settles inner good (⟨name, name, mutable⟩ :: links) bodyFree bodyVars := by
  have hbound : ∀ other, other = name →
      Same (⟨name, name, mutable⟩ :: links) other (inner other) ∧ good other := by
    rintro other rfl
    exact ⟨.inl ⟨rfl, hname.symm⟩, (h.vars other hbinder).2⟩
  refine ⟨fun other hother => ?_, fun other hother => ?_⟩
  · by_cases heq : other = name
    · exact hbound other heq
    · obtain ⟨hsame, hgood⟩ := h.free other (hfree other hother heq)
      obtain ⟨hchange, hne⟩ := hinner other heq
      rw [hchange]
      exact ⟨.inr ⟨Ne.symm heq, Ne.symm hne, hsame⟩, hgood⟩
  · by_cases heq : other = name
    · obtain ⟨hsame, hgood⟩ := hbound other heq
      exact ⟨.inl hsame, hgood⟩
    · obtain ⟨hpoints, hgood⟩ := h.vars other (hvars hother)
      obtain ⟨hchange, hne⟩ := hinner other heq
      rw [hchange]
      refine ⟨?_, hgood⟩
      rcases hpoints with hsame | ⟨hkept, hunbound⟩
      · exact .inl (.inr ⟨Ne.symm heq, Ne.symm hne, hsame⟩)
      · exact .inr ⟨hkept, List.forall_mem_cons.mpr ⟨⟨Ne.symm heq, Ne.symm heq⟩, hunbound⟩⟩

/-- Inside a binder of the old name, nothing is renamed. -/
theorem Settles.binder {old new : String} (h : Settles (swapName old new) good links free vars)
    (hnew : good new → new = old) {name : String} (mutable : Bool) {bodyFree bodyVars : List String}
    (hbinder : name ∈ vars) (hfree : ∀ other ∈ bodyFree, other ≠ name → other ∈ free)
    (hvars : bodyVars ⊆ vars) :
    Settles (swapName old (if name = old then old else new)) good
      (⟨name, name, mutable⟩ :: links) bodyFree bodyVars := by
  by_cases hname : name = old
  · subst hname
    rw [if_pos rfl]
    refine h.under (Expr.swapName_self _ _) (fun other hne => ?_) hbinder hfree hvars
    rw [Expr.swapName_self, swapName, if_neg hne]
    exact ⟨rfl, hne⟩
  · rw [if_neg hname]
    refine h.under (if_neg hname) (fun other hne => ⟨rfl, fun heq => ?_⟩) hbinder hfree hvars
    unfold swapName at heq
    split at heq
    · subst heq
      exact hname (hnew (h.vars new hbinder).2)
    · exact hne heq

end Link

namespace Expr

private theorem body_renameFree (name old new : String) (body : Expr) :
    (if name = old then body else body.renameFree old new) =
      body.renameFree old (if name = old then old else new) := by
  split
  · rw [renameFree_self]
  · rfl

private theorem new_eq {good : String → Prop} {old new : String} (h : good new → new = old)
    (name : String) :
    good (if name = old then old else new) → (if name = old then old else new) = old := by
  split
  · exact fun _ => rfl
  · exact h

section Alike

variable [OwnNames] (rules : ExprRules) {good : String → Prop}

def RenamedAlike (good : String → Prop) (expr : Expr) : Prop :=
  ∀ {links : List Link} {old new : String}, (good new → new = old) →
    Link.Settles (swapName old new) good links expr.free expr.vars →
    Expr.Alike rules links expr (expr.renameFree old new)

private theorem binder_alike (hgood : ∀ name, good name → ¬Secret name) {links : List Link}
    {old new : String} (name : String) (mutable : Bool) {body : Expr} {free vars : List String}
    (hbody : RenamedAlike rules good body)
    (hnew : good new → new = old) (h : Link.Settles (swapName old new) good links free vars)
    (hname : name ∈ vars) (hfree : ∀ other ∈ body.free, other ≠ name → other ∈ free)
    (hvars : body.vars ⊆ vars) :
    Binders name name ∧ Expr.Alike rules (⟨name, name, mutable⟩ :: links) body
      (if name = old then body else body.renameFree old new) := by
  have hplain := hgood name (h.vars name hname).2
  refine ⟨⟨.inl rfl, hplain, hplain⟩, ?_⟩
  rw [body_renameFree]
  exact hbody (new_eq hnew name) (h.binder hnew mutable hname hfree hvars)

omit [OwnNames] in
private theorem renameFreeFields_eq (old new : String) (fields : List (String × Expr)) :
    (renameFreeFields old new fields).map Prod.fst = fields.map Prod.fst ∧
      (renameFreeFields old new fields).map Prod.snd =
        renameFreeAll old new (fields.map Prod.snd) := by
  induction fields with
  | nil => exact ⟨rfl, rfl⟩
  | cons field rest ih => exact ⟨congrArg (field.1 :: ·) ih.1, congrArg (_ :: ·) ih.2⟩

omit [OwnNames] in
private theorem Strict.renameFree {expr : Expr} {parts : List Expr} {build : List Atom → Term}
    (h : expr.Strict parts build) (old new : String) :
    (expr.renameFree old new).Strict (renameFreeAll old new parts) build := by
  cases h with
  | update note record fields =>
    have hupdate := Strict.update note (record.renameFree old new) (renameFreeFields old new fields)
    rwa [(renameFreeFields_eq old new fields).1, (renameFreeFields_eq old new fields).2] at hupdate
  | _ => constructor

omit [OwnNames] in
private theorem Refused.renameFree {expr : Expr} {cause : CompileError} (h : expr.Refused cause)
    (old new : String) : ∃ other, (expr.renameFree old new).Refused other := by
  cases h with
  | @assign target note value hname =>
    refine ⟨_, .assign note _ fun key heq => ?_⟩
    cases target with
    | name other => exact hname other rfl
    | _ => cases heq
  | bind note elems init body => exact ⟨_, .bind note elems _ _⟩
  | @var target note init body hname =>
    refine ⟨_, .var note _ _ fun key heq => ?_⟩
    cases target with
    | name other => exact hname other rfl
    | _ => cases heq
  | eliminated note form parts => exact ⟨_, .eliminated note form _⟩

omit [OwnNames] in
private theorem ty_renameFree (old new : String) (expr : Expr) :
    expr.ty = (expr.renameFree old new).ty := by
  cases expr <;> rfl

private theorem renameFreeAll_alike {exprs : List Expr}
    (hexprs : ∀ expr ∈ exprs, RenamedAlike rules good expr) {links : List Link} {old new : String}
    (hnew : good new → new = old)
    (h : Link.Settles (swapName old new) good links (freeAll exprs) (varsAll exprs)) :
    Expr.AlikeAll rules links exprs (renameFreeAll old new exprs) := by
  induction exprs with
  | nil => exact .nil links
  | cons expr rest ih =>
    obtain ⟨hexpr, hrest⟩ := List.forall_mem_cons.mp hexprs
    exact .cons (hexpr hnew (h.part (by simp [freeAll]) (by simp [varsAll])))
      (ih hrest (h.part (by simp [freeAll]) (by simp [varsAll])))

private theorem renamed_bind (hgood : ∀ name, good name → ¬Secret name) {init body : Expr}
    (note : Note) (pattern : Pattern) (hinit : RenamedAlike rules good init)
    (hbody : RenamedAlike rules good body) :
    RenamedAlike rules good (.bind note pattern init body) := by
  intro links old new hnew h
  have hinits := hinit hnew (h.part (by simp [free]) (by simp [vars]))
  cases pattern with
  | name key =>
    obtain ⟨hbinders, hbodies⟩ := binder_alike rules hgood key false hbody hnew h
      (by simp [vars, patternName]) (by simp +contextual [free, Pattern.names]) (by simp [vars])
    simp only [renameFree, Pattern.names, List.mem_singleton, @eq_comm _ _ key]
    exact .bind note hbinders hinits hbodies
  | typed ty key =>
    obtain ⟨hbinders, hbodies⟩ := binder_alike rules hgood key false hbody hnew h
      (by simp [vars, patternName]) (by simp +contextual [free, Pattern.names]) (by simp [vars])
    simp only [renameFree, Pattern.names, List.mem_singleton, @eq_comm _ _ key]
    exact .bindTyped note ty hbinders hinits hbodies
  | wildcard =>
    simp only [renameFree, Pattern.names, List.not_mem_nil, if_false]
    exact .bindUnnamed note hinits
      (hbody hnew (h.part (by simp [free, Pattern.names]) (by simp [vars])))
  | tuple elems => exact .refused (.bind _ _ _ _) (.bind _ _ _ _) rfl

theorem renameFree_alike (hgood : ∀ name, good name → ¬Secret name) (expr : Expr) :
    RenamedAlike rules good expr := by
  induction expr using Expr.formInduction with
  | lit note value => exact fun _ _ => .lit note value
  | name note key => exact fun _ h => .name note (h.free key List.mem_cons_self).1
  | refTo note key =>
    intro links old new _ h
    obtain ⟨hpoints, hkey⟩ := h.vars key List.mem_cons_self
    rcases hpoints with hsame | ⟨hkept, hunbound⟩
    · exact .refTo note hsame
    · rw [renameFree, ← hkept]
      exact .refToGlobal note hunbound (hgood key hkey)
  | block note items ih => exact fun hnew h => .block note (renameFreeAll_alike rules ih hnew h)
  | assign note key value hvalue =>
    exact fun hnew h => .assign note (h.free key (by simp [free, Target.root])).1
      (hvalue hnew (h.part (by simp [free, freeParts]) (by simp [vars])))
  | loop note kind test body htest hbody =>
    exact fun hnew h => .loop note kind
      (htest hnew (h.part (by simp [free]) (by simp [vars])))
      (hbody hnew (h.part (by simp [free]) (by simp [vars])))
  | count note index first last step direction body hfirst hlast hstep hbody =>
    intro links old new hnew h
    obtain ⟨hbinders, hbodies⟩ := binder_alike rules hgood index false hbody hnew h
      (by simp [vars]) (by simp +contextual [free]) (by simp +contextual [vars, List.subset_def])
    refine .count note direction hbinders (hfirst hnew (h.part ?_ ?_)) (hlast hnew (h.part ?_ ?_))
      (hstep hnew (h.part ?_ ?_)) hbodies
    all_goals simp +contextual [free, vars, List.subset_def]
  | cond note test onTrue onFalse htest htrue hfalse =>
    exact fun hnew h => .cond note (htest hnew (h.part (by simp [free]) (by simp [vars])))
      (htrue hnew (h.part (by simp [free]) (by simp [vars])))
      (hfalse hnew (h.part (by simp [free]) (by simp [vars])))
  | bind note pattern init body hinit hbody => exact renamed_bind rules hgood note pattern hinit hbody
  | var note key init body hinit hbody =>
    intro links old new hnew h
    obtain ⟨hbinders, hbodies⟩ := binder_alike rules hgood key true hbody hnew h
      (by simp [vars, targetName]) (by simp +contextual [free, Target.root]) (by simp [vars])
    exact .var note hbinders
      (hinit hnew (h.part (by simp [free, freeParts]) (by simp [vars]))) hbodies
  | cast note ty inner hinner => exact fun hnew h => .cast note ty (hinner hnew h)
  | strict expr parts build hstrict hparts =>
    intro links old new hnew h
    rw [hstrict.free_eq, hstrict.vars_eq] at h
    exact .strict hstrict (hstrict.renameFree old new) (ty_renameFree old new expr)
      (renameFreeAll_alike rules hparts hnew h)
  | refused expr cause hrefused =>
    intro links old new _ _
    obtain ⟨other, hother⟩ := hrefused.renameFree old new
    exact .refused hrefused hother (ty_renameFree old new expr)

/-- An expression is alike itself where its names mean the same on both sides. -/
theorem alike_self (hgood : ∀ name, good name → ¬Secret name) (expr : Expr)
    {links : List Link} (h : Link.Settles id good links expr.free expr.vars) :
    Expr.Alike rules links expr expr := by
  have hsame : swapName "" "" = id := funext (swapName_self "")
  have halike := renameFree_alike rules hgood expr (fun _ => rfl) (hsame.symm ▸ h)
  rwa [renameFree_self] at halike

theorem alikeAll_self (hgood : ∀ name, good name → ¬Secret name) (exprs : List Expr)
    {links : List Link} (h : Link.Settles id good links (freeAll exprs) (varsAll exprs)) :
    Expr.AlikeAll rules links exprs exprs := by
  have hsame : swapName "" "" = id := funext (swapName_self "")
  have halike := renameFreeAll_alike rules (fun expr _ => renameFree_alike rules hgood expr)
    (fun _ => rfl) (hsame.symm ▸ h)
  rwa [renameFreeAll_self] at halike

end Alike

end Expr

end IsaBackend
