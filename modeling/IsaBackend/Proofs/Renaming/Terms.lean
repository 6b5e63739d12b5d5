import IsaBackend.Proofs.Renaming.Uniform
import IsaBackend.Proofs.Term.Forms
import IsaBackend.Term.Fuse

/-!
# Terms for every start of the supply

Flattening an expression whose variables could not have been generated gives the same term for every
start of the supply, up to the numbers of generated names, and fails with the same cause. Fusing calls
goes along with any renaming that keeps names apart.
-/

namespace IsaBackend

open FreshNames (shift IsGenerated)
open Movable (move)

namespace Atom

mutual

def rename (change : String → String) : Atom → Atom
  | lit value ty => lit value ty
  | name key cls ty => name (change key) cls ty
  | refTo key ty => refTo key ty
  | tuple elems => tuple (renameAll change elems)
  | list elems ty => list (renameAll change elems) ty
  | vector elems ty => vector (renameAll change elems) ty
  | inline expr ty => inline (expr.rename change) ty

def renameAll (change : String → String) : List Atom → List Atom
  | [] => []
  | atom :: rest => atom.rename change :: renameAll change rest

end

mutual

/-- Constructors are not generated names. -/
def Proper : Atom → Prop
  | name key cls _ => cls = .unionCtor → ¬IsGenerated key
  | tuple elems => ProperAll elems
  | list elems _ => ProperAll elems
  | vector elems _ => ProperAll elems
  | _ => True

def ProperAll : List Atom → Prop
  | [] => True
  | atom :: rest => atom.Proper ∧ ProperAll rest

end

mutual

@[simp] theorem ty_rename (change : String → String) : ∀ atom : Atom,
    (atom.rename change).ty = atom.ty
  | lit _ _ => rfl
  | name _ _ _ => rfl
  | refTo _ _ => rfl
  | tuple elems => congrArg Ty.tuple (tys_renameAll change elems)
  | list _ _ => rfl
  | vector _ _ => rfl
  | inline _ _ => rfl

@[simp] theorem tys_renameAll (change : String → String) : ∀ atoms : List Atom,
    tys (renameAll change atoms) = tys atoms
  | [] => rfl
  | atom :: rest => by simp only [renameAll, tys, ty_rename change atom, tys_renameAll change rest]

end

@[simp] theorem length_renameAll (change : String → String) (atoms : List Atom) :
    (renameAll change atoms).length = atoms.length := by
  induction atoms with
  | nil => rfl
  | cons atom rest ih => simp only [renameAll, List.length_cons, ih]

def renameFields (change : String → String) : List (String × Atom) → List (String × Atom)
  | [] => []
  | (key, atom) :: rest => (key, atom.rename change) :: renameFields change rest

def ProperFields : List (String × Atom) → Prop
  | [] => True
  | (_, atom) :: rest => atom.Proper ∧ ProperFields rest

end Atom

namespace Term

mutual

def rename (change : String → String) : Term → Term
  | atom value => atom (value.rename change)
  | call callee args ty => call callee (Atom.renameAll change args) ty
  | cast inner ty => cast (inner.rename change) ty
  | assign target ty value => assign (change target) ty (value.rename change)
  | bind name ty init body bodyTy =>
    bind (change name) ty (init.rename change) (body.rename change) bodyTy
  | block stmts last ty => block (renameAll change stmts) (last.rename change) ty
  | ret value ty => ret (value.rename change) ty
  | cond test onTrue onFalse ty =>
    cond (test.rename change) (onTrue.rename change) (onFalse.rename change) ty
  | field record key ty => field (record.rename change) key ty
  | update record fields ty => update (record.rename change) (Atom.renameFields change fields) ty
  | count var first last step direction body =>
    count (change var) (first.rename change) (last.rename change) (step.rename change) direction
      (body.rename change)
  | loop kind test body => loop kind (test.rename change) (body.rename change)

def renameAll (change : String → String) : List Term → List Term
  | [] => []
  | term :: rest => term.rename change :: renameAll change rest

end

mutual

def Proper : Term → Prop
  | atom value => value.Proper
  | call _ args _ => Atom.ProperAll args
  | cast inner _ => inner.Proper
  | assign target _ value => ¬IsGenerated target ∧ value.Proper
  | bind _ _ init body _ => init.Proper ∧ body.Proper
  | block stmts last _ => ProperAll stmts ∧ last.Proper
  | ret value _ => value.Proper
  | cond test onTrue onFalse _ => test.Proper ∧ onTrue.Proper ∧ onFalse.Proper
  | field record _ _ => record.Proper
  | update record fields _ => record.Proper ∧ Atom.ProperFields fields
  | count _ first last step _ body => first.Proper ∧ last.Proper ∧ step.Proper ∧ body.Proper
  | loop _ test body => test.Proper ∧ body.Proper

def ProperAll : List Term → Prop
  | [] => True
  | term :: rest => term.Proper ∧ ProperAll rest

end

@[simp] theorem ty_rename (change : String → String) (term : Term) :
    (term.rename change).ty = term.ty := by
  cases term with
  | atom value => exact Atom.ty_rename change value
  | _ => rfl

end Term

def Hoist.rename (change : String → String) (hoist : Hoist) : Hoist where
  name := change hoist.name
  ty := hoist.ty
  init := hoist.init.rename change

namespace Term

theorem rename_wrap (change : String → String) (hoists : List Hoist) (body : Term) :
    (wrap hoists body).rename change =
      wrap (hoists.map (Hoist.rename change)) (body.rename change) := by
  induction hoists with
  | nil => rfl
  | cons hoist rest ih =>
    simp only [wrap, List.foldr_cons, List.map_cons, rename, Hoist.rename] at ih ⊢
    simp only [← ih, ty_rename]

theorem proper_wrap {hoists : List Hoist} (hhoists : ∀ hoist ∈ hoists, hoist.init.Proper)
    {body : Term} (hbody : body.Proper) : (wrap hoists body).Proper := by
  induction hoists with
  | nil => exact hbody
  | cons hoist rest ih =>
    obtain ⟨hfirst, hrest⟩ := List.forall_mem_cons.mp hhoists
    exact ⟨hfirst, ih hrest⟩

private theorem renameAll_eq_map (change : String → String) (terms : List Term) :
    renameAll change terms = terms.map (rename change) := by
  induction terms with
  | nil => rfl
  | cons term rest ih => simp only [renameAll, List.map_cons, ih]

theorem rename_ofItems (change : String → String) (ty : Ty) (items : List Term) :
    (ofItems ty items).rename change = ofItems ty (renameAll change items) := by
  match items with
  | [] => rfl
  | [item] => rfl
  | first :: second :: rest =>
    have hlast : ∀ (terms : List Term) (default : Term), (terms.getLastD default).rename change =
        (terms.map (rename change)).getLastD (default.rename change) := by
      intro terms
      induction terms with
      | nil => exact fun _ => rfl
      | cons term rest ih =>
        intro default
        simp only [List.map_cons, List.getLastD_cons, ih]
    simp only [ofItems, rename, renameAll_eq_map, hlast, List.map_dropLast, List.map_cons]

private theorem properAll_iff {terms : List Term} :
    ProperAll terms ↔ ∀ term ∈ terms, term.Proper := by
  induction terms with
  | nil => simp [ProperAll]
  | cons term rest ih => simp [ProperAll, ih]

theorem proper_ofItems (ty : Ty) {items : List Term} (h : ProperAll items) :
    (ofItems ty items).Proper := by
  match items with
  | [] => trivial
  | [item] => exact h.1
  | first :: second :: rest =>
    have hall := properAll_iff.mp h
    refine ⟨properAll_iff.mpr fun term hmem => hall term (List.dropLast_subset _ hmem), ?_⟩
    apply hall
    rw [List.getLastD_cons]
    exact List.getLastD_mem_cons

end Term

namespace Scope

variable {change : String → String}

def rename (change : String → String) (scope : Scope) : Scope where
  bindings := scope.bindings.mapNames change id
  depth := scope.depth
  hidden := scope.hidden.map fun entry => { entry with name := change entry.name }

theorem get?_rename (hinj : Function.Injective change) (scope : Scope) (name : String) :
    (scope.rename change).get? (change name) = scope.get? name := by
  simp only [get?, rename, NameTable.get?_mapNames hinj, Option.map_id, id_eq]

theorem rename_declare (hinj : Function.Injective change) (scope : Scope) (name : String) (ty : Ty)
    (mutable : Bool) :
    (scope.declare name ty mutable).rename change =
      (scope.rename change).declare (change name) ty mutable := by
  simp only [declare, rename, NameTable.mapNames_set hinj, NameTable.get?_mapNames hinj,
    Option.map_id, id_eq, Scope.mk.injEq, true_and]
  cases scope.bindings.get? name <;> rfl

private theorem rename_restore (hinj : Function.Injective change) (depth : Nat) :
    ∀ (hidden : List Hidden) (bindings : NameTable Binding),
      restore depth (bindings.mapNames change id)
        (hidden.map fun entry => { entry with name := change entry.name }) =
      ((restore depth bindings hidden).1.mapNames change id,
        (restore depth bindings hidden).2.map fun entry => { entry with name := change entry.name })
  | [], _ => rfl
  | entry :: rest, bindings => by
    simp only [List.map_cons, restore]
    by_cases hdepth : entry.depth = depth
    · simp only [hdepth, if_true]
      rw [← rename_restore hinj depth rest]
      split
      · rw [NameTable.mapNames_set hinj]
        rfl
      · rfl
    · simp only [hdepth, if_false, List.map_cons]

theorem rename_leave (hinj : Function.Injective change) (scope : Scope) :
    scope.leave.rename change = (scope.rename change).leave := by
  have hkept : (scope.bindings.mapNames change id).filter (fun binding => binding.depth < scope.depth) =
      (scope.bindings.filter fun binding => binding.depth < scope.depth).mapNames change id :=
    (NameTable.mapNames_filter (fun _ => rfl) scope.bindings).symm
  have hrestore := rename_restore hinj scope.depth scope.hidden
    (scope.bindings.filter fun binding => binding.depth < scope.depth)
  rw [← hkept] at hrestore
  exact congrArg₂ (fun bindings hidden => Scope.mk bindings (scope.depth - 1) hidden)
    (congrArg Prod.fst hrestore).symm (congrArg Prod.snd hrestore).symm

end Scope

instance : Movable FlatState where
  move offset state := ⟨state.scope.rename (shift offset), move offset state.names⟩

namespace Expr

mutual

/-- The variables that an expression binds or refers to. -/
def vars : Expr → List String
  | lit _ _ => []
  | name _ key => [key]
  | refTo _ key => [key]
  | block _ items => varsAll items
  | cond _ test onTrue onFalse => test.vars ++ onTrue.vars ++ onFalse.vars
  | loop _ _ test body => test.vars ++ body.vars
  | count _ index first last step _ body =>
    index :: first.vars ++ last.vars ++ step.vars ++ body.vars
  | call _ _ args => varsAll args
  | tuple _ items => varsAll items
  | list _ items => varsAll items
  | vector _ items => varsAll items
  | field _ record _ => record.vars
  | update _ record fields => record.vars ++ varsFields fields
  | assign _ target value => targetName target ++ value.vars
  | bind _ pattern init body => patternName pattern ++ init.vars ++ body.vars
  | var _ target init body => targetName target ++ init.vars ++ body.vars
  | cast _ _ inner => inner.vars
  | throw _ value => value.vars
  | exit _ value => value.vars
  | ret _ value => value.vars
  | assert _ test text => test.vars ++ text.vars
  | cons _ head tail => head.vars ++ tail.vars
  | eliminated _ _ _ => []

def varsAll : List Expr → List String
  | [] => []
  | expr :: rest => expr.vars ++ varsAll rest

def varsFields : List (String × Expr) → List String
  | [] => []
  | (_, expr) :: rest => expr.vars ++ varsFields rest

/-- Assignments to parts of a vector are refused. -/
def targetName : Target Expr → List String
  | .name key => [key]
  | _ => []

/-- Patterns for tuples are refused. -/
def patternName : Pattern → List String
  | .name key => [key]
  | .typed _ key => [key]
  | _ => []

end

private theorem varsFields_eq (fields : List (String × Expr)) :
    varsFields fields = varsAll (fields.map Prod.snd) := by
  induction fields with
  | nil => rfl
  | cons field rest ih => exact congrArg (field.2.vars ++ ·) ih

theorem Strict.vars_eq {expr : Expr} {parts : List Expr} {build : List Atom → Term}
    (h : expr.Strict parts build) : expr.vars = varsAll parts := by
  cases h <;> simp [vars, varsAll, varsFields_eq]

end Expr

end IsaBackend
