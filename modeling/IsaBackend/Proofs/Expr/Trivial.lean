import IsaBackend.Proofs.Term.Forms

/-!
# Trivial expressions

Names, literals and what is put together of them have atoms as A-normal forms. Any other expression
computes, and as an argument it is bound to a name of its own. The type of the form can be told from
the expression.
-/

namespace IsaBackend

namespace Expr

mutual

/-- Expressions that are read where they stand. Any other one computes. -/
def isTrivial : Expr → Bool
  | lit _ _ => true
  | name _ _ => true
  | refTo _ _ => true
  | block _ items => isTrivialBlock items
  | tuple _ items => areTrivial items
  | list _ items => areTrivial items
  | vector _ items => areTrivial items
  | _ => false

def areTrivial : List Expr → Bool
  | [] => true
  | expr :: rest => expr.isTrivial && areTrivial rest

def isTrivialBlock : List Expr → Bool
  | [] => true
  | [item] => item.isTrivial
  | _ => false

end

theorem areTrivial_concat (exprs : List Expr) (expr : Expr) :
    areTrivial (exprs ++ [expr]) = (areTrivial exprs && expr.isTrivial) := by
  induction exprs with
  | nil => simp [areTrivial]
  | cons first rest ih => simp [areTrivial, ih, Bool.and_assoc]

mutual

/-- The type of the value that an expression gives. -/
def formTy (interface : Interface) : Expr → Ty
  | refTo note key => match interface.global key with
    | some (_, ty) => .ref ty
    | none => note.ty
  | block note items => blockFormTy interface note.ty items
  | tuple _ items => .tuple (formTys interface items)
  | cast _ ty _ => ty
  | assign _ _ _ => .unit
  | loop _ _ _ _ => .unit
  | count _ _ _ _ _ _ _ => .unit
  | expr => expr.ty

def formTys (interface : Interface) : List Expr → List Ty
  | [] => []
  | expr :: rest => expr.formTy interface :: formTys interface rest

def blockFormTy (interface : Interface) (ty : Ty) : List Expr → Ty
  | [] => .unit
  | [item] => item.formTy interface
  | _ => ty

end

end Expr

namespace Term

/-- Whether a term is an atom, so that it computes nothing. -/
def isAtom : Term → Bool
  | atom _ => true
  | _ => false

theorem wrap_ty (hoists : List Hoist) (body : Term) : (wrap hoists body).ty = body.ty := by
  induction hoists with
  | nil => rfl
  | cons hoist rest ih => exact ih

private theorem wrap_isAtom (hoists : List Hoist) (body : Term) :
    (wrap hoists body).isAtom = (hoists.isEmpty && body.isAtom) := by
  cases hoists <;> rfl

end Term

namespace Flattening

/-- An atom for a term has the type of the term, and it takes a binding if the term computes. -/
theorem hoist_ensures (term : Term) : Ensures (hoist term) fun result =>
    result.1.ty = term.ty ∧ result.2.isEmpty = term.isAtom := by
  intro start result final hok
  cases term with
  | atom value =>
    cases hok
    exact ⟨rfl, rfl⟩
  | _ =>
    cases hok
    exact ⟨rfl, rfl⟩

end Flattening

namespace Term

open Flattening

variable (interface : Interface)

/-- What the A-normal form of an expression is like. -/
structure Forms (expr : Expr) (term : Term) : Prop where
  ty : term.ty = expr.formTy interface
  isAtom : term.isAtom = expr.isTrivial

variable {interface}

private theorem Forms.wrap {expr : Expr} {body : Term} (hty : body.ty = expr.formTy interface)
    (hbody : body.isAtom = false) (hexpr : expr.isTrivial = false) (hoists : List Hoist) :
    Forms interface expr (Term.wrap hoists body) where
  ty := (wrap_ty hoists body).trans hty
  isAtom := by rw [wrap_isAtom, hbody, hexpr, Bool.and_false]

private theorem Forms.wrapAtom {expr : Expr} {value : Atom} {hoists : List Hoist}
    (hty : value.ty = expr.formTy interface) (hexpr : hoists.isEmpty = expr.isTrivial) :
    Forms interface expr (Term.wrap hoists (.atom value)) where
  ty := (wrap_ty hoists _).trans hty
  isAtom := by rw [wrap_isAtom, hexpr, Term.isAtom, Bool.and_true]

private theorem global_of_register {scope : Scope} {key : String} {ty : Ty}
    (h : scope.classify interface key = some (.register, ty)) :
    interface.global key = some (.register, ty) := by
  unfold Scope.classify at h
  split at h
  · rename_i binding _
    cases hmutable : binding.mutable <;> simp [hmutable] at h
  · exact h

private theorem refTo_forms (note : Note) (key : String) :
    Ensures (ofExpr interface (.refTo note key)) (Forms interface (.refTo note key)) := by
  intro start term final hok
  obtain ⟨found, middle, hfound, hok⟩ := bind_eq_ok.mp hok
  cases hfound
  cases hclass : start.scope.classify interface key with
  | none =>
    rw [hclass] at hok
    cases hok
  | some found =>
    obtain ⟨cls, ty⟩ := found
    rw [hclass] at hok
    cases cls with
    | register =>
      cases hok
      refine ⟨?_, rfl⟩
      rw [Expr.formTy, global_of_register hclass]
      rfl
    | _ => cases hok

private theorem ofExprs_length : ∀ exprs : List Expr,
    Ensures (ofExprs interface exprs) fun terms => terms.length = exprs.length
  | [] => .pure rfl
  | _ :: rest => .after fun _ => (ofExprs_length rest).bind fun _ hrest =>
    .pure (congrArg (· + 1) hrest)

mutual

/-- The type of an A-normal form, and whether it is an atom, can be told from the expression. -/
theorem ofExpr_forms : ∀ expr : Expr, Ensures (ofExpr interface expr) (Forms interface expr)
  | .lit note value => .pure ⟨rfl, rfl⟩
  | .name note key => .after fun _ => .pure ⟨rfl, rfl⟩
  | .refTo note key => refTo_forms note key
  | .block note [] => .pure ⟨rfl, rfl⟩
  | .block note [item] => by
    have hitem : Ensures (ofExprs interface [item]) fun terms =>
        ∃ term, terms = [term] ∧ Forms interface item term :=
      (ofExpr_forms item).bind fun term hterm => .pure ⟨term, rfl, hterm⟩
    refine hitem.bind ?_
    rintro _ ⟨term, rfl, hterm⟩
    exact .pure ⟨hterm.ty, hterm.isAtom⟩
  | .block note (first :: second :: rest) => by
    refine (ofExprs_length (first :: second :: rest)).bind fun terms hlength => ?_
    match terms with
    | _ :: _ :: _ => exact .pure ⟨rfl, rfl⟩
  | .assign note (.name target) value => by
    refine .after fun found => ?_
    split
    · split
      · exact .after fun _ => .pure ⟨rfl, rfl⟩
      · exact .throw _
    · exact .throw _
  | .assign note (.element _ _) _ => .throw _
  | .assign note (.slice _ _ _) _ => .throw _
  | .assign note (.append _ _) _ => .throw _
  | .loop note kind test body => .after fun _ => .after fun _ => .pure ⟨rfl, rfl⟩
  | .count note var first last step direction body =>
    .after fun _ => .after fun _ => .after fun _ => .after fun _ => .after fun _ => .after fun _ =>
      .after fun _ => .pure (.wrap rfl rfl rfl _)
  | .cond note test onTrue onFalse =>
    .after fun _ => .after fun _ => .after fun _ => .after fun _ => .pure (.wrap rfl rfl rfl _)
  | .call note callee args => .after fun _ => .pure (.wrap rfl rfl rfl _)
  | .tuple note items => (atoms_forms items).bind fun _ hitems =>
    .pure (.wrapAtom (congrArg Ty.tuple hitems.1) hitems.2)
  | .list note items => (atoms_forms items).bind fun _ hitems => .pure (.wrapAtom rfl hitems.2)
  | .vector note items => (atoms_forms items).bind fun _ hitems => .pure (.wrapAtom rfl hitems.2)
  | .field note record key => .after fun _ => .after fun _ => .pure (.wrap rfl rfl rfl _)
  | .update note record fields =>
    .after fun _ => .after fun _ => .after fun _ => .pure (.wrap rfl rfl rfl _)
  | .throw note value => .after fun _ => .after fun _ => .pure (.wrap rfl rfl rfl _)
  | .exit note value => .after fun _ => .after fun _ => .pure (.wrap rfl rfl rfl _)
  | .assert note test text =>
    .after fun _ => .after fun _ => .after fun _ => .after fun _ => .pure (.wrap rfl rfl rfl _)
  | .cons note head tail =>
    .after fun _ => .after fun _ => .after fun _ => .after fun _ => .pure (.wrap rfl rfl rfl _)
  | .ret note value => .after fun _ => .after fun _ => .pure (.wrap rfl rfl rfl _)
  | .bind note pattern init body => .after fun _ => .after fun _ => .after fun _ => .pure ⟨rfl, rfl⟩
  | .var note (.name name) init body => .after fun _ => .after fun _ => .pure ⟨rfl, rfl⟩
  | .var note (.element _ _) _ _ => .throw _
  | .var note (.slice _ _ _) _ _ => .throw _
  | .var note (.append _ _) _ _ => .throw _
  | .cast note ty inner => .after fun _ => .pure ⟨rfl, rfl⟩
  | .eliminated note form parts => .throw _

theorem atoms_forms : ∀ exprs : List Expr, Ensures (atoms interface exprs) fun result =>
    Atom.tys result.1 = Expr.formTys interface exprs ∧ result.2.isEmpty = Expr.areTrivial exprs
  | [] => .pure ⟨rfl, rfl⟩
  | expr :: rest => by
    refine (ofExpr_forms expr).bind fun term hterm => ?_
    refine (hoist_ensures term).bind fun hoisted hhoisted => ?_
    refine (atoms_forms rest).bind fun others hothers => .pure ⟨?_, ?_⟩
    · rw [Atom.tys, Expr.formTys, hhoisted.1, hterm.ty, hothers.1]
    · rw [Expr.areTrivial, ← hterm.isAtom, ← hhoisted.2, ← hothers.2]
      cases hoisted.2 <;> rfl

end

end Term

end IsaBackend
