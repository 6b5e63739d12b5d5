import IsaBackend.Proofs.Effects
import IsaBackend.Term.OfExpr

/-!
# The forms of expressions

What flattening does with an expression depends on its form. Strict forms make up about half of them
and are treated alike: their parts become atoms, from left to right, and a term takes the atoms. A few
forms are refused. Inductions over expressions have one case for all strict forms and one for all that
are refused.
-/

namespace IsaBackend

namespace Expr

/-- The strict forms, with their parts and the term for atoms of the parts. -/
inductive Strict : Expr → List Expr → (List Atom → Term) → Prop where
  | call (note : Note) (callee : String) (args : List Expr) :
    Strict (.call note callee args) args fun values => .call callee values note.ty
  | tuple (note : Note) (items : List Expr) :
    Strict (.tuple note items) items fun values => .atom (.tuple values)
  | list (note : Note) (items : List Expr) :
    Strict (.list note items) items fun values => .atom (.list values note.ty)
  | vector (note : Note) (items : List Expr) :
    Strict (.vector note items) items fun values => .atom (.vector values note.ty)
  | field (note : Note) (record : Expr) (key : String) :
    Strict (.field note record key) [record] fun values => .field (values.headD .unit) key note.ty
  | update (note : Note) (record : Expr) (fields : List (String × Expr)) :
    Strict (.update note record fields) (record :: fields.map Prod.snd) fun values =>
      .update (values.headD .unit) ((fields.map Prod.fst).zip values.tail) note.ty
  | throw (note : Note) (value : Expr) :
    Strict (.throw note value) [value] fun values => .call Builtin.throw.name values note.ty
  | exit (note : Note) (value : Expr) :
    Strict (.exit note value) [value] fun values => .call Builtin.exit.name values note.ty
  | ret (note : Note) (value : Expr) :
    Strict (.ret note value) [value] fun values => .ret (values.headD .unit) note.ty
  | assert (note : Note) (test text : Expr) :
    Strict (.assert note test text) [test, text] fun values =>
      .call Builtin.assert.name values note.ty
  | cons (note : Note) (head tail : Expr) :
    Strict (.cons note head tail) [head, tail] fun values => .call Builtin.cons.name values note.ty

/-- The forms without an A-normal form, and why they are refused. -/
inductive Refused : Expr → CompileError → Prop where
  | assign {target : Target Expr} (note : Note) (value : Expr) : (∀ key, target ≠ .name key) →
    Refused (.assign note target value) (.unsupported ("assignment to " ++ target.describe) note.pos)
  | bind (note : Note) (elems : List Pattern) (init body : Expr) :
    Refused (.bind note (.tuple elems) init body) (.unsupported "tuple pattern" note.pos)
  | var {target : Target Expr} (note : Note) (init body : Expr) : (∀ key, target ≠ .name key) →
    Refused (.var note target init body) (.unsupported ("var binding of " ++ target.describe) note.pos)
  | eliminated (note : Note) (form : EliminatedForm) (parts : List Expr) :
    Refused (.eliminated note form parts) (.unsupported form.describe note.pos)

private theorem sizeOf_field_lt {key : String} {expr : Expr} {fields : List (String × Expr)}
    (h : (key, expr) ∈ fields) : sizeOf expr < sizeOf fields := by
  have hlt := List.sizeOf_lt_of_mem h
  simp only [Prod.mk.sizeOf_spec] at hlt
  omega

section Induction

variable {motive : Expr → Prop} (lit : ∀ note value, motive (.lit note value))
  (name : ∀ note key, motive (.name note key)) (refTo : ∀ note key, motive (.refTo note key))
  (block : ∀ note items, (∀ item ∈ items, motive item) → motive (.block note items))
  (assign : ∀ note key value, motive value → motive (.assign note (.name key) value))
  (loop : ∀ note kind test body, motive test → motive body → motive (.loop note kind test body))
  (count : ∀ note index first last step direction body, motive first → motive last →
    motive step → motive body → motive (.count note index first last step direction body))
  (cond : ∀ note test onTrue onFalse, motive test → motive onTrue → motive onFalse →
    motive (.cond note test onTrue onFalse))
  (bind : ∀ note pattern init body, motive init → motive body →
    motive (.bind note pattern init body))
  (var : ∀ note key init body, motive init → motive body →
    motive (.var note (.name key) init body))
  (cast : ∀ note ty inner, motive inner → motive (.cast note ty inner))
  (strict : ∀ expr parts build, Strict expr parts build → (∀ part ∈ parts, motive part) →
    motive expr)
  (refused : ∀ expr cause, Refused expr cause → motive expr)

include lit name refTo block assign loop count cond bind var cast strict refused

/-- Induction over expressions by their forms. -/
theorem formInduction : ∀ expr, motive expr
  | .lit note value => lit note value
  | .name note key => name note key
  | .refTo note key => refTo note key
  | .block note items => block note items fun item _ => formInduction item
  | .assign note (.name key) value => assign note key value (formInduction value)
  | .assign note (.element _ _) value => refused _ _ (.assign note value nofun)
  | .assign note (.slice _ _ _) value => refused _ _ (.assign note value nofun)
  | .assign note (.append _ _) value => refused _ _ (.assign note value nofun)
  | .loop note kind test body =>
    loop note kind test body (formInduction test) (formInduction body)
  | .count note index first last step direction body =>
    count note index first last step direction body (formInduction first) (formInduction last)
      (formInduction step) (formInduction body)
  | .cond note test onTrue onFalse =>
    cond note test onTrue onFalse (formInduction test) (formInduction onTrue) (formInduction onFalse)
  | .bind note pattern init body =>
    bind note pattern init body (formInduction init) (formInduction body)
  | .var note (.name key) init body =>
    var note key init body (formInduction init) (formInduction body)
  | .var note (.element _ _) init body => refused _ _ (.var note init body nofun)
  | .var note (.slice _ _ _) init body => refused _ _ (.var note init body nofun)
  | .var note (.append _ _) init body => refused _ _ (.var note init body nofun)
  | .cast note ty inner => cast note ty inner (formInduction inner)
  | .call note callee args =>
    strict _ _ _ (.call note callee args) fun arg _ => formInduction arg
  | .tuple note items => strict _ _ _ (.tuple note items) fun item _ => formInduction item
  | .list note items => strict _ _ _ (.list note items) fun item _ => formInduction item
  | .vector note items => strict _ _ _ (.vector note items) fun item _ => formInduction item
  | .field note record key =>
    strict _ _ _ (.field note record key) (List.forall_mem_singleton.mpr (formInduction record))
  | .update note record fields =>
    strict _ _ _ (.update note record fields) (List.forall_mem_cons.mpr
      ⟨formInduction record, List.forall_mem_map.mpr fun (_, expr) hfield =>
        have := sizeOf_field_lt hfield
        formInduction expr⟩)
  | .throw note value =>
    strict _ _ _ (.throw note value) (List.forall_mem_singleton.mpr (formInduction value))
  | .exit note value =>
    strict _ _ _ (.exit note value) (List.forall_mem_singleton.mpr (formInduction value))
  | .ret note value =>
    strict _ _ _ (.ret note value) (List.forall_mem_singleton.mpr (formInduction value))
  | .assert note test text =>
    strict _ _ _ (.assert note test text) (List.forall_mem_cons.mpr
      ⟨formInduction test, List.forall_mem_singleton.mpr (formInduction text)⟩)
  | .cons note head tail =>
    strict _ _ _ (.cons note head tail) (List.forall_mem_cons.mpr
      ⟨formInduction head, List.forall_mem_singleton.mpr (formInduction tail)⟩)
  | .eliminated note form parts => refused _ _ (.eliminated note form parts)

end Induction

end Expr

namespace Flattening

variable {α β : Type} {good : α → Prop} {better : β → Prop}

def Ensures (act : Flattening α) (good : α → Prop) : Prop :=
  ∀ start value final, act start = .ok value final → good value

namespace Ensures

private theorem any (act : Flattening α) : Ensures act fun _ => True := fun _ _ _ _ => trivial

protected theorem pure {value : α} (h : good value) : Ensures (pure value) good := by
  intro start result final hok
  cases hok
  exact h

protected theorem throw (cause : CompileError) : Ensures (throw cause) good := by
  intro start result final hok
  cases hok

protected theorem bind {act : Flattening α} {next : α → Flattening β} (h : Ensures act good)
    (hnext : ∀ value, good value → Ensures (next value) better) : Ensures (act >>= next) better := by
  intro start result final hok
  obtain ⟨value, middle, hact, hrest⟩ := bind_eq_ok.mp hok
  exact hnext value (h start value middle hact) middle result final hrest

theorem after {act : Flattening α} {next : α → Flattening β}
    (hnext : ∀ value, Ensures (next value) better) : Ensures (act >>= next) better :=
  (any act).bind fun value _ => hnext value

protected theorem within {act : Flattening α} (h : Ensures act good) (name : String) (ty : Ty)
    (mutable : Bool) : Ensures (within name ty mutable act) good := by
  refine .after fun _ start value final hok => ?_
  obtain ⟨middle, hact, _⟩ := ensuring_eq_ok.mp hok
  exact h start value middle hact

end Ensures

end Flattening

namespace Term

open Flattening

variable {interface : Interface}

private theorem fieldAtoms_eq (fields : List (String × Expr)) :
    fieldAtoms interface fields = (do
      let (values, hoists) ← atoms interface (fields.map Prod.snd)
      return ((fields.map Prod.fst).zip values, hoists)) := by
  induction fields with
  | nil => rfl
  | cons field rest ih =>
    obtain ⟨key, expr⟩ := field
    simp [fieldAtoms, atoms, ih]

/-- The parts of a strict form become atoms. -/
theorem ofExpr_strict {expr : Expr} {parts : List Expr} {build : List Atom → Term}
    (h : expr.Strict parts build) :
    ofExpr interface expr = (do
      let (values, hoists) ← atoms interface parts
      return wrap hoists (build values)) := by
  cases h with
  | call | tuple | list | vector => rfl
  | update => simp [ofExpr, atoms, fieldAtoms_eq]
  | _ => simp [ofExpr, atoms]

theorem ofExpr_refused {expr : Expr} {cause : CompileError} (h : expr.Refused cause) :
    ofExpr interface expr = throw cause := by
  cases h with
  | bind | eliminated => rfl
  | @assign target _ _ hname | @var target _ _ _ hname =>
    cases target with
    | name key => exact absurd rfl (hname key)
    | _ => rfl

end Term

end IsaBackend
