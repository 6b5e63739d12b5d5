import IsaBackend.Proofs.Term.Flattening
import IsaBackend.Proofs.Term.Forms

/-!
# The effects of an expression and of its A-normal form

Flattening takes compound arguments out of their places and binds them in front. What happens, and
the order in which it happens, stays the same: the calls, the assignments, the returns, the branches
and the loops of the A-normal form are those of the expression, from left to right and with the same
arms and bodies.
-/

namespace IsaBackend

/-- Something that happens when a program runs. The arms of a branch and the body of a loop have
effects of their own. -/
inductive Effect where
  | call (callee : String) (arity : Nat) (ty : Ty)
  | assign (target : String)
  | ret (ty : Ty)
  | branch (ty : Ty) (onTrue onFalse : List Effect)
  /-- The condition is computed anew in every round. -/
  | loop (kind : LoopTest) (test body : List Effect)
  | count (index : String) (direction : Direction) (body : List Effect)

namespace Expr

mutual

/-- The effects of an expression, from left to right. A failing form counts as the call of its
builtin. -/
def effects : Expr → List Effect
  | lit _ _ => []
  | name _ _ => []
  | refTo _ _ => []
  | block _ items => effectsAll items
  | cond note test onTrue onFalse =>
    test.effects ++ [.branch note.ty onTrue.effects onFalse.effects]
  | loop _ kind test body => [.loop kind test.effects body.effects]
  | count _ index first last step direction body =>
    first.effects ++ last.effects ++ step.effects ++ [.count index direction body.effects]
  | call note callee args => effectsAll args ++ [.call callee args.length note.ty]
  | tuple _ items => effectsAll items
  | list _ items => effectsAll items
  | vector _ items => effectsAll items
  | field _ record _ => record.effects
  | update _ record fields => record.effects ++ effectsFields fields
  | assign _ target value => effectsParts target ++ value.effects ++ [.assign target.root]
  | bind _ _ init body => init.effects ++ body.effects
  | var _ target init body => effectsParts target ++ init.effects ++ body.effects
  | cast _ _ inner => inner.effects
  | throw note value => value.effects ++ [.call Builtin.throw.name 1 note.ty]
  | exit note value => value.effects ++ [.call Builtin.exit.name 1 note.ty]
  | ret note value => value.effects ++ [.ret note.ty]
  | assert note test text =>
    test.effects ++ text.effects ++ [.call Builtin.assert.name 2 note.ty]
  | cons note head tail => head.effects ++ tail.effects ++ [.call Builtin.cons.name 2 note.ty]
  | eliminated _ _ parts => effectsAll parts

def effectsAll : List Expr → List Effect
  | [] => []
  | expr :: rest => expr.effects ++ effectsAll rest

def effectsFields : List (String × Expr) → List Effect
  | [] => []
  | (_, expr) :: rest => expr.effects ++ effectsFields rest

def effectsParts : Target Expr → List Effect
  | .name _ => []
  | .element _ index => index.effects
  | .slice _ hi lo => hi.effects ++ lo.effects
  | .append _ tail => tail.effects

end

end Expr

namespace Term

mutual

/-- The effects of a term, from left to right. Atoms have none. -/
def effects : Term → List Effect
  | atom _ => []
  | call callee args ty => [.call callee args.length ty]
  | cast inner _ => inner.effects
  | assign target _ value => value.effects ++ [.assign target]
  | bind _ _ init body _ => init.effects ++ body.effects
  | block stmts last _ => effectsAll stmts ++ last.effects
  | ret _ ty => [.ret ty]
  | cond _ onTrue onFalse ty => [.branch ty onTrue.effects onFalse.effects]
  | field _ _ _ => []
  | update _ _ _ => []
  | count index _ _ _ direction body => [.count index direction body.effects]
  | loop kind test body => [.loop kind test.effects body.effects]

def effectsAll : List Term → List Effect
  | [] => []
  | term :: rest => term.effects ++ effectsAll rest

end

end Term

def Hoist.effectsAll (hoists : List Hoist) : List Effect :=
  hoists.flatMap fun hoist => hoist.init.effects

@[simp] theorem Hoist.effectsAll_append (hoists more : List Hoist) :
    Hoist.effectsAll (hoists ++ more) = Hoist.effectsAll hoists ++ Hoist.effectsAll more :=
  List.flatMap_append

namespace Term

@[simp] theorem effectsAll_append (terms more : List Term) :
    effectsAll (terms ++ more) = effectsAll terms ++ effectsAll more := by
  induction terms with
  | nil => rfl
  | cons term rest ih => simp only [List.cons_append, effectsAll, ih, List.append_assoc]

/-- Bindings happen before what stands inside them, the first one first. -/
@[simp] theorem effects_wrap (hoists : List Hoist) (body : Term) :
    (wrap hoists body).effects = Hoist.effectsAll hoists ++ body.effects := by
  induction hoists with
  | nil => rfl
  | cons hoist rest ih =>
    change hoist.init.effects ++ (wrap rest body).effects = _
    rw [ih]
    exact (List.append_assoc _ _ _).symm

@[simp] theorem effects_ofItems (ty : Ty) (items : List Term) :
    (ofItems ty items).effects = effectsAll items := by
  match items with
  | [] => rfl
  | [item] => exact (List.append_nil _).symm
  | first :: second :: rest =>
    have hsplit := dropLast_append_getLastD first (second :: rest)
    rw [← hsplit, effectsAll_append, hsplit]
    simp only [ofItems, effects, effectsAll, List.append_nil]

open Flattening

variable {interface : Interface}

/-- The A-normal form of an expression has the effects of the expression. -/
def KeepsEffects (interface : Interface) (expr : Expr) : Prop :=
  Ensures (ofExpr interface expr) fun term => term.effects = expr.effects

/-- An atom for a term leaves the term's effects to the binding that it needs. -/
private theorem hoist_effects (term : Term) :
    Ensures (hoist term) fun result => Hoist.effectsAll result.2 = term.effects := by
  intro start result final hok
  cases term with
  | atom value =>
    cases hok
    rfl
  | _ =>
    cases hok
    exact List.append_nil _

private theorem KeepsEffects.operand {α : Type} {expr : Expr}
    {next : Atom × List Hoist → Flattening α} {good : α → Prop} (h : KeepsEffects interface expr)
    (hnext : ∀ value hoists, Hoist.effectsAll hoists = expr.effects →
      Ensures (next (value, hoists)) good) :
    Ensures (ofExpr interface expr >>= fun term => hoist term >>= next) good :=
  h.bind fun term hterm => (hoist_effects term).bind fun (value, hoists) hhoists =>
    hnext value hoists (hhoists.trans hterm)

private theorem ofExprs_effects {exprs : List Expr} (h : ∀ expr ∈ exprs, KeepsEffects interface expr) :
    Ensures (ofExprs interface exprs) fun terms => effectsAll terms = Expr.effectsAll exprs := by
  induction exprs with
  | nil => exact .pure rfl
  | cons expr rest ih =>
    obtain ⟨hexpr, hrest⟩ := List.forall_mem_cons.mp h
    refine hexpr.bind fun term hterm => (ih hrest).bind fun terms hterms => .pure ?_
    rw [effectsAll, Expr.effectsAll, hterm, hterms]

private theorem atoms_effects {exprs : List Expr} (h : ∀ expr ∈ exprs, KeepsEffects interface expr) :
    Ensures (atoms interface exprs) fun result =>
      Hoist.effectsAll result.2 = Expr.effectsAll exprs ∧ result.1.length = exprs.length := by
  induction exprs with
  | nil => exact .pure ⟨rfl, rfl⟩
  | cons expr rest ih =>
    obtain ⟨hexpr, hrest⟩ := List.forall_mem_cons.mp h
    refine hexpr.operand fun value hoists hhoists => (ih hrest).bind fun _ hmore => .pure ⟨?_, ?_⟩
    · rw [Hoist.effectsAll_append, hhoists, hmore.1, Expr.effectsAll]
    · rw [List.length_cons, List.length_cons, hmore.2]

private theorem effectsFields_eq (fields : List (String × Expr)) :
    Expr.effectsFields fields = Expr.effectsAll (fields.map Prod.snd) := by
  induction fields with
  | nil => rfl
  | cons field rest ih => exact congrArg (field.2.effects ++ ·) ih

/-- A strict form has the effects of its parts and then its own. -/
private theorem strict_effects {expr : Expr} {parts : List Expr} {build : List Atom → Term}
    (h : expr.Strict parts build) : ∃ own, expr.effects = Expr.effectsAll parts ++ own ∧
      ∀ values : List Atom, values.length = parts.length → (build values).effects = own := by
  cases h with
  | call note | throw note | exit note | assert note | cons note =>
    refine ⟨_, ?_, fun values hlength =>
      congrArg (fun arity => [Effect.call _ arity note.ty]) hlength⟩
    simp [Expr.effects, Expr.effectsAll]
  | ret note value =>
    exact ⟨[.ret note.ty], by simp [Expr.effects, Expr.effectsAll], fun _ _ => rfl⟩
  | update note record fields =>
    exact ⟨[], by simp [Expr.effects, Expr.effectsAll, effectsFields_eq], fun _ _ => rfl⟩
  | _ => exact ⟨[], by simp [Expr.effects, Expr.effectsAll], fun _ _ => rfl⟩

private theorem effects_strict {expr : Expr} {parts : List Expr} {build : List Atom → Term}
    (h : expr.Strict parts build) (hparts : ∀ part ∈ parts, KeepsEffects interface part) :
    KeepsEffects interface expr := by
  obtain ⟨own, hexpr, hbuild⟩ := strict_effects h
  unfold KeepsEffects
  rw [ofExpr_strict h, hexpr]
  refine (atoms_effects hparts).bind fun (values, hoists) hvalues => .pure ?_
  rw [effects_wrap, hvalues.1, hbuild values hvalues.2]

private theorem effects_refTo (note : Note) (key : String) :
    KeepsEffects interface (.refTo note key) := by
  refine .after fun found => ?_
  split
  · exact .pure rfl
  · exact .throw _

private theorem effects_assign {value : Expr} (note : Note) (target : String)
    (hvalue : KeepsEffects interface value) :
    KeepsEffects interface (.assign note (.name target) value) := by
  refine .after fun found => ?_
  split
  · split
    · exact hvalue.bind fun term hterm => .pure (congrArg (· ++ [Effect.assign target]) hterm)
    · exact .throw _
  · exact .throw _

private theorem effects_count {first last step body : Expr} (note : Note) (index : String)
    (direction : Direction) (hfirst : KeepsEffects interface first)
    (hlast : KeepsEffects interface last) (hstep : KeepsEffects interface step)
    (hbody : KeepsEffects interface body) :
    KeepsEffects interface (.count note index first last step direction body) := by
  refine hfirst.operand fun _ hoists hhoists => ?_
  refine hlast.operand fun _ moreHoists hmore => ?_
  refine hstep.operand fun _ stillMore hstill => ?_
  refine (hbody.within index first.ty false).bind fun term hterm => .pure ?_
  simp only [effects_wrap, Hoist.effectsAll_append, effects, Expr.effects, hhoists, hmore, hstill,
    hterm]

private theorem effects_cond {test onTrue onFalse : Expr} (note : Note)
    (htest : KeepsEffects interface test) (htrue : KeepsEffects interface onTrue)
    (hfalse : KeepsEffects interface onFalse) :
    KeepsEffects interface (.cond note test onTrue onFalse) := by
  refine htest.operand fun _ hoists hhoists => htrue.bind fun trueTerm htrueTerm => ?_
  refine hfalse.bind fun falseTerm hfalseTerm => .pure ?_
  rw [effects_wrap, hhoists, effects, htrueTerm, hfalseTerm, Expr.effects]

private theorem effects_ofExpr (expr : Expr) : KeepsEffects interface expr := by
  induction expr using Expr.formInduction with
  | lit note value => exact .pure rfl
  | name note key => exact .after fun _ => .pure rfl
  | refTo note key => exact effects_refTo note key
  | block note items ih =>
    exact (ofExprs_effects ih).bind fun terms hterms => .pure ((effects_ofItems _ _).trans hterms)
  | assign note target value hvalue => exact effects_assign note target hvalue
  | loop note kind test body htest hbody =>
    refine htest.bind fun testTerm htestTerm => hbody.bind fun bodyTerm hbodyTerm => .pure ?_
    rw [effects, Expr.effects, htestTerm, hbodyTerm]
  | count note index first last step direction body hfirst hlast hstep hbody =>
    exact effects_count note index direction hfirst hlast hstep hbody
  | cond note test onTrue onFalse htest htrue hfalse => exact effects_cond note htest htrue hfalse
  | bind note pattern init body hinit hbody =>
    refine .after fun (name, ty) => hinit.bind fun initTerm hinitTerm => ?_
    refine (hbody.within name ty false).bind fun bodyTerm hbodyTerm => .pure ?_
    rw [effects, Expr.effects, hinitTerm, hbodyTerm]
  | var note name init body hinit hbody =>
    refine hinit.bind fun initTerm hinitTerm => ?_
    refine (hbody.within name init.ty true).bind fun bodyTerm hbodyTerm => .pure ?_
    rw [effects, hinitTerm, hbodyTerm]
    rfl
  | cast note ty inner hinner => exact hinner.bind fun term hterm => .pure hterm
  | strict expr parts build h hparts => exact effects_strict h hparts
  | refused expr cause h =>
    unfold KeepsEffects
    rw [ofExpr_refused h]
    exact .throw cause

/-- The calls, assignments, returns, branches and loops of an expression and of its A-normal form are
the same, in the same order and with the same arms and bodies. -/
theorem effect_order_kept {expr : Expr} {state final : FlatState} {term : Term}
    (h : ofExpr interface expr state = .ok term final) : term.effects = expr.effects :=
  effects_ofExpr expr state term final h

/-- In `f(g(), if h() then k() else throw ())` the first argument's call comes before the branch, and
the outer call after both, although the form binds both arguments. -/
theorem effect_order_kept_nested :
    let unit : Note := { ty := .unit }
    let bool : Note := { ty := .bool }
    let interface : Interface := ⟨fun _ => none, fun _ => none, fun _ => none⟩
    let expr : Expr := .call unit "f" [.call unit "g" [], .cond unit (.call bool "h" [])
      (.call unit "k" []) (.throw unit (.lit unit .unit))]
    ∃ term final, ofExpr interface expr {} = .ok term final ∧
      term.effects = [.call "g" 0 .unit, .call "h" 0 .bool,
        .branch .unit [.call "k" 0 .unit] [.call Builtin.throw.name 1 .unit], .call "f" 2 .unit] := by
  intro unit bool interface expr
  have hform : ∃ term final, ofExpr interface expr {} = .ok term final := ⟨_, _, rfl⟩
  obtain ⟨term, final, h⟩ := hform
  exact ⟨term, final, h, (effect_order_kept h).trans rfl⟩

end Term

end IsaBackend
