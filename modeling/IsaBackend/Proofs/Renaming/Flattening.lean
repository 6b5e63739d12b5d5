import IsaBackend.Proofs.Renaming.Terms

/-!
# Flattening for every start of the supply

Each step of flattening is uniform: names are compared with names that move along, and the variables of
the expression itself stay where they are.
-/

namespace IsaBackend

open FreshNames (shift IsGenerated shift_injective shift_of_not_generated)
open Movable (move)

/-- Terms for every start of the supply that differ in the numbers of generated names only. -/
def TermMoves (values : Nat → Term) : Prop :=
  ∃ term : Term, term.Proper ∧ values = fun offset => term.rename (shift offset)

private theorem TermMoves.congr {values others : Nat → Term} (h : TermMoves values)
    (hsame : ∀ offset, others offset = values offset) : TermMoves others := by
  obtain rfl : others = values := funext hsame
  exact h

def HoistMoves (values : Nat → Atom × List Hoist) : Prop :=
  ∃ (atom : Atom) (hoists : List Hoist), atom.Proper ∧ (∀ hoist ∈ hoists, hoist.init.Proper) ∧
    values = fun offset =>
      (atom.rename (shift offset), hoists.map (Hoist.rename (shift offset)))

namespace Flattening

variable {α : Type} {interface : Interface} {state : FlatState}

private theorem fresh_uniform : Uniform (fun _ => fresh) state fun values _ =>
    values = fun offset => shift offset (FreshNames.name state.names.next) := by
  refine .inl ⟨_, { state with names := ⟨state.names.next + 1⟩ }, fun offset => ?_, rfl⟩
  rw [FreshNames.shift_name]
  have hnext : state.names.next + offset + 1 = state.names.next + 1 + offset := by omega
  exact congrArg (fun next => EStateM.Result.ok (FreshNames.name (state.names.next + offset))
    (FlatState.mk (state.scope.rename (shift offset)) ⟨next⟩)) hnext

private theorem classify_uniform {name : String} (hname : ¬IsGenerated name) :
    Uniform (fun _ => classify interface name) state fun values after =>
      values = (fun _ => state.scope.classify interface name) ∧ after = state := by
  refine .inl ⟨_, state, fun offset => ?_, rfl, rfl⟩
  have hget : (state.scope.rename (shift offset)).get? name = state.scope.get? name := by
    have hsame := state.scope.get?_rename (shift_injective offset) name
    rwa [shift_of_not_generated hname] at hsame
  have hclassify : (state.scope.rename (shift offset)).classify interface name =
      state.scope.classify interface name := by
    simp only [Scope.classify, hget]
  exact congrArg (fun cls => EStateM.Result.ok cls (move offset state)) hclassify

private theorem within_uniform (state : FlatState) (name : String) (ty : Ty) (mutable : Bool)
    {bodies : Nat → Flattening α} {good : (Nat → α) → Prop}
    (h : ∀ state, Uniform bodies state fun values _ => good values) :
    Uniform (fun offset => within (shift offset name) ty mutable (bodies offset)) state
      fun values _ => good values := by
  let inner : FlatState := { state with scope := state.scope.enter.declare name ty mutable }
  have henter : ∀ offset, FlatState.mk
      (((state.scope.rename (shift offset)).enter).declare (shift offset name) ty mutable)
      (move offset state.names) = move offset inner := by
    intro offset
    have hdeclare := state.scope.enter.rename_declare (shift_injective offset) name ty mutable
    exact congrArg (FlatState.mk · (move offset state.names)) hdeclare.symm
  refine (Uniform.modify inner henter).bind ?_
  rintro _ _ rfl
  refine ((h inner).ensuring (fun state => { state with scope := state.scope.leave }) ?_).mono ?_
  · intro offset final
    have hleave := final.scope.rename_leave (shift_injective offset)
    exact congrArg (FlatState.mk · (move offset final.names)) hleave.symm
  · rintro values _ ⟨_, hgood, _⟩
    exact hgood

private theorem hoist_uniform {values : Nat → Term} (h : TermMoves values) :
    Uniform (fun offset => hoist (values offset)) state fun results _ => HoistMoves results := by
  obtain ⟨term, hproper, rfl⟩ := h
  have hcomputes : Uniform (fun offset => do
      let name ← fresh
      return (Atom.name name .immutableLocal (term.rename (shift offset)).ty,
        [Hoist.mk name (term.rename (shift offset)).ty (term.rename (shift offset))]))
      state fun results _ => HoistMoves results := by
    refine fresh_uniform.bind ?_
    rintro _ _ rfl
    refine Uniform.pure ⟨.name (FreshNames.name state.names.next) .immutableLocal term.ty,
      [⟨FreshNames.name state.names.next, term.ty, term⟩], ?_, ?_, ?_⟩
    · exact fun hcls => nomatch hcls
    · exact List.forall_mem_singleton.mpr hproper
    · funext offset
      simp only [Term.ty_rename, Atom.rename, List.map_cons, List.map_nil, Hoist.rename]
  cases term with
  | atom value =>
    exact Uniform.pure ⟨value, [], hproper, fun _ hmem => absurd hmem List.not_mem_nil, rfl⟩
  | _ => exact hcomputes

private theorem operand_uniform {terms : Nat → Flattening Term}
    {nexts : Nat → Atom × List Hoist → Flattening α} {good : (Nat → α) → FlatState → Prop}
    (h : Uniform terms state fun values _ => TermMoves values)
    (hnext : ∀ (atom : Atom) (hoists : List Hoist) (after : FlatState), atom.Proper →
      (∀ hoist ∈ hoists, hoist.init.Proper) →
      Uniform (fun offset => nexts offset
        (atom.rename (shift offset), hoists.map (Hoist.rename (shift offset)))) after good) :
    Uniform (fun offset => terms offset >>= fun term => hoist term >>= nexts offset) state good := by
  refine h.bind fun values middle hvalues => ?_
  refine (hoist_uniform hvalues).bind ?_
  rintro _ after ⟨atom, hoists, hatom, hhoists, rfl⟩
  exact hnext atom hoists after hatom hhoists

end Flattening

namespace Term

open Flattening

variable {interface : Interface}

/-- A term without generated names is the same for every start of the supply. -/
private theorem moves_of_fixed {term : Term} (hproper : term.Proper)
    (hfixed : ∀ offset, term.rename (shift offset) = term) : TermMoves fun _ => term :=
  ⟨term, hproper, funext fun offset => (hfixed offset).symm⟩

private theorem moves_wrap {hoists : List Hoist} (hhoists : ∀ hoist ∈ hoists, hoist.init.Proper)
    (body : Term) (hbody : body.Proper) :
    TermMoves fun offset =>
      wrap (hoists.map (Hoist.rename (shift offset))) (body.rename (shift offset)) :=
  ⟨wrap hoists body, proper_wrap hhoists hbody, funext fun _ => (rename_wrap _ hoists body).symm⟩

private theorem ofPattern_uniform (pos : Position) (ty : Ty) (pattern : Pattern)
    (hnames : ∀ name ∈ Expr.patternName pattern, ¬IsGenerated name) (state : FlatState) :
    Uniform (fun _ => ofPattern pos ty pattern) state fun values _ =>
      ∃ name ty, values = fun offset => (shift offset name, ty) := by
  cases pattern with
  | name key =>
    have hkey := hnames key List.mem_cons_self
    exact Uniform.pure ⟨key, ty, funext fun offset => by rw [shift_of_not_generated hkey]⟩
  | typed other key =>
    have hkey := hnames key List.mem_cons_self
    exact Uniform.pure ⟨key, other, funext fun offset => by rw [shift_of_not_generated hkey]⟩
  | wildcard =>
    refine fresh_uniform.bind ?_
    rintro _ _ rfl
    exact Uniform.pure ⟨_, ty, rfl⟩
  | tuple elems => exact Uniform.throw (.same _)

def FlatUniform (interface : Interface) (expr : Expr) : Prop :=
  ∀ state, (∀ name ∈ expr.vars, ¬IsGenerated name) →
    Uniform (fun _ => ofExpr interface expr) state fun values _ => TermMoves values

private theorem ofExprs_uniform {exprs : List Expr} (hexprs : ∀ expr ∈ exprs, FlatUniform interface expr)
    (state : FlatState) (h : ∀ name ∈ Expr.varsAll exprs, ¬IsGenerated name) :
    Uniform (fun _ => ofExprs interface exprs) state fun values _ =>
      ∃ terms, ProperAll terms ∧ values = fun offset => renameAll (shift offset) terms := by
  induction exprs generalizing state with
  | nil => exact Uniform.pure ⟨[], trivial, rfl⟩
  | cons expr rest ih =>
    obtain ⟨hexpr, hexprs⟩ := List.forall_mem_cons.mp hexprs
    obtain ⟨hfirst, hrest⟩ := List.forall_mem_append.mp h
    refine (hexpr state hfirst).bind ?_
    rintro _ middle ⟨term, hterm, rfl⟩
    refine (ih hexprs middle hrest).bind ?_
    rintro _ _ ⟨terms, hterms, rfl⟩
    exact Uniform.pure ⟨term :: terms, ⟨hterm, hterms⟩, rfl⟩

private theorem atoms_uniform {exprs : List Expr} (hexprs : ∀ expr ∈ exprs, FlatUniform interface expr)
    (state : FlatState) (h : ∀ name ∈ Expr.varsAll exprs, ¬IsGenerated name) :
    Uniform (fun _ => atoms interface exprs) state fun values _ =>
      ∃ (atoms : List Atom) (hoists : List Hoist), Atom.ProperAll atoms ∧
        atoms.length = exprs.length ∧ (∀ hoist ∈ hoists, hoist.init.Proper) ∧
        values = fun offset =>
          (Atom.renameAll (shift offset) atoms, hoists.map (Hoist.rename (shift offset))) := by
  induction exprs generalizing state with
  | nil => exact Uniform.pure ⟨[], [], trivial, rfl, nofun, rfl⟩
  | cons expr rest ih =>
    obtain ⟨hexpr, hexprs⟩ := List.forall_mem_cons.mp hexprs
    obtain ⟨hfirst, hrest⟩ := List.forall_mem_append.mp h
    refine operand_uniform (hexpr state hfirst) ?_
    intro value hoists middle hvalue hhoists
    refine (ih hexprs middle hrest).bind ?_
    rintro _ _ ⟨values, moreHoists, hvalues, hlength, hmore, rfl⟩
    refine Uniform.pure ⟨value :: values, hoists ++ moreHoists, ⟨hvalue, hvalues⟩,
      congrArg (· + 1) hlength, List.forall_mem_append.mpr ⟨hhoists, hmore⟩, ?_⟩
    funext offset
    simp only [Atom.renameAll, List.map_append]

private theorem renameFields_zip (change : String → String) (keys : List String)
    (values : List Atom) : Atom.renameFields change (keys.zip values) =
      keys.zip (Atom.renameAll change values) := by
  induction keys generalizing values with
  | nil => rfl
  | cons key keys ih =>
    cases values with
    | nil => rfl
    | cons value values => exact congrArg (List.cons (key, value.rename change)) (ih values)

private theorem properFields_zip (keys : List String) {values : List Atom}
    (h : Atom.ProperAll values) : Atom.ProperFields (keys.zip values) := by
  induction keys generalizing values with
  | nil => trivial
  | cons key keys ih =>
    cases values with
    | nil => trivial
    | cons value values => exact ⟨h.1, ih h.2⟩

/-- The term of a strict form takes atoms that move. -/
private theorem strict_moves {expr : Expr} {parts : List Expr} {build : List Atom → Term}
    (h : expr.Strict parts build) {values : List Atom} (hproper : Atom.ProperAll values)
    (hlength : values.length = parts.length) :
    (build values).Proper ∧ ∀ change : String → String,
      (build values).rename change = build (Atom.renameAll change values) := by
  cases h with
  | field | ret =>
    obtain ⟨value, rfl⟩ := List.length_eq_one_iff.mp hlength
    exact ⟨hproper.1, fun _ => rfl⟩
  | update note record fields =>
    match values with
    | value :: rest =>
      exact ⟨⟨hproper.1, properFields_zip _ hproper.2⟩, fun change =>
        congrArg (Term.update (value.rename change) · note.ty) (renameFields_zip change _ rest)⟩
  | _ => exact ⟨hproper, fun _ => rfl⟩

private theorem uniform_strict {expr : Expr} {parts : List Expr} {build : List Atom → Term}
    (h : expr.Strict parts build) (hparts : ∀ part ∈ parts, FlatUniform interface part) :
    FlatUniform interface expr := by
  intro state hvars
  simp only [ofExpr_strict h]
  refine (atoms_uniform hparts state (h.vars_eq ▸ hvars)).bind ?_
  rintro _ _ ⟨values, hoists, hvalues, hlength, hhoists, rfl⟩
  obtain ⟨hproper, hrename⟩ := strict_moves h hvalues hlength
  refine Uniform.pure ((moves_wrap hhoists (build values) hproper).congr fun offset => ?_)
  rw [hrename]

private theorem uniform_name (note : Note) (name : String) :
    FlatUniform interface (.name note name) := by
  intro state h
  have hname := h name List.mem_cons_self
  refine (classify_uniform hname).bind ?_
  rintro _ _ ⟨rfl, rfl⟩
  refine Uniform.pure (moves_of_fixed (fun _ => hname) fun offset => ?_)
  simp only [rename, Atom.rename, shift_of_not_generated hname]

private theorem uniform_refTo (note : Note) (name : String) :
    FlatUniform interface (.refTo note name) := by
  intro state h
  refine (classify_uniform (h name List.mem_cons_self)).bind ?_
  rintro _ here ⟨rfl, rfl⟩
  simp only
  split
  · exact Uniform.pure (moves_of_fixed trivial fun _ => rfl)
  · exact Uniform.throw (.same _)

private theorem uniform_assign {value : Expr} (note : Note) (target : String)
    (hvalue : FlatUniform interface value) :
    FlatUniform interface (.assign note (.name target) value) := by
  intro state h
  obtain ⟨htarget, hvars⟩ := List.forall_mem_cons.mp h
  refine (classify_uniform htarget).bind ?_
  rintro _ here ⟨rfl, rfl⟩
  simp only
  split
  next cls ty _ =>
    split
    · refine (hvalue here hvars).bind ?_
      rintro _ _ ⟨term, hterm, rfl⟩
      refine Uniform.pure ⟨.assign target ty term, ⟨htarget, hterm⟩, funext fun offset => ?_⟩
      simp only [rename, shift_of_not_generated htarget]
    · exact Uniform.throw (.same _)
  next => exact Uniform.throw (.same _)

private theorem uniform_count {first last step body : Expr} (note : Note) (index : String)
    (direction : Direction) (hfirst : FlatUniform interface first)
    (hlast : FlatUniform interface last) (hstep : FlatUniform interface step)
    (hbody : FlatUniform interface body) :
    FlatUniform interface (.count note index first last step direction body) := by
  intro state h
  obtain ⟨h, hbodyVars⟩ := List.forall_mem_append.mp h
  obtain ⟨h, hstepVars⟩ := List.forall_mem_append.mp h
  obtain ⟨h, hlastVars⟩ := List.forall_mem_append.mp h
  obtain ⟨hindex, hfirstVars⟩ := List.forall_mem_cons.mp h
  refine operand_uniform (hfirst state hfirstVars) ?_
  intro firstAtom hoists second hfirstAtom hhoists
  refine operand_uniform (hlast second hlastVars) ?_
  intro lastAtom moreHoists third hlastAtom hmore
  refine operand_uniform (hstep third hstepVars) ?_
  intro stepAtom stillMore fourth hstepAtom hstill
  have hwithin := within_uniform fourth index first.ty false fun inner => hbody inner hbodyVars
  simp only [shift_of_not_generated hindex] at hwithin
  refine hwithin.bind ?_
  rintro _ _ ⟨term, hterm, rfl⟩
  have hall := List.forall_mem_append.mpr ⟨List.forall_mem_append.mpr ⟨hhoists, hmore⟩, hstill⟩
  refine Uniform.pure ((moves_wrap hall (.count index firstAtom lastAtom stepAtom direction term)
    ⟨hfirstAtom, hlastAtom, hstepAtom, hterm⟩).congr ?_)
  intro offset
  simp only [List.map_append, rename, shift_of_not_generated hindex]

private theorem uniform_cond {test onTrue onFalse : Expr} (note : Note)
    (htest : FlatUniform interface test) (htrue : FlatUniform interface onTrue)
    (hfalse : FlatUniform interface onFalse) :
    FlatUniform interface (.cond note test onTrue onFalse) := by
  intro state h
  obtain ⟨h, hfalseVars⟩ := List.forall_mem_append.mp h
  obtain ⟨htestVars, htrueVars⟩ := List.forall_mem_append.mp h
  refine operand_uniform (htest state htestVars) ?_
  intro testAtom hoists second htestAtom hhoists
  refine (htrue second htrueVars).bind ?_
  rintro _ third ⟨trueTerm, htrueTerm, rfl⟩
  refine (hfalse third hfalseVars).bind ?_
  rintro _ _ ⟨falseTerm, hfalseTerm, rfl⟩
  exact Uniform.pure (moves_wrap hhoists (.cond testAtom trueTerm falseTerm note.ty)
    ⟨htestAtom, htrueTerm, hfalseTerm⟩)

private theorem uniform_bind {init body : Expr} (note : Note) (pattern : Pattern)
    (hinit : FlatUniform interface init) (hbody : FlatUniform interface body) :
    FlatUniform interface (.bind note pattern init body) := by
  intro state h
  obtain ⟨h, hbodyVars⟩ := List.forall_mem_append.mp h
  obtain ⟨hpattern, hinitVars⟩ := List.forall_mem_append.mp h
  refine (ofPattern_uniform note.pos init.ty pattern hpattern state).bind ?_
  rintro _ second ⟨name, ty, rfl⟩
  refine (hinit second hinitVars).bind ?_
  rintro _ third ⟨initTerm, hinitTerm, rfl⟩
  refine (within_uniform third name ty false fun inner => hbody inner hbodyVars).bind ?_
  rintro _ _ ⟨bodyTerm, hbodyTerm, rfl⟩
  exact Uniform.pure ⟨.bind name ty initTerm bodyTerm note.ty, ⟨hinitTerm, hbodyTerm⟩, rfl⟩

private theorem uniform_var {init body : Expr} (note : Note) (name : String)
    (hinit : FlatUniform interface init) (hbody : FlatUniform interface body) :
    FlatUniform interface (.var note (.name name) init body) := by
  intro state h
  obtain ⟨h, hbodyVars⟩ := List.forall_mem_append.mp h
  obtain ⟨hname, hinitVars⟩ := List.forall_mem_cons.mp h
  refine (hinit state hinitVars).bind ?_
  rintro _ second ⟨initTerm, hinitTerm, rfl⟩
  have hwithin := within_uniform second name init.ty true fun inner => hbody inner hbodyVars
  simp only [shift_of_not_generated hname] at hwithin
  refine hwithin.bind ?_
  rintro _ _ ⟨bodyTerm, hbodyTerm, rfl⟩
  refine Uniform.pure ⟨.bind name init.ty initTerm bodyTerm note.ty, ⟨hinitTerm, hbodyTerm⟩, ?_⟩
  funext offset
  simp only [rename, shift_of_not_generated hname]

theorem ofExpr_uniform (expr : Expr) : FlatUniform interface expr := by
  induction expr using Expr.formInduction with
  | lit note value => exact fun _ _ => Uniform.pure (moves_of_fixed trivial fun _ => rfl)
  | name note name => exact uniform_name note name
  | refTo note name => exact uniform_refTo note name
  | block note items ih =>
    intro state h
    refine (ofExprs_uniform ih state h).bind ?_
    rintro _ _ ⟨terms, hterms, rfl⟩
    exact Uniform.pure ⟨ofItems note.ty terms, proper_ofItems note.ty hterms,
      funext fun offset => (rename_ofItems _ note.ty terms).symm⟩
  | assign note target value hvalue => exact uniform_assign note target hvalue
  | loop note kind test body htest hbody =>
    intro state h
    obtain ⟨htestVars, hbodyVars⟩ := List.forall_mem_append.mp h
    refine (htest state htestVars).bind ?_
    rintro _ middle ⟨testTerm, htestTerm, rfl⟩
    refine (hbody middle hbodyVars).bind ?_
    rintro _ _ ⟨bodyTerm, hbodyTerm, rfl⟩
    exact Uniform.pure ⟨.loop kind testTerm bodyTerm, ⟨htestTerm, hbodyTerm⟩, rfl⟩
  | count note index first last step direction body hfirst hlast hstep hbody =>
    exact uniform_count note index direction hfirst hlast hstep hbody
  | cond note test onTrue onFalse htest htrue hfalse => exact uniform_cond note htest htrue hfalse
  | bind note pattern init body hinit hbody => exact uniform_bind note pattern hinit hbody
  | var note name init body hinit hbody => exact uniform_var note name hinit hbody
  | cast note ty inner hinner =>
    intro state h
    refine (hinner state h).bind ?_
    rintro _ _ ⟨term, hterm, rfl⟩
    exact Uniform.pure ⟨.cast term ty, hterm, rfl⟩
  | strict expr parts build h hparts => exact uniform_strict h hparts
  | refused expr cause h =>
    intro state _
    simp only [ofExpr_refused h]
    exact Uniform.throw (.same cause)

end Term

namespace Term

variable {change : String → String} (hinj : Function.Injective change)
  (around : Surroundings)

include hinj

private theorem constant?_rename (known : KnownConstants) (atom : Atom) :
    constant? (known.mapNames change (Inline.rename change)) (atom.rename change) =
      (constant? known atom).map (Inline.rename change) := by
  cases atom with
  | name key cls ty =>
    cases cls with
    | immutableLocal => exact NameTable.get?_mapNames hinj known key
    | _ => rfl
  | lit value ty => exact (Inline.rename_ofLiteral? change value).symm
  | _ => rfl

private theorem wordConstant?_rename (known : KnownConstants) (atom : Atom) :
    wordConstant? (known.mapNames change (Inline.rename change)) (atom.rename change) =
      (wordConstant? known atom).map (Inline.rename change) := by
  simp only [wordConstant?, constant?_rename hinj]
  cases constant? known atom with
  | none => rfl
  | some expr =>
    simp only [Option.map_some, Option.filter_some, Inline.fitsMachineWord_rename]
    split <;> rfl

private theorem fused?_rename (known : KnownConstants) (left right : Atom) (ty : Ty)
    (primitive : FusedPrimitive) :
    fused? around (known.mapNames change (Inline.rename change)) (left.rename change)
        (right.rename change) ty primitive =
      (fused? around known left right ty primitive).map (Inline.rename change) := by
  cases primitive <;>
    simp only [fused?, Atom.ty_rename, wordConstant?_rename hinj]
  · split
    · cases wordConstant? known left <;> cases wordConstant? known right <;> rfl
    · rfl
  · cases Rep.packedWidth? around ty <;> cases Rep.packedWidth? around left.ty <;>
      cases Rep.packedWidth? around right.ty <;> cases wordConstant? known left <;>
      cases wordConstant? known right <;> rfl
  · cases Rep.packedWidth? around ty <;> cases Rep.packedWidth? around left.ty <;>
      cases Rep.packedWidth? around right.ty <;> cases wordConstant? known left <;>
      cases wordConstant? known right <;> rfl

private theorem fuseCall_rename (known : KnownConstants) (callee : String) (args : List Atom)
    (ty : Ty) : fuseCall around (known.mapNames change (Inline.rename change)) callee
        (Atom.renameAll change args) ty =
      (fuseCall around known callee args ty).rename change := by
  unfold fuseCall
  cases FusedPrimitive.ofName? callee with
  | none => rfl
  | some primitive =>
    match args with
    | [] => rfl
    | [_] => rfl
    | [left, right] =>
      simp only [Atom.renameAll, fused?_rename hinj]
      cases fused? around known left right ty primitive <;> rfl
    | _ :: _ :: _ :: _ => rfl

omit hinj in
private theorem boundConstant?_rename (ty : Ty) (term : Term) :
    boundConstant? ty (term.rename change) =
      (boundConstant? ty term).map (Inline.rename change) := by
  cases term with
  | atom value =>
    cases value with
    | inline expr exprTy =>
      simp only [rename, Atom.rename, boundConstant?, Inline.isLiteral_rename]
      split <;> rfl
    | lit value valueTy =>
      simp only [rename, Atom.rename, boundConstant?]
      split
      · exact (Inline.rename_ofLiteral? change value).symm
      · rfl
    | _ => rfl
  | _ => rfl

omit hinj

mutual

private theorem fuseIn_rename (hinj : Function.Injective change) (around : Surroundings) :
    ∀ (known : KnownConstants) (term : Term),
    fuseIn around (known.mapNames change (Inline.rename change)) (term.rename change) =
      (fuseIn around known term).rename change
  | known, .call callee args ty => fuseCall_rename hinj around known callee args ty
  | _, .atom _ => rfl
  | _, .ret _ _ => rfl
  | _, .field _ _ _ => rfl
  | _, .update _ _ _ => rfl
  | known, .cast inner ty => congrArg (Term.cast · ty) (fuseIn_rename hinj around known inner)
  | known, .assign target ty value =>
    congrArg (Term.assign (change target) ty) (fuseIn_rename hinj around known value)
  | known, .bind name ty init body bodyTy => by
    simp only [rename, fuseIn, fuseIn_rename hinj around known init, boundConstant?_rename]
    rw [← NameTable.mapNames_put hinj, fuseIn_rename hinj around _ body]
  | known, .block stmts last ty => by
    simp only [rename, fuseIn, fuseAll_rename hinj around known stmts,
      fuseIn_rename hinj around known last]
  | known, .cond test onTrue onFalse ty => by
    simp only [rename, fuseIn, fuseIn_rename hinj around known onTrue,
      fuseIn_rename hinj around known onFalse]
  | known, .count var first last step direction body => by
    simp only [rename, fuseIn, ← NameTable.mapNames_erase hinj,
      fuseIn_rename hinj around (known.erase var) body]
  | known, .loop kind test body => by
    simp only [rename, fuseIn, fuseIn_rename hinj around known test,
      fuseIn_rename hinj around known body]

theorem fuseAll_rename (hinj : Function.Injective change) (around : Surroundings) :
    ∀ (known : KnownConstants) (terms : List Term),
    fuseAll around (known.mapNames change (Inline.rename change)) (renameAll change terms) =
      renameAll change (fuseAll around known terms)
  | _, [] => rfl
  | known, term :: rest => by
    simp only [renameAll, fuseAll, fuseIn_rename hinj around known term,
      fuseAll_rename hinj around known rest]

end

theorem fuse_rename (hinj : Function.Injective change) (around : Surroundings) (term : Term) :
    (term.rename change).fuse around = (term.fuse around).rename change :=
  fuseIn_rename hinj around ∅ term

mutual

theorem fuseIn_proper (around : Surroundings) : ∀ (known : KnownConstants) (term : Term),
    term.Proper → (fuseIn around known term).Proper
  | known, .call callee args ty, h => by
    unfold fuseIn fuseCall
    split
    · split
      · trivial
      · exact h
    · exact h
  | _, .atom _, h => h
  | _, .ret _ _, h => h
  | _, .field _ _ _, h => h
  | _, .update _ _ _, h => h
  | known, .cast inner _, h => fuseIn_proper around known inner h
  | known, .assign _ _ value, ⟨htarget, hvalue⟩ =>
    ⟨htarget, fuseIn_proper around known value hvalue⟩
  | known, .bind _ _ init body _, ⟨hinit, hbody⟩ =>
    ⟨fuseIn_proper around known init hinit, fuseIn_proper around _ body hbody⟩
  | known, .block stmts last _, ⟨hstmts, hlast⟩ =>
    ⟨fuseAll_proper around known stmts hstmts, fuseIn_proper around known last hlast⟩
  | known, .cond _ onTrue onFalse _, ⟨htest, honTrue, honFalse⟩ =>
    ⟨htest, fuseIn_proper around known onTrue honTrue, fuseIn_proper around known onFalse honFalse⟩
  | _, .count _ _ _ _ _ body, ⟨hfirst, hlast, hstep, hbody⟩ =>
    ⟨hfirst, hlast, hstep, fuseIn_proper around _ body hbody⟩
  | known, .loop _ test body, ⟨htest, hbody⟩ =>
    ⟨fuseIn_proper around known test htest, fuseIn_proper around known body hbody⟩

theorem fuseAll_proper (around : Surroundings) : ∀ (known : KnownConstants) (terms : List Term),
    ProperAll terms → ProperAll (fuseAll around known terms)
  | _, [], _ => trivial
  | known, term :: rest, ⟨hfirst, hrest⟩ =>
    ⟨fuseIn_proper around known term hfirst, fuseAll_proper around known rest hrest⟩

end

end Term

end IsaBackend
