import IsaBackend.Proofs.Expr.Contexts
import IsaBackend.Proofs.Expr.Trivial

/-!
# Arguments that are bound before a call

The first argument of a call that computes can be bound to a name of its own before the call. What
comes before it is trivial and is read after it all the same, so the A-normal forms of the call and of
the binding differ in the name that the argument is bound to.
-/

namespace IsaBackend

open FreshNames (IsGenerated)

namespace Term

variable {interface : Interface}

variable {state middle final : FlatState} {expr : Expr} {exprs more : List Expr}

private theorem atoms_append (exprs more : List Expr) :
    atoms interface (exprs ++ more) = (do
      let (values, hoists) ← atoms interface exprs
      let (others, moreHoists) ← atoms interface more
      return (values ++ others, hoists ++ moreHoists)) := by
  induction exprs with
  | nil => simp [atoms]
  | cons expr rest ih => simp [atoms, ih]

private theorem atoms_through {value : Atom} {values others : List Atom} {hoists : List Hoist}
    {first : FlatState} (hexprs : atoms interface exprs state = .ok (values, []) first)
    (hexpr : ofExpr interface expr first = .ok (.atom value) middle)
    (hmore : atoms interface more middle = .ok (others, hoists) final) :
    atoms interface (exprs ++ expr :: more) state = .ok (values ++ value :: others, hoists) final := by
  rw [atoms_append]
  refine (bind_of_ok hexprs).trans ((bind_of_ok (?_ : atoms interface (expr :: more) first =
    .ok (value :: others, hoists) final)).trans rfl)
  exact (bind_of_ok hexpr).trans ((bind_of_ok rfl).trans ((bind_of_ok hmore).trans rfl))

/-- Where only the arguments before one are trivial, that argument is the first to be bound. -/
theorem atoms_computed {results : List Atom} {hoists : List Hoist}
    (hexprs : Expr.areTrivial exprs = true) (hexpr : expr.isTrivial = false)
    (h : atoms interface (exprs ++ expr :: more) state = .ok (results, hoists) final) :
    ∃ values first init second others moreHoists,
      atoms interface exprs state = .ok (values, []) first ∧
      ofExpr interface expr first = .ok init second ∧
      atoms interface more { second with names := ⟨second.names.next + 1⟩ } =
        .ok (others, moreHoists) final ∧
      results = values ++ .name (FreshNames.name second.names.next) .immutableLocal
        (expr.formTy interface) :: others ∧
      hoists = ⟨FreshNames.name second.names.next, expr.formTy interface, init⟩ :: moreHoists := by
  rw [atoms_append] at h
  obtain ⟨⟨values, none⟩, first, hvalues, h⟩ := bind_eq_ok.mp h
  obtain ⟨⟨rest, restHoists⟩, last, hrest, h⟩ := bind_eq_ok.mp h
  cases h
  obtain ⟨init, second, hinit, hrest⟩ := bind_eq_ok.mp hrest
  obtain ⟨⟨value, binding⟩, third, hhoist, hrest⟩ := bind_eq_ok.mp hrest
  obtain ⟨⟨others, moreHoists⟩, last, hothers, hrest⟩ := bind_eq_ok.mp hrest
  cases hrest
  have hnone : none = [] := by
    have hempty := (atoms_forms exprs state _ first hvalues).2
    rw [hexprs] at hempty
    exact List.isEmpty_iff.mp hempty
  have hforms := ofExpr_forms expr first init second hinit
  subst hnone
  refine ⟨values, first, init, second, others, moreHoists, hvalues, hinit, ?_⟩
  rw [← hforms.ty]
  have hcomputes := hforms.isAtom.trans hexpr
  cases init with
  | atom value => cases hcomputes
  | _ =>
    cases hhoist
    exact ⟨hothers, rfl, rfl⟩

end Term

namespace Expr

variable (interface : Interface)

def bindArg (note : Note) (fresh : String) (arg body : Expr) : Expr :=
  .bind note (.typed (arg.formTy interface) fresh) arg body

def argName (fresh : String) (arg : Expr) : Expr := .name ⟨arg.formTy interface, arg.note.pos⟩ fresh

/-- A call with its arguments in order: those that compute are bound to names one after the other, as
far as there are names, and the trivial ones stay where they are. -/
def sequenced (note : Note) (callee : String) : List String → List Expr → List Expr → Expr
  | fresh :: names, done, arg :: rest =>
    if arg.isTrivial then sequenced note callee (fresh :: names) (done ++ [arg]) rest
    else bindArg interface note fresh arg
      (sequenced note callee names (done ++ [argName interface fresh arg]) rest)
  | _, done, rest => .call note callee (done ++ rest)

section Names

variable {interface} {note : Note} {callee fresh name : String} {before after : List Expr} {arg : Expr}

theorem free_bindArg (h : name ∈ (bindArg interface note fresh arg
      (.call note callee (before ++ argName interface fresh arg :: after))).free) :
    name ∈ (call note callee (before ++ arg :: after)).free ∨ name = fresh := by
  simp only [bindArg, argName, free, freeAll_append, freeAll] at h ⊢
  grind

theorem bound_bindArg (h : name ∈ (bindArg interface note fresh arg
      (.call note callee (before ++ argName interface fresh arg :: after))).bound) :
    name ∈ (call note callee (before ++ arg :: after)).bound ∨ name = fresh := by
  simp only [bindArg, argName, bound, boundAll_append, boundAll, Pattern.names] at h ⊢
  grind

theorem vars_bindArg (h : name ∈ (bindArg interface note fresh arg
      (.call note callee (before ++ argName interface fresh arg :: after))).vars) :
    name ∈ (call note callee (before ++ arg :: after)).vars ∨ name = fresh := by
  simp only [bindArg, argName, vars, varsAll_append, varsAll, patternName] at h ⊢
  grind

end Names

end Expr

section Lifting

variable [OwnNames]

/-- The first argument of a call that computes is bound to a name before the call. -/
inductive ExprRules.lifting (interface : Interface) (fresh : String) : ExprRules where
  | call {links : List Link} {before after : List Expr} {arg : Expr} (note : Note)
    (callee : String) : Expr.areTrivial before = true → arg.isTrivial = false →
    Expr.AlikeAll .none links before before → Expr.Alike .none links arg arg →
    Expr.AlikeAll .none links after after →
    lifting interface fresh links (.call note callee (before ++ arg :: after))
      (.bindArg interface note fresh arg
        (.call note callee (before ++ .argName interface fresh arg :: after)))

variable {links more : List Link} {state other : FlatState}

/-- Names in scope keep their meaning when the next generated name is linked to a secret one. -/
theorem FlatState.Linked.keeps_secret (h : FlatState.Linked links state other) {name : String}
    (hsecret : Secret name) (hname : ¬IsGenerated name) {number : Nat}
    (hnumber : state.names.next ≤ number) (hmore : Link.Keeps links more) :
    Link.Keeps links (⟨FreshNames.name number, name, false⟩ :: more) := by
  intro key twin hsame
  obtain ⟨hmoreSame, hclass⟩ := hmore key twin hsame
  have hne : FreshNames.name number ≠ key := fun heq => by
    have := (h.older key twin hsame).1 number heq.symm
    omega
  have htwinNe : name ≠ twin := by
    rintro rfl
    exact hname ((h.plain key name hsame).2 hsecret)
  refine ⟨.inr ⟨hne, htwinNe, hmoreSame⟩, ?_⟩
  rw [Link.class?, if_neg hne, hclass]

private theorem lifted_alike (h : FlatState.Linked links state other) {name : String}
    (hsecret : Secret name) (hname : ¬IsGenerated name)
    (hfit : Own name ∨ name = Routine.resultParam) {two twinTwo three twinThree : FlatState}
    {values twinValues rest twinRest : List Atom} {hoists twins : List Hoist} {init twinInit : Term}
    {number : Nat} (hnumber : state.names.next ≤ number)
    (htwo : two.names.next = number + 1) (htwinTwo : other.names.next ≤ twinTwo.names.next)
    (hbefore : ∀ more, Link.Keeps links more → Atom.AlikeAll more values twinValues)
    (hinit : ∀ more, Link.Keeps links more → Term.Alike more init twinInit)
    (hafter : FlattensAlike links two twinTwo three twinThree hoists twins fun more =>
      Atom.AlikeAll more rest twinRest)
    (callee : String) (argTy ty : Ty) (hmore : Link.Keeps links more) :
    Term.Alike more
      (Term.wrap (⟨FreshNames.name number, argTy, init⟩ :: hoists)
        (.call callee (values ++ .name (FreshNames.name number) .immutableLocal argTy :: rest) ty))
      (.bind name argTy twinInit (Term.wrap twins
        (.call callee (twinValues ++ .name name .immutableLocal argTy :: twinRest) ty)) ty) := by
  have hlinked := h.keeps_secret hsecret hname hnumber hmore
  have holder : Link.Older (⟨FreshNames.name number, name, false⟩ :: links) two.names.next
      twinTwo.names.next := by
    refine (h.older.mono (by omega) htwinTwo).cons (fun key heq => ?_) fun key heq => ?_
    · rw [FreshNames.name_inj] at heq
      omega
    · exact absurd ⟨key, heq⟩ hname
  -- The new names keep their meaning in the scope of what the arguments after them take out.
  have hscope := hafter.numbered.keeps holder (hmore.cons _)
  have hvalues := hbefore _ ((h.keeps_secret hsecret hname hnumber (.refl links)).trans hscope)
  have hrest := hafter.alike _ (hlinked.ofHoists hoists twins)
  obtain ⟨hsame, hclass⟩ := hscope _ _ (.inl ⟨rfl, rfl⟩)
  have hsuits : Link.Suits _ (FreshNames.name number) .immutableLocal := fun known hknown =>
    Option.some.inj ((if_pos rfl : Link.class? (_ :: links) _ = _).symm.trans
      (hclass.symm.trans hknown))
  have hbody := (hafter.inits _ hlinked).wrap
    (.call callee ty (hvalues.append (.cons (.name argTy hsame hsuits) hrest)))
  change Term.Alike more (.bind (FreshNames.name number) argTy init (Term.wrap hoists _)
    (Term.wrap hoists _).ty) _
  rw [Term.wrap_ty]
  exact .bind argTy ty false (.inr ⟨.inl (own_name number), hfit⟩) (hinit more hmore) hbody

/-- A call and a call with its first computed argument bound before it have forms that are alike. -/
theorem ExprRules.lifting_sound (interface : Interface) {name : String} (hsecret : Secret name)
    (hname : ¬IsGenerated name) (hfit : Own name ∨ name = Routine.resultParam) :
    (ExprRules.lifting interface name).Sound interface where
  ty := by
    rintro _ _ _ ⟨_, _⟩
    rfl
  mirrors := by
    rintro links _ _ ⟨note, callee, htrivial, hcomputes, hbefore, harg, hafter⟩ state other h
    rename_i before after arg
    have hnone := ExprRules.sound_none interface
    intro result final hok
    obtain ⟨⟨args, hoists⟩, last, hargs, hpure⟩ := bind_eq_ok.mp hok
    cases hpure
    obtain ⟨values, first, init, second, rest, more, hvalues, hinit, hrest, rfl, rfl⟩ :=
      Term.atoms_computed htrivial hcomputes hargs
    obtain ⟨_, _, _, hstart⟩ :=
      Flattening.atoms_mirrors (Flattening.alikeAll_mirror hnone hbefore) h _ _ hvalues
    have hfirst := h.lead hstart.left ⟨Nat.le_refl _, h.twinValid.like⟩
    obtain ⟨twinInit, twinSecond, htwinInit, hinits⟩ :=
      Flattening.ofExpr_mirrors hnone harg hfirst _ _ hinit
    -- On the right the name is in scope of everything that comes after the argument.
    have henter : ∀ {reached : FlatState}, FlatState.Linked links reached twinSecond →
        FlatState.Linked links reached { twinSecond with
          scope := twinSecond.scope.enter.declare name (arg.formTy interface) false } :=
      fun hreached => hreached.enterSecret hsecret hname _ false
    obtain ⟨⟨twinValues, twinNone⟩, inner, htwinValues, hbefores⟩ :=
      Flattening.atoms_mirrors (Flattening.alikeAll_mirror hnone hbefore)
        (henter (h.lead ⟨Nat.le_refl _, h.valid.like⟩ hinits.right)) _ _ hvalues
    obtain rfl : twinNone = [] := by
      cases hbefores.numbered
      rfl
    have hsecond := hfirst.lead hinits.left hinits.right
    have hnext : second.Leads { second with names := ⟨second.names.next + 1⟩ } :=
      ⟨Nat.le_succ _, hsecond.valid.like⟩
    have hthird := (henter (hsecond.lead hnext ⟨Nat.le_refl _, hsecond.twinValid.like⟩)).lead
      ⟨Nat.le_refl _, hsecond.valid.like⟩ hbefores.right
    obtain ⟨⟨twinRest, twinMore⟩, innerLast, htwinRest, hafters⟩ :=
      Flattening.atoms_mirrors (Flattening.alikeAll_mirror hnone hafter) hthird _ _ hrest
    have hread : Term.ofExpr interface (.argName interface name arg) inner =
        .ok (.atom (.name name .immutableLocal (arg.formTy interface))) inner := by
      refine (bind_of_ok rfl).trans ?_
      rw [Scope.classify, hbefores.right.scope.get?, Scope.get?_declare, if_pos rfl]
      rfl
    have hcall := (bind_of_ok (Term.atoms_through htwinValues hread htwinRest) :
      Term.ofExpr interface (.call note callee
        (before ++ .argName interface name arg :: after)) _ = _)
    refine ⟨_, _, (bind_of_ok rfl).trans ((bind_of_ok htwinInit).trans ((bind_of_ok
      ((bind_of_ok rfl).trans (ensuring_eq_ok.mpr ⟨_, hcall, rfl⟩))).trans rfl)), ?_⟩
    have hinner := hbefores.right.trans hafters.right
    have hleft := hstart.left.trans (hinits.left.trans (hnext.trans hafters.left))
    have hright : other.Leads { innerLast with scope := innerLast.scope.leave } :=
      hinits.right.trans ⟨hinner.next, hinner.scope.leave hsecond.twinValid⟩
    refine ⟨hleft, hright, .nil hleft.next hright.next, fun more _ => .nil more, fun more hmore => ?_⟩
    exact lifted_alike h hsecret hname hfit (hstart.left.trans hinits.left).next rfl
      (Nat.le_trans hinits.right.next hbefores.right.next) hbefores.alike hinits.alike hafters callee
      (arg.formTy interface) note.ty hmore

end Lifting

end IsaBackend
