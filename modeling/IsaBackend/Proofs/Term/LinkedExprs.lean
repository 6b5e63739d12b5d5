import IsaBackend.Proofs.Term.Forms
import IsaBackend.Proofs.Term.LinkedFlattening

/-!
# Linked expressions

Two expressions are alike if they differ in the names of their locals, and perhaps in ways that
further rules allow. Where one of them has an A-normal form so has the other, and the forms are alike.
The induction follows the relation.
-/

namespace IsaBackend

structure Binders [OwnNames] (name twin : String) : Prop where
  fit : Facts.Fit name twin
  left : ¬Secret name
  right : ¬Secret twin

/-- Further ways in which expressions may be alike. -/
abbrev ExprRules := List Link → Expr → Expr → Prop

def ExprRules.none : ExprRules := fun _ _ _ => False

section Alike

variable [OwnNames] (rules : ExprRules)

mutual

/-- Expressions that do the same in the scope of some links. -/
inductive Expr.Alike : List Link → Expr → Expr → Prop where
  | lit {links : List Link} (note : Note) (value : Literal) :
    Alike links (.lit note value) (.lit note value)
  | name {links : List Link} {name twin : String} (note : Note) : Link.Same links name twin →
    Alike links (.name note name) (.name note twin)
  | refTo {links : List Link} {name twin : String} (note : Note) : Link.Same links name twin →
    Alike links (.refTo note name) (.refTo note twin)
  | refToGlobal {links : List Link} {name : String} (note : Note) : Link.Unbound links name →
    ¬Secret name → Alike links (.refTo note name) (.refTo note name)
  | block {links : List Link} {items twins : List Expr} (note : Note) :
    AlikeAll links items twins → Alike links (.block note items) (.block note twins)
  | cond {links : List Link} {test onTrue onFalse twinTest twinTrue twinFalse : Expr} (note : Note) :
    Alike links test twinTest → Alike links onTrue twinTrue → Alike links onFalse twinFalse →
    Alike links (.cond note test onTrue onFalse) (.cond note twinTest twinTrue twinFalse)
  | loop {links : List Link} {test body twinTest twinBody : Expr} (note : Note) (kind : LoopTest) :
    Alike links test twinTest → Alike links body twinBody →
    Alike links (.loop note kind test body) (.loop note kind twinTest twinBody)
  | count {links : List Link} {var twinVar : String}
    {first last step body twinFirst twinLast twinStep twinBody : Expr} (note : Note)
    (direction : Direction) : Binders var twinVar → Alike links first twinFirst →
    Alike links last twinLast → Alike links step twinStep →
    Alike (⟨var, twinVar, false⟩ :: links) body twinBody →
    Alike links (.count note var first last step direction body)
      (.count note twinVar twinFirst twinLast twinStep direction twinBody)
  | assign {links : List Link} {target twinTarget : String} {value twin : Expr} (note : Note) :
    Link.Same links target twinTarget → Alike links value twin →
    Alike links (.assign note (.name target) value) (.assign note (.name twinTarget) twin)
  | bind {links : List Link} {name twin : String} {init body twinInit twinBody : Expr} (note : Note) :
    Binders name twin → Alike links init twinInit →
    Alike (⟨name, twin, false⟩ :: links) body twinBody →
    Alike links (.bind note (.name name) init body) (.bind note (.name twin) twinInit twinBody)
  | bindTyped {links : List Link} {name twin : String} {init body twinInit twinBody : Expr}
    (note : Note) (ty : Ty) : Binders name twin → Alike links init twinInit →
    Alike (⟨name, twin, false⟩ :: links) body twinBody →
    Alike links (.bind note (.typed ty name) init body)
      (.bind note (.typed ty twin) twinInit twinBody)
  | bindUnnamed {links : List Link} {init body twinInit twinBody : Expr} (note : Note) :
    Alike links init twinInit → Alike links body twinBody →
    Alike links (.bind note .wildcard init body) (.bind note .wildcard twinInit twinBody)
  | var {links : List Link} {name twin : String} {init body twinInit twinBody : Expr} (note : Note) :
    Binders name twin → Alike links init twinInit →
    Alike (⟨name, twin, true⟩ :: links) body twinBody →
    Alike links (.var note (.name name) init body) (.var note (.name twin) twinInit twinBody)
  | cast {links : List Link} {inner twin : Expr} (note : Note) (ty : Ty) : Alike links inner twin →
    Alike links (.cast note ty inner) (.cast note ty twin)
  | strict {links : List Link} {expr twin : Expr} {parts twins : List Expr}
    {build : List Atom → Term} : expr.Strict parts build → twin.Strict twins build →
    expr.ty = twin.ty → AlikeAll links parts twins → Alike links expr twin
  | refused {links : List Link} {expr twin : Expr} {cause twinCause : CompileError} :
    expr.Refused cause → twin.Refused twinCause → expr.ty = twin.ty → Alike links expr twin
  | replace {links : List Link} {expr twin : Expr} : rules links expr twin → Alike links expr twin

inductive Expr.AlikeAll : List Link → List Expr → List Expr → Prop where
  | nil (links : List Link) : AlikeAll links [] []
  | cons {links : List Link} {expr twin : Expr} {exprs twins : List Expr} : Alike links expr twin →
    AlikeAll links exprs twins → AlikeAll links (expr :: exprs) (twin :: twins)

end

end Alike

def Link.flip (link : Link) : Link := ⟨link.right, link.left, link.mutable⟩

private theorem Link.Unbound.flip {links : List Link} {name : String}
    (h : Link.Unbound links name) : Link.Unbound (links.map Link.flip) name := by
  intro link hlink
  obtain ⟨original, horiginal, rfl⟩ := List.mem_map.mp hlink
  exact (h original horiginal).symm

section Exchange

variable [OwnNames]

private theorem Link.Same.flip {links : List Link} {left right : String}
    (h : Link.Same links left right) : Link.Same (links.map Link.flip) right left := by
  induction links with
  | nil =>
    obtain ⟨rfl, hown⟩ := h
    exact ⟨rfl, hown⟩
  | cons link rest ih =>
    rcases h with ⟨hleft, hright⟩ | ⟨hleft, hright, hrest⟩
    · exact .inl ⟨hright, hleft⟩
    · exact .inr ⟨hright, hleft, ih hrest⟩

private theorem Binders.symm {name twin : String} (h : Binders name twin) : Binders twin name :=
  ⟨h.fit.imp Eq.symm And.symm, h.right, h.left⟩

variable {rules back : ExprRules}

mutual

theorem Expr.Alike.symm (hback : ∀ {links : List Link} {expr twin : Expr}, rules links expr twin →
      back (links.map Link.flip) twin expr) : ∀ {links : List Link} {expr twin : Expr},
    Expr.Alike rules links expr twin → Expr.Alike back (links.map Link.flip) twin expr
  | _, _, _, .lit note value => .lit note value
  | _, _, _, .name note hsame => .name note hsame.flip
  | _, _, _, .refTo note hsame => .refTo note hsame.flip
  | _, _, _, .refToGlobal note hunbound hplain => .refToGlobal note hunbound.flip hplain
  | _, _, _, .block note hitems => .block note (hitems.symm hback)
  | _, _, _, .cond note htest htrue hfalse =>
    .cond note (htest.symm hback) (htrue.symm hback) (hfalse.symm hback)
  | _, _, _, .loop note kind htest hbody => .loop note kind (htest.symm hback) (hbody.symm hback)
  | _, _, _, .count note direction hnames hfirst hlast hstep hbody =>
    .count note direction hnames.symm (hfirst.symm hback) (hlast.symm hback) (hstep.symm hback)
      (hbody.symm hback)
  | _, _, _, .assign note hsame hvalue => .assign note hsame.flip (hvalue.symm hback)
  | _, _, _, .bind note hnames hinit hbody =>
    .bind note hnames.symm (hinit.symm hback) (hbody.symm hback)
  | _, _, _, .bindTyped note ty hnames hinit hbody =>
    .bindTyped note ty hnames.symm (hinit.symm hback) (hbody.symm hback)
  | _, _, _, .bindUnnamed note hinit hbody =>
    .bindUnnamed note (hinit.symm hback) (hbody.symm hback)
  | _, _, _, .var note hnames hinit hbody =>
    .var note hnames.symm (hinit.symm hback) (hbody.symm hback)
  | _, _, _, .cast note ty hinner => .cast note ty (hinner.symm hback)
  | _, _, _, .strict hexpr htwin hty hparts => .strict htwin hexpr hty.symm (hparts.symm hback)
  | _, _, _, .refused hexpr htwin hty => .refused htwin hexpr hty.symm
  | _, _, _, .replace hrules => .replace (hback hrules)

theorem Expr.AlikeAll.symm (hback : ∀ {links : List Link} {expr twin : Expr},
      rules links expr twin → back (links.map Link.flip) twin expr) :
    ∀ {links : List Link} {exprs twins : List Expr}, Expr.AlikeAll rules links exprs twins →
      Expr.AlikeAll back (links.map Link.flip) twins exprs
  | _, _, _, .nil _ => .nil _
  | _, _, _, .cons hexpr hrest => .cons (hexpr.symm hback) (hrest.symm hback)

end

end Exchange

section Flattening

variable [OwnNames] {rules : ExprRules} {interface : Interface}

/-- A-normal forms that are alike wherever the names in scope keep their meaning. -/
abbrev FormsAlike (links : List Link) (state other : FlatState) (term twin : Term)
    (after twinAfter : FlatState) : Prop :=
  FlattensAlike links state other after twinAfter [] [] fun more => Term.Alike more term twin

/-- Where one expression has an A-normal form so has the other, and the forms are alike. -/
def Expr.FormsMirror (interface : Interface) (links : List Link) (expr twin : Expr) : Prop :=
  ∀ {state other : FlatState}, FlatState.Linked links state other →
    Mirrors (Term.ofExpr interface expr) (Term.ofExpr interface twin) state other
      (FormsAlike links state other)

structure ExprRules.Sound (rules : ExprRules) (interface : Interface) : Prop where
  ty : ∀ {links : List Link} {expr twin : Expr}, rules links expr twin → expr.ty = twin.ty
  mirrors : ∀ {links : List Link} {expr twin : Expr}, rules links expr twin →
    expr.FormsMirror interface links twin

theorem ExprRules.sound_none (interface : Interface) : ExprRules.none.Sound interface :=
  ⟨fun h => h.elim, fun h => h.elim⟩

private theorem Expr.Alike.ty_eq (hrules : rules.Sound interface) {links : List Link}
    {expr twin : Expr} (h : Expr.Alike rules links expr twin) : expr.ty = twin.ty := by
  cases h with
  | strict _ _ hty _ => exact hty
  | refused _ _ hty => exact hty
  | replace hreplaces => exact hrules.ty hreplaces
  | _ => rfl

namespace Flattening

variable {links : List Link} {state other : FlatState}

omit [OwnNames] in
private theorem classify_mirrors_of_eq {name twin : String}
    (h : state.scope.classify interface name = other.scope.classify interface twin) :
    Mirrors (classify interface name) (classify interface twin) state other
      fun result twinResult after twinAfter =>
        (result = state.scope.classify interface name ∧ twinResult = result) ∧
          state = after ∧ other = twinAfter :=
  .of_ok rfl rfl ⟨⟨rfl, h.symm⟩, rfl, rfl⟩

private theorem classify_mirrors (h : FlatState.Linked links state other) {name twin : String}
    (hsame : Link.Same links name twin) :
    Mirrors (classify interface name) (classify interface twin) state other
      fun result twinResult after twinAfter =>
        (result = state.scope.classify interface name ∧ twinResult = result) ∧
          state = after ∧ other = twinAfter :=
  classify_mirrors_of_eq (h.classify hsame interface).1

private theorem operand_mirrors {expr twin : Expr} (h : expr.FormsMirror interface links twin)
    (hlinked : FlatState.Linked links state other) {α β : Type} {next : Atom × List Hoist → Flattening α}
    {twinNext : Atom × List Hoist → Flattening β} {good : α → β → FlatState → FlatState → Prop}
    (hnext : ∀ atom twinAtom hoists twins after twinAfter,
      FlattensAlike links state other after twinAfter hoists twins
        (fun more => atom.Alike more twinAtom) →
      Mirrors (next (atom, hoists)) (twinNext (twinAtom, twins)) after twinAfter good) :
    Mirrors (Term.ofExpr interface expr >>= fun term => hoist term >>= next)
      (Term.ofExpr interface twin >>= fun term => hoist term >>= twinNext) state other good := by
  refine (h hlinked).bind fun term twinTerm middle twinMiddle hterms => ?_
  refine (hoist_mirrors hterms).bind ?_
  rintro ⟨atom, hoists⟩ ⟨twinAtom, twins⟩ after twinAfter hatoms
  exact hnext atom twinAtom hoists twins after twinAfter hatoms

/-- A binding: the initialiser is flattened before the local is in scope. -/
theorem binding_mirrors (h : FlatState.Linked links state other) {name twin : String}
    (hnames : Binders name twin) (ty bodyTy : Ty) (mutable : Bool)
    {init twinInit body twinBody : Expr} (hinit : init.FormsMirror interface links twinInit)
    (hbody : body.FormsMirror interface (⟨name, twin, mutable⟩ :: links) twinBody) :
    Mirrors (do
        let init ← Term.ofExpr interface init
        let body ← within name ty mutable (Term.ofExpr interface body)
        return Term.bind name ty init body bodyTy)
      (do
        let init ← Term.ofExpr interface twinInit
        let body ← within twin ty mutable (Term.ofExpr interface twinBody)
        return Term.bind twin ty init body bodyTy) state other (FormsAlike links state other) := by
  refine (hinit h).bind fun initTerm twinInitTerm middle twinMiddle hinits => ?_
  have hmiddle := h.lead hinits.left hinits.right
  refine (within_mirrors hmiddle ty mutable (fun more hmore => hmore.cons _)
    (hbody (hmiddle.enter hnames.left hnames.right ty mutable))).bind ?_
  intro bodyTerm twinBodyTerm after twinAfter hbodies
  refine .pure ((hinits.followed h hbodies).mono fun more halike => ?_)
  exact .bind ty bodyTy mutable hnames.fit halike.1 halike.2

/-- A binding that the source cannot name. Its name is taken before anything else. -/
theorem unnamed_mirrors (h : FlatState.Linked links state other) (ty bodyTy : Ty)
    {init twinInit body twinBody : Expr} (hinit : init.FormsMirror interface links twinInit)
    (hbody : body.FormsMirror interface links twinBody) :
    Mirrors (do
        let name ← fresh
        let init ← Term.ofExpr interface init
        let body ← within name ty false (Term.ofExpr interface body)
        return Term.bind name ty init body bodyTy)
      (do
        let name ← fresh
        let init ← Term.ofExpr interface twinInit
        let body ← within name ty false (Term.ofExpr interface twinBody)
        return Term.bind name ty init body bodyTy) state other (FormsAlike links state other) := by
  have hfresh : FlattensAlike links state other { state with names := ⟨state.names.next + 1⟩ }
      { other with names := ⟨other.names.next + 1⟩ } [] [] fun _ => True :=
    ⟨⟨Nat.le_succ _, h.valid.like⟩, ⟨Nat.le_succ _, h.twinValid.like⟩,
      .nil (Nat.le_succ _) (Nat.le_succ _), fun more _ => .nil more, fun _ _ => trivial⟩
  refine Mirrors.bind (.of_ok rfl rfl ⟨rfl, rfl, rfl, rfl⟩ : Mirrors fresh fresh state other
    fun name twin after twinAfter => name = FreshNames.name state.names.next ∧
      twin = FreshNames.name other.names.next ∧
      after = { state with names := ⟨state.names.next + 1⟩ } ∧
      twinAfter = { other with names := ⟨other.names.next + 1⟩ }) ?_
  rintro _ _ _ _ ⟨rfl, rfl, rfl, rfl⟩
  have hstart := h.lead hfresh.left hfresh.right
  refine (hinit hstart).bind fun initTerm twinInitTerm middle twinMiddle hinits => ?_
  have hmiddle := hstart.lead hinits.left hinits.right
  refine (within_mirrors hmiddle ty false
    (fun more hmore => h.older.keeps hmore (Nat.le_refl _) (Nat.le_refl _) false)
    (hbody (hmiddle.enterUnnamed h.older ty false))).bind ?_
  intro bodyTerm twinBodyTerm after twinAfter hbodies
  refine .pure (((hfresh.followed h hinits).followed h hbodies).mono fun more halike => ?_)
  exact .bind ty bodyTy false (Facts.fit_of_own (own_name _) (own_name _)) halike.1.2 halike.2

end Flattening

private theorem Term.AlikeAll.ofItems {links : List Link} {terms twins : List Term}
    (h : Term.AlikeAll links terms twins) (ty : Ty) :
    Term.Alike links (Term.ofItems ty terms) (Term.ofItems ty twins) := by
  have hsplit : ∀ {terms twins : List Term}, Term.AlikeAll links terms twins →
      ∀ {first twinFirst : Term}, Term.Alike links first twinFirst →
        Term.AlikeAll links terms.dropLast twins.dropLast ∧
          Term.Alike links (terms.getLastD first) (twins.getLastD twinFirst) := by
    intro terms twins hall
    induction terms generalizing twins with
    | nil =>
      cases hall
      exact fun hfirst => ⟨.nil _, hfirst⟩
    | cons term rest ih =>
      intro first twinFirst _
      cases hall with
      | cons hterm hrest =>
        obtain ⟨hdrop, hlast⟩ := ih hrest hterm
        cases hrest with
        | nil => exact ⟨.nil _, hterm⟩
        | cons hnext hmore =>
          simp only [List.getLastD_cons] at hlast ⊢
          exact ⟨.cons hterm hdrop, hlast⟩
  cases h with
  | nil => exact .atom (.lit _ _)
  | cons hterm hrest =>
    cases hrest with
    | nil => exact hterm
    | cons hnext hmore =>
      obtain ⟨hdrop, hlast⟩ := hsplit (.cons hterm (.cons hnext hmore)) hterm
      exact .block ty hdrop hlast

private theorem fieldsAlike_zip {links : List Link} {values twins : List Atom} (keys : List String)
    (h : Atom.AlikeAll links values twins) :
    Atom.FieldsAlike links (keys.zip values) (keys.zip twins) := by
  induction keys generalizing values twins with
  | nil => exact .nil
  | cons key keys ih =>
    cases h with
    | nil => exact .nil
    | cons hvalue hrest => exact .cons key hvalue (ih hrest)

/-- A strict form has the same term on both sides, for atoms that are alike. -/
private theorem Expr.Strict.alike {expr : Expr} {parts : List Expr} {build : List Atom → Term}
    (hstrict : expr.Strict parts build) {links : List Link} {values twins : List Atom}
    (h : Atom.AlikeAll links values twins) : Term.Alike links (build values) (build twins) := by
  have hhead : Atom.Alike links (values.headD .unit) (twins.headD .unit) := by
    cases h with
    | nil => exact .lit _ _
    | cons hvalue _ => exact hvalue
  have htail : Atom.AlikeAll links values.tail twins.tail := by
    cases h with
    | nil => exact .nil
    | cons _ hrest => exact hrest
  cases hstrict with
  | tuple => exact .atom (.tuple h)
  | list => exact .atom (.list _ h)
  | vector => exact .atom (.vector _ h)
  | field => exact .field _ _ hhead
  | update => exact .update _ hhead (fieldsAlike_zip _ htail)
  | ret => exact .ret _ hhead
  | call | throw | exit | assert | cons => exact .call _ _ h

namespace Flattening

variable {links : List Link} {expr twin : Expr}

private theorem ofExprs_mirrors {exprs twins : List Expr}
    (hall : List.Forall₂ (Expr.FormsMirror interface links) exprs twins) {state other : FlatState}
    (h : FlatState.Linked links state other) :
    Mirrors (Term.ofExprs interface exprs) (Term.ofExprs interface twins) state other
      fun terms twinTerms after twinAfter =>
        FlattensAlike links state other after twinAfter [] [] fun more =>
          Term.AlikeAll more terms twinTerms := by
  induction hall generalizing state other with
  | nil => exact .pure (.refl h fun more _ => .nil more)
  | cons hexpr _ ih =>
    refine (hexpr h).bind fun term twin middle twinMiddle hterms => ?_
    refine (ih (h.lead hterms.left hterms.right)).bind fun terms twins after twinAfter hrests => ?_
    exact .pure ((hterms.followed h hrests).mono fun more halike => .cons halike.1 halike.2)

theorem atoms_mirrors {exprs twins : List Expr}
    (hall : List.Forall₂ (Expr.FormsMirror interface links) exprs twins) {state other : FlatState}
    (h : FlatState.Linked links state other) :
    Mirrors (Term.atoms interface exprs) (Term.atoms interface twins) state other
      fun result twinResult after twinAfter =>
        FlattensAlike links state other after twinAfter result.2 twinResult.2 fun more =>
          Atom.AlikeAll more result.1 twinResult.1 := by
  induction hall generalizing state other with
  | nil => exact .pure (.refl h fun more _ => .nil)
  | cons hexpr _ ih =>
    refine operand_mirrors hexpr h ?_
    intro atom twinAtom hoists twins middle twinMiddle hatoms
    refine (ih (h.lead hatoms.left hatoms.right)).bind ?_
    rintro ⟨atoms, moreHoists⟩ ⟨twinAtoms, moreTwins⟩ after twinAfter hrests
    exact .pure ((hatoms.append h hrests).mono fun more halike => .cons halike.1 halike.2)

private theorem mirrors_strict {parts twins : List Expr} {build : List Atom → Term}
    (hexpr : expr.Strict parts build) (htwin : twin.Strict twins build)
    (hall : List.Forall₂ (Expr.FormsMirror interface links) parts twins) :
    expr.FormsMirror interface links twin := by
  intro state other h
  rw [Term.ofExpr_strict hexpr, Term.ofExpr_strict htwin]
  refine (atoms_mirrors hall h).bind ?_
  rintro ⟨values, hoists⟩ ⟨twinValues, twins⟩ after twinAfter halikes
  exact .pure (halikes.mono fun more halike => hexpr.alike halike).wrap

private theorem mirrors_name {name twin : String} (note : Note) (hsame : Link.Same links name twin) :
    (Expr.name note name).FormsMirror interface links (.name note twin) := by
  intro state other h
  refine (classify_mirrors h hsame).bind ?_
  rintro _ _ _ _ ⟨⟨rfl, rfl⟩, rfl, rfl⟩
  refine .pure (.refl h fun more hmore => ?_)
  obtain ⟨hmoreSame, hclass⟩ := hmore _ _ hsame
  refine .atom (.name note.ty hmoreSame fun known hknown => ?_)
  rw [hclass] at hknown
  rcases (h.classify hsame interface).2 with ⟨binding, hbinding, hlocal⟩ | ⟨_, hnone⟩
  · rw [hbinding] at hknown
    rw [hlocal]
    exact Option.some.inj hknown
  · rw [hnone] at hknown
    cases hknown

private theorem mirrors_refTo {name twin : String} (note : Note) (hsame : Link.Same links name twin) :
    (Expr.refTo note name).FormsMirror interface links (.refTo note twin) := by
  intro state other h
  refine (classify_mirrors h hsame).bind ?_
  rintro _ _ _ _ ⟨⟨rfl, rfl⟩, rfl, rfl⟩
  rcases (h.classify hsame interface).2 with ⟨binding, _, hlocal⟩ | ⟨rfl, _⟩
  · rw [hlocal]
    cases binding.mutable with
    | true => exact .throw
    | false => exact .throw
  · split
    · exact .pure (.refl h fun more _ => .atom (.refTo _ _))
    · exact .throw

private theorem mirrors_refToGlobal {name : String} (note : Note)
    (hunbound : Link.Unbound links name) (hname : ¬Secret name) :
    (Expr.refTo note name).FormsMirror interface links (.refTo note name) := by
  intro state other h
  obtain ⟨hleft, hright⟩ := h.unbound name hunbound hname
  have hsame : state.scope.classify interface name = other.scope.classify interface name := by
    rw [Scope.classify, Scope.classify, hleft, hright]
  refine (classify_mirrors_of_eq hsame).bind ?_
  rintro _ _ _ _ ⟨⟨rfl, rfl⟩, rfl, rfl⟩
  split
  · exact .pure (.refl h fun more _ => .atom (.refTo _ _))
  · exact .throw

private theorem mirrors_assign {target twinTarget : String} (note : Note)
    (hsame : Link.Same links target twinTarget) (hvalue : expr.FormsMirror interface links twin) :
    (Expr.assign note (.name target) expr).FormsMirror interface links
      (.assign note (.name twinTarget) twin) := by
  intro state other h
  refine (classify_mirrors h hsame).bind ?_
  rintro _ _ _ _ ⟨⟨rfl, rfl⟩, rfl, rfl⟩
  split
  · rename_i cls ty hcls
    split
    · rename_i hassignable
      refine (hvalue h).bind fun value twin after twinAfter hvalues => ?_
      refine .pure ⟨hvalues.left, hvalues.right, hvalues.numbered, hvalues.inits,
        fun more (hmore : Link.Keeps links more) => ?_⟩
      obtain ⟨hmoreSame, hclass⟩ := hmore _ _ hsame
      refine .assign ty hmoreSame ?_ (hvalues.alike more hmore)
      rw [hclass]
      rintro himmutable
      rcases (h.classify hsame interface).2 with ⟨binding, hbinding, hlocal⟩ | ⟨_, hnone⟩
      · rw [himmutable] at hbinding
        rw [hlocal] at hcls
        cases hcls
        rw [← Option.some.inj hbinding] at hassignable
        cases hassignable
      · rw [hnone] at himmutable
        cases himmutable
    · exact .throw
  · exact .throw

private theorem mirrors_cond {test onTrue onFalse twinTest twinTrue twinFalse : Expr} (note : Note)
    (htest : test.FormsMirror interface links twinTest)
    (htrue : onTrue.FormsMirror interface links twinTrue)
    (hfalse : onFalse.FormsMirror interface links twinFalse) :
    (Expr.cond note test onTrue onFalse).FormsMirror interface links
      (.cond note twinTest twinTrue twinFalse) := by
  intro state other h
  refine operand_mirrors htest h ?_
  intro test twinTest hoists twins middle twinMiddle htests
  have hmiddle := h.lead htests.left htests.right
  refine (htrue hmiddle).bind fun onTrue twinTrue later twinLater hone => ?_
  have hlater := hmiddle.lead hone.left hone.right
  refine (hfalse hlater).bind fun onFalse twinFalse after twinAfter hno => ?_
  refine .pure (((htests.followed h hone).followed h hno).mono fun more halike => ?_).wrap
  exact .cond note.ty halike.1.1 halike.1.2 halike.2

private theorem mirrors_loop {test body twinTest twinBody : Expr} (note : Note) (kind : LoopTest)
    (htest : test.FormsMirror interface links twinTest)
    (hbody : body.FormsMirror interface links twinBody) :
    (Expr.loop note kind test body).FormsMirror interface links
      (.loop note kind twinTest twinBody) := by
  intro state other h
  refine (htest h).bind fun test twinTest middle twinMiddle htests => ?_
  have hmiddle := h.lead htests.left htests.right
  refine (hbody hmiddle).bind fun body twinBody after twinAfter hbodies => ?_
  exact .pure ((htests.followed h hbodies).mono fun more halike => .loop kind halike.1 halike.2)

private theorem mirrors_count {var twinVar : String}
    {first last step body twinFirst twinLast twinStep twinBody : Expr} (note : Note)
    (direction : Direction) (hnames : Binders var twinVar) (hty : first.ty = twinFirst.ty)
    (hfirst : first.FormsMirror interface links twinFirst)
    (hlast : last.FormsMirror interface links twinLast)
    (hstep : step.FormsMirror interface links twinStep)
    (hbody : body.FormsMirror interface (⟨var, twinVar, false⟩ :: links) twinBody) :
    (Expr.count note var first last step direction body).FormsMirror interface links
      (.count note twinVar twinFirst twinLast twinStep direction twinBody) := by
  intro state other h
  unfold Term.ofExpr
  rw [hty]
  refine operand_mirrors hfirst h ?_
  intro first twinFirst hoists twins one twinOne hfirsts
  refine operand_mirrors hlast (h.lead hfirsts.left hfirsts.right) ?_
  intro last twinLast moreHoists moreTwins two twinTwo hlasts
  have hboth := hfirsts.append h hlasts
  refine operand_mirrors hstep (h.lead hboth.left hboth.right) ?_
  intro step twinStep stillMore stillTwins three twinThree hsteps
  have hall := hboth.append h hsteps
  have hthree := h.lead hall.left hall.right
  refine (within_mirrors hthree _ false (fun more hmore => hmore.cons _)
    (hbody (hthree.enter hnames.left hnames.right _ false))).bind ?_
  intro body twinBody after twinAfter hbodies
  refine .pure ((hall.followed h hbodies).mono fun more halike => ?_).wrap
  exact .count direction hnames.fit halike.1.1.1 halike.1.1.2 halike.1.2 halike.2

mutual

/-- Expressions that are alike have A-normal forms that are alike. -/
theorem ofExpr_mirrors (hrules : rules.Sound interface) : ∀ {links : List Link} {expr twin : Expr},
    Expr.Alike rules links expr twin → expr.FormsMirror interface links twin
  | _, _, _, .lit note value, _, _, h => .pure (.refl h fun more _ => .atom (.lit value note.ty))
  | _, _, _, .name note hsame, _, _, h => mirrors_name note hsame h
  | _, _, _, .refTo note hsame, _, _, h => mirrors_refTo note hsame h
  | _, _, _, .refToGlobal note hunbound hname, _, _, h => mirrors_refToGlobal note hunbound hname h
  | _, _, _, .block note hitems, _, _, h =>
    (ofExprs_mirrors (alikeAll_mirror hrules hitems) h).bind fun _ _ _ _ hterms =>
      .pure (hterms.mono fun more halike => halike.ofItems note.ty)
  | _, _, _, .cond note htest htrue hfalse, _, _, h =>
    mirrors_cond note (ofExpr_mirrors hrules htest) (ofExpr_mirrors hrules htrue)
      (ofExpr_mirrors hrules hfalse) h
  | _, _, _, .loop note kind htest hbody, _, _, h =>
    mirrors_loop note kind (ofExpr_mirrors hrules htest) (ofExpr_mirrors hrules hbody) h
  | _, _, _, .count note direction hnames hfirst hlast hstep hbody, _, _, h =>
    mirrors_count note direction hnames (hfirst.ty_eq hrules) (ofExpr_mirrors hrules hfirst)
      (ofExpr_mirrors hrules hlast) (ofExpr_mirrors hrules hstep) (ofExpr_mirrors hrules hbody) h
  | _, _, _, .assign note hsame hvalue, _, _, h =>
    mirrors_assign note hsame (ofExpr_mirrors hrules hvalue) h
  | _, _, _, .bind note hnames hinit hbody, _, _, h => by
    unfold Term.ofExpr
    rw [hinit.ty_eq hrules]
    exact binding_mirrors h hnames _ note.ty false (ofExpr_mirrors hrules hinit)
      (ofExpr_mirrors hrules hbody)
  | _, _, _, .bindTyped note ty hnames hinit hbody, _, _, h =>
    binding_mirrors h hnames ty note.ty false (ofExpr_mirrors hrules hinit)
      (ofExpr_mirrors hrules hbody)
  | _, _, _, .bindUnnamed note hinit hbody, _, _, h => by
    unfold Term.ofExpr
    rw [hinit.ty_eq hrules]
    exact unnamed_mirrors h _ note.ty (ofExpr_mirrors hrules hinit) (ofExpr_mirrors hrules hbody)
  | _, _, _, .var note hnames hinit hbody, _, _, h => by
    unfold Term.ofExpr
    rw [hinit.ty_eq hrules]
    exact binding_mirrors h hnames _ note.ty true (ofExpr_mirrors hrules hinit)
      (ofExpr_mirrors hrules hbody)
  | _, _, _, .cast note ty hinner, _, _, h =>
    (ofExpr_mirrors hrules hinner h).bind fun _ _ _ _ hinners =>
      .pure (hinners.mono fun more halike => .cast ty halike)
  | _, _, _, .strict hexpr htwin _ hparts, _, _, h =>
    mirrors_strict hexpr htwin (alikeAll_mirror hrules hparts) h
  | _, _, _, .refused hrefused _ _, _, _, _ => by
    rw [Term.ofExpr_refused hrefused]
    exact .throw
  | _, _, _, .replace hreplaces, _, _, h => hrules.mirrors hreplaces h

theorem alikeAll_mirror (hrules : rules.Sound interface) :
    ∀ {links : List Link} {exprs twins : List Expr}, Expr.AlikeAll rules links exprs twins →
      List.Forall₂ (Expr.FormsMirror interface links) exprs twins
  | _, _, _, .nil _ => .nil
  | _, _, _, .cons hexpr hrest => .cons (ofExpr_mirrors hrules hexpr) (alikeAll_mirror hrules hrest)

end

end Flattening

end Flattening

end IsaBackend
