import IsaBackend.Proofs.Code.Match
import IsaBackend.Proofs.Term.Mentions

/-!
# Terms that are alike

The locals in scope in two terms are linked in pairs. A link shadows the links before it on both
sides, and a name that is bound on neither side stands for itself. A link notes whether its local can
be assigned to.

Two terms are alike if they differ in the names of their locals only.
-/

namespace IsaBackend

structure Link where
  left : String
  right : String
  mutable : Bool := false

namespace Link

def class? : List Link → String → Option NameClass
  | [], _ => none
  | link :: rest, name =>
    if link.left = name then some (if link.mutable then .mutableLocal else .immutableLocal)
    else class? rest name

/-- The links of parameters, which stand for each other in pairs. -/
def ofPairs (pairs : List (String × String)) : List Link :=
  pairs.map fun pair => ⟨pair.1, pair.2, false⟩

/-- A class that a name on the left can have: that of its link if it has one. -/
def Suits (links : List Link) (name : String) (cls : NameClass) : Prop :=
  ∀ known, class? links name = some known → cls = known

variable [OwnNames]

/-- Names that mean the same in the scope of some links. -/
def Same : List Link → String → String → Prop
  | [], left, right => left = right ∧ ¬Own left ∧ ¬Secret left
  | link :: rest, left, right =>
    link.left = left ∧ link.right = right ∨
      link.left ≠ left ∧ link.right ≠ right ∧ Same rest left right

/-- In the scope of parameters, the names that mean the same are those that stand for each other and
those that no side has for itself. -/
theorem same_ofPairs {pairs : List (String × String)} (h : Facts.Pairing pairs)
    {left right : String} :
    Same (ofPairs pairs) left right ↔
      (left, right) ∈ pairs ∨ left = right ∧ ¬Own left ∧ ¬Secret left := by
  induction pairs with
  | nil => simp [ofPairs, Same]
  | cons pair pairs ih =>
    change (pair.1 = left ∧ pair.2 = right ∨
      pair.1 ≠ left ∧ pair.2 ≠ right ∧ Same (ofPairs pairs) left right) ↔ _
    rw [ih (h.mono (List.subset_cons_self pair pairs))]
    constructor
    · rintro (⟨rfl, rfl⟩ | ⟨_, _, hsame⟩)
      · exact .inl List.mem_cons_self
      · exact hsame.imp_left (List.mem_cons_of_mem pair)
    · intro hsame
      have hiff := h.eq_iff List.mem_cons_self
        (hsame.imp_right fun ⟨heq, hown, _⟩ => (⟨heq, hown⟩ : left = right ∧ ¬Own left))
      by_cases hpair : pair.1 = left
      · exact .inl ⟨hpair, hiff.mp hpair⟩
      · refine .inr ⟨hpair, fun heq => hpair (hiff.mpr heq), hsame.imp_left fun hmem => ?_⟩
        exact (List.mem_cons.mp hmem).resolve_left fun heq => hpair (heq ▸ rfl)

theorem Same.facts {pairs : List (String × String)} {left right : String}
    (hsame : Same (ofPairs pairs) left right) (h : Facts.Pairing pairs) :
    Facts.Same { ties := pairs } left right :=
  ((same_ofPairs h).mp hsame).imp_right fun ⟨heq, hown, _⟩ => ⟨heq, hown⟩

end Link

section Atoms

variable [OwnNames]

mutual

/-- Atoms that mean the same in the scope of some links. -/
inductive Atom.Alike (links : List Link) : Atom → Atom → Prop where
  | lit (value : Literal) (ty : Ty) : Alike links (.lit value ty) (.lit value ty)
  | name {left right : String} {cls : NameClass} (ty : Ty) : Link.Same links left right →
    Link.Suits links left cls → Alike links (.name left cls ty) (.name right cls ty)
  | refTo (name : String) (ty : Ty) : Alike links (.refTo name ty) (.refTo name ty)
  | tuple {elems twins : List Atom} : AlikeAll links elems twins →
    Alike links (.tuple elems) (.tuple twins)
  | list {elems twins : List Atom} (ty : Ty) : AlikeAll links elems twins →
    Alike links (.list elems ty) (.list twins ty)
  | vector {elems twins : List Atom} (ty : Ty) : AlikeAll links elems twins →
    Alike links (.vector elems ty) (.vector twins ty)
  | inline {expr : Inline} (ty : Ty) : expr.names = [] →
    Alike links (.inline expr ty) (.inline expr ty)

inductive Atom.AlikeAll (links : List Link) : List Atom → List Atom → Prop where
  | nil : AlikeAll links [] []
  | cons {atom twin : Atom} {atoms twins : List Atom} : Alike links atom twin →
    AlikeAll links atoms twins → AlikeAll links (atom :: atoms) (twin :: twins)

end

inductive Atom.FieldsAlike (links : List Link) :
    List (String × Atom) → List (String × Atom) → Prop where
  | nil : FieldsAlike links [] []
  | cons {value twin : Atom} {fields twins : List (String × Atom)} (key : String) :
    value.Alike links twin → FieldsAlike links fields twins →
    FieldsAlike links ((key, value) :: fields) ((key, twin) :: twins)

variable {links : List Link}

mutual

theorem Atom.Alike.ty_eq : ∀ {atom twin : Atom}, atom.Alike links twin → atom.ty = twin.ty
  | _, _, .lit _ _ => rfl
  | _, _, .name _ _ _ => rfl
  | _, _, .refTo _ _ => rfl
  | _, _, .tuple h => by rw [Atom.ty, Atom.ty, h.tys_eq]
  | _, _, .list _ _ => rfl
  | _, _, .vector _ _ => rfl
  | _, _, .inline _ _ => rfl

theorem Atom.AlikeAll.tys_eq :
    ∀ {atoms twins : List Atom}, Atom.AlikeAll links atoms twins → Atom.tys atoms = Atom.tys twins
  | _, _, .nil => rfl
  | _, _, .cons h hrest => by rw [Atom.tys, Atom.tys, h.ty_eq, hrest.tys_eq]

end

theorem Atom.AlikeAll.append {atoms twins more moreTwins : List Atom}
    (h : Atom.AlikeAll links atoms twins) (hmore : Atom.AlikeAll links more moreTwins) :
    Atom.AlikeAll links (atoms ++ more) (twins ++ moreTwins) := by
  induction atoms generalizing twins with
  | nil =>
    cases h
    exact hmore
  | cons atom atoms ih =>
    cases h with
    | cons hatom hrest => exact .cons hatom (ih hrest)

theorem Atom.AlikeAll.length_eq {atoms twins : List Atom} (h : Atom.AlikeAll links atoms twins) :
    atoms.length = twins.length := by
  induction atoms generalizing twins with
  | nil =>
    cases h
    rfl
  | cons atom atoms ih =>
    cases h with
    | cons _ hrest => rw [List.length_cons, List.length_cons, ih hrest]

end Atoms

section Alike

variable [OwnNames]

mutual

/-- Terms that do the same in the scope of some links. -/
inductive Term.Alike : List Link → Term → Term → Prop where
  | atom {links : List Link} {value twin : Atom} : value.Alike links twin →
    Alike links (.atom value) (.atom twin)
  | call {links : List Link} {args twins : List Atom} (callee : String) (ty : Ty) :
    Atom.AlikeAll links args twins → Alike links (.call callee args ty) (.call callee twins ty)
  | cast {links : List Link} {inner twin : Term} (ty : Ty) : Alike links inner twin →
    Alike links (.cast inner ty) (.cast twin ty)
  | assign {links : List Link} {target twinTarget : String} {value twin : Term} (ty : Ty) :
    Link.Same links target twinTarget → Link.class? links target ≠ some .immutableLocal →
    Alike links value twin → Alike links (.assign target ty value) (.assign twinTarget ty twin)
  | bind {links : List Link} {name twin : String} {init twinInit body twinBody : Term}
    (ty bodyTy : Ty) (mutable : Bool) : Facts.Fit name twin → Alike links init twinInit →
    Alike (⟨name, twin, mutable⟩ :: links) body twinBody →
    Alike links (.bind name ty init body bodyTy) (.bind twin ty twinInit twinBody bodyTy)
  | block {links : List Link} {stmts twins : List Term} {last twinLast : Term} (ty : Ty) :
    AlikeAll links stmts twins → Alike links last twinLast →
    Alike links (.block stmts last ty) (.block twins twinLast ty)
  | ret {links : List Link} {value twin : Atom} (ty : Ty) : value.Alike links twin →
    Alike links (.ret value ty) (.ret twin ty)
  | cond {links : List Link} {test twinTest : Atom} {onTrue onFalse twinTrue twinFalse : Term}
    (ty : Ty) : test.Alike links twinTest → Alike links onTrue twinTrue →
    Alike links onFalse twinFalse →
    Alike links (.cond test onTrue onFalse ty) (.cond twinTest twinTrue twinFalse ty)
  | field {links : List Link} {record twin : Atom} (key : String) (ty : Ty) :
    record.Alike links twin → Alike links (.field record key ty) (.field twin key ty)
  | update {links : List Link} {record twin : Atom} {fields twins : List (String × Atom)} (ty : Ty) :
    record.Alike links twin → Atom.FieldsAlike links fields twins →
    Alike links (.update record fields ty) (.update twin twins ty)
  | count {links : List Link} {var twinVar : String}
    {first last step twinFirst twinLast twinStep : Atom} {body twinBody : Term}
    (direction : Direction) : Facts.Fit var twinVar → first.Alike links twinFirst →
    last.Alike links twinLast → step.Alike links twinStep →
    Alike (⟨var, twinVar, false⟩ :: links) body twinBody →
    Alike links (.count var first last step direction body)
      (.count twinVar twinFirst twinLast twinStep direction twinBody)
  | loop {links : List Link} {test twinTest body twinBody : Term} (kind : LoopTest) :
    Alike links test twinTest → Alike links body twinBody →
    Alike links (.loop kind test body) (.loop kind twinTest twinBody)

inductive Term.AlikeAll : List Link → List Term → List Term → Prop where
  | nil (links : List Link) : AlikeAll links [] []
  | cons {links : List Link} {term twin : Term} {terms twins : List Term} :
    Alike links term twin → AlikeAll links terms twins →
    AlikeAll links (term :: terms) (twin :: twins)

end

theorem Term.Alike.ty_eq {links : List Link} {term twin : Term} (h : Term.Alike links term twin) :
    term.ty = twin.ty := by
  cases h with
  | atom hvalue => exact hvalue.ty_eq
  | _ => rfl

end Alike

end IsaBackend
