import IsaBackend.Proofs.Expr.Trivial
import IsaBackend.Proofs.Meaning.Terms
import IsaBackend.Proofs.Names
import IsaBackend.Term.OfExpr

/-!
# The meaning of flattened expressions

An expression means what its A-normal form means. The bindings that flattening takes out of the
arguments have generated names, which no meaning depends on, so the arguments are evaluated from
left to right and the first early return among them is the outcome of the whole.
-/

namespace IsaBackend

open Staging StagingState

def LocalReps.UnusedFrom (reps : LocalReps) (first : Nat) : Prop :=
  ∀ number, first ≤ number → reps (FreshNames.name number) = none

/-- The values of generated names from a number on do not matter. -/
def IgnoresFrom {α : Type} (first : Nat) (meaning : Valuation → α) : Prop :=
  ∀ number, first ≤ number → ∀ (values : Valuation) (value : Value),
    meaning (values.set (FreshNames.name number) value) = meaning values

namespace LocalReps

variable {reps more : LocalReps} {first later : Nat}

private theorem Within.refl : reps.Within reps := fun _ _ h => h

private theorem Within.trans {outer : LocalReps} (h : reps.Within more)
    (hmore : more.Within outer) : reps.Within outer :=
  fun name rep hrep => hmore name rep (h name rep hrep)

private theorem within_set {name : String} (h : reps name = none) (rep : Rep) :
    reps.Within (reps.set name rep) := by
  intro key keyRep hkey
  have hne : key ≠ name := by
    rintro rfl
    rw [h] at hkey
    cases hkey
  exact (if_neg hne).trans hkey

private theorem UnusedFrom.mono (h : reps.UnusedFrom first) (hle : first ≤ later) :
    reps.UnusedFrom later :=
  fun number hnumber => h number (Nat.le_trans hle hnumber)

theorem UnusedFrom.set {name : String} (h : reps.UnusedFrom first)
    (hname : ∀ number, first ≤ number → FreshNames.name number ≠ name) (rep : Rep) :
    (reps.set name rep).UnusedFrom first :=
  fun number hnumber => (if_neg (hname number hnumber)).trans (h number hnumber)

end LocalReps

private theorem IgnoresFrom.mono {α : Type} {first later : Nat} {meaning : Valuation → α}
    (h : IgnoresFrom first meaning) (hle : first ≤ later) : IgnoresFrom later meaning :=
  fun number hnumber => h number (Nat.le_trans hle hnumber)

private theorem ignoresFrom_apply {first : Nat} {name : String}
    (hname : ∀ number, first ≤ number → FreshNames.name number ≠ name) :
    IgnoresFrom first fun values => values name :=
  fun number hnumber _ _ => if_neg (hname number hnumber).symm

/-- A term serves an expression if it can be bound to a name or used in place of one, at the
representation of its type or a wider one. -/
structure Term.Serves (around : Surroundings) (good : Callees → Prop) (first : Nat)
    (reps : LocalReps) (term : Term) (rep : Rep) (meaning : Valuation → Except Value Value) :
    Prop where
  ty : Rep.ofTy around .generated term.ty = .ok rep
  means : ∀ base want, first ≤ base → rep.Widens want →
    term.Means around good base reps want meaning
  atom : ∀ atom, term = .atom atom → ∃ value,
    atom.Means around reps rep value ∧ IgnoresFrom 0 value ∧
      ∀ values : Valuation, values.Fits reps → meaning values = .ok (value values)

/-- Bindings supply a value: a term that they stand around has the value at hand. -/
def Hoist.Supply {α : Type} (around : Surroundings) (good : Callees → Prop) (reps : LocalReps)
    (first last : Nat) (hoists : List Hoist) (meaning : Valuation → Except Value α)
    (ready : LocalReps → (Valuation → α) → Prop) : Prop :=
  ∀ (base : Nat) (outer : LocalReps) (body : Term) (want : Rep)
    (next : α → Valuation → Except Value Value),
    last ≤ base → reps.Within outer → outer.UnusedFrom first →
    (∀ value, IgnoresFrom first (next value)) →
    (∀ (more : LocalReps) (value : Valuation → α), outer.Within more → more.UnusedFrom last →
      IgnoresFrom last value → ready more value →
      body.Means around good base more want fun values => next (value values) values) →
    (Term.wrap hoists body).Means around good base outer want fun values =>
      meaning values >>= fun value => next value values

section Supply

variable {around : Surroundings} {good : Callees → Prop} {reps : LocalReps} {α β : Type}
  {rep : Rep} {term : Term} {meaning : Valuation → Except Value Value} {start : FlatState}

private theorem Term.wrap_append (hoists more : List Hoist) (body : Term) :
    Term.wrap (hoists ++ more) body = Term.wrap hoists (Term.wrap more body) :=
  List.foldr_append

private theorem hoist_of_computes (h : ∀ atom, term ≠ .atom atom) (start : FlatState) :
    Flattening.hoist term start =
      .ok (.name (FreshNames.name start.names.next) .immutableLocal term.ty,
        [⟨FreshNames.name start.names.next, term.ty, term⟩])
        { start with names := ⟨start.names.next + 1⟩ } := by
  cases term with
  | atom atom => exact absurd rfl (h atom)
  | _ => rfl

/-- A term that computes is bound to the next generated name. -/
private theorem supply_bind (h : term.Serves around good start.names.next reps rep meaning) :
    Hoist.Supply around good reps start.names.next (start.names.next + 1)
      [⟨FreshNames.name start.names.next, term.ty, term⟩] meaning fun more value =>
        (Atom.name (FreshNames.name start.names.next) .immutableLocal term.ty).Means around more rep
          value := by
  intro base outer body want next hbase houter hunused hnext hbody
  have hother : ∀ number, start.names.next + 1 ≤ number →
      FreshNames.name number ≠ FreshNames.name start.names.next := by
    intro number hnumber heq
    have := FreshNames.name_inj.mp heq
    omega
  have hinner := hbody (outer.set (FreshNames.name start.names.next) rep)
    (fun values => values (FreshNames.name start.names.next))
    (LocalReps.within_set (hunused _ (Nat.le_refl _)) rep)
    ((hunused.mono (Nat.le_succ _)).set hother rep) (ignoresFrom_apply hother)
    (Atom.means_name (if_pos rfl) _ _)
  have hinit := (h.means base rep (Nat.le_of_succ_le hbase) (.inl rfl)).weaken houter
  refine (Term.Means.bind h.ty (fun number heq => ?_) hinit hinner).congr fun values _ => ?_
  · rw [← FreshNames.name_inj.mp heq]
    exact hbase
  · congr 1
    funext value
    have hset : values.set (FreshNames.name start.names.next) value
        (FreshNames.name start.names.next) = value := if_pos rfl
    rw [hset, hnext value _ (Nat.le_refl _)]

private theorem Term.Serves.hoist_gives
    (h : term.Serves around good start.names.next reps rep meaning) :
    Gives (Flattening.hoist term) start fun (atom, hoists) after =>
      start.names.next ≤ after.names.next ∧
      Hoist.Supply around good reps start.names.next after.names.next hoists meaning
        fun more value => atom.Means around more rep value := by
  by_cases hatom : ∃ atom, term = .atom atom
  · obtain ⟨atom, rfl⟩ := hatom
    obtain ⟨value, hmeans, hignores, hvalue⟩ := h.atom atom rfl
    refine .pure ⟨Nat.le_refl _, ?_⟩
    intro base outer body want next _ houter hunused _ hbody
    refine (hbody outer value .refl hunused (hignores.mono (Nat.zero_le _))
      (hmeans.weaken houter)).congr fun values hfits => ?_
    rw [hvalue values (hfits.weaken houter)]
    rfl
  · have hcomputes : ∀ atom, term ≠ .atom atom := fun atom heq => hatom ⟨atom, heq⟩
    exact ⟨_, _, hoist_of_computes hcomputes start, Nat.le_succ _, supply_bind h⟩

private theorem Hoist.Supply.mono {first last lower higher : Nat} {hoists : List Hoist}
    {given : Valuation → Except Value α} {ready : LocalReps → (Valuation → α) → Prop}
    (h : Hoist.Supply around good reps first last hoists given ready) (hfirst : lower ≤ first)
    (hlast : last ≤ higher) : Hoist.Supply around good reps lower higher hoists given ready := by
  intro base outer body want next hbase houter hunused hnext hbody
  refine h base outer body want next (Nat.le_trans hlast hbase) houter (hunused.mono hfirst)
    (fun value => (hnext value).mono hfirst) ?_
  intro more value hmore hmoreUnused hvalue hready
  exact hbody more value hmore (hmoreUnused.mono hlast) (hvalue.mono hlast) hready

private theorem Hoist.Supply.pair {first middle last : Nat} {hoists more : List Hoist}
    {left : Valuation → Except Value α} {right : Valuation → Except Value β}
    {readyLeft : LocalReps → (Valuation → α) → Prop}
    {readyRight : LocalReps → (Valuation → β) → Prop}
    (hleft : Hoist.Supply around good reps first middle hoists left readyLeft)
    (hright : Hoist.Supply around good reps middle last more right readyRight)
    (hfirst : first ≤ middle) (hmiddle : middle ≤ last) (hignores : IgnoresFrom 0 right)
    (hweaken : ∀ outer more value, outer.Within more → readyLeft outer value →
      readyLeft more value) :
    Hoist.Supply around good reps first last (hoists ++ more)
      (fun values => left values >>= fun a => right values >>= fun b => .ok (a, b))
      fun more both => readyLeft more (fun values => (both values).1) ∧
        readyRight more fun values => (both values).2 := by
  intro base outer body want next hbase houter hunused hnext hbody
  rw [Term.wrap_append]
  have hrest : ∀ value, IgnoresFrom first fun values =>
      right values >>= fun other => next (value, other) values := by
    intro value number hnumber values stored
    simp only [hignores number (Nat.zero_le _), hnext _ number hnumber]
  refine (hleft base outer _ want _ (Nat.le_trans hmiddle hbase) houter hunused hrest ?_).congr
    fun values _ => ?_
  · intro inner value hinner hinnerUnused hvalue hready
    refine hright base inner body want (fun other values => next (value values, other) values)
      hbase (houter.trans hinner) hinnerUnused ?_ ?_
    · intro other number hnumber values stored
      simp only [hvalue number hnumber, hnext _ number (Nat.le_trans hfirst hnumber)]
    · intro deepest other hdeepest hdeepestUnused hother hreadyOther
      refine hbody deepest (fun values => (value values, other values)) (hinner.trans hdeepest)
        hdeepestUnused ?_ ⟨hweaken inner deepest value hdeepest hready, hreadyOther⟩
      intro number hnumber values stored
      simp only [hother number hnumber, hvalue number (Nat.le_trans hmiddle hnumber)]
  · simp only [bind_assoc, except_ok_bind]

private theorem Hoist.Supply.map {first last : Nat} {hoists : List Hoist}
    {given : Valuation → Except Value α} {ready : LocalReps → (Valuation → α) → Prop}
    {readyMapped : LocalReps → (Valuation → β) → Prop}
    (h : Hoist.Supply around good reps first last hoists given ready) (change : α → β)
    (hready : ∀ more value, ready more value →
      readyMapped more fun values => change (value values)) :
    Hoist.Supply around good reps first last hoists
      (fun values => given values >>= fun value => .ok (change value)) readyMapped := by
  intro base outer body want next hbase houter hunused hnext hbody
  refine (h base outer body want (fun value => next (change value)) hbase houter hunused
    (fun value => hnext (change value)) fun more value hmore hmoreUnused hvalue hgiven => ?_).congr
    fun values _ => ?_
  · refine hbody more (fun values => change (value values)) hmore hmoreUnused ?_
      (hready more value hgiven)
    intro number hnumber values stored
    simp only [hvalue number hnumber]
  · simp only [bind_assoc, except_ok_bind]

private theorem Hoist.Supply.serves {first last : Nat} {hoists : List Hoist}
    {given : Valuation → Except Value α} {ready : LocalReps → (Valuation → α) → Prop}
    {body : Term} {next : α → Valuation → Except Value Value}
    (h : Hoist.Supply around good reps first last hoists given ready)
    (hunused : reps.UnusedFrom 0) (hnext : ∀ value, IgnoresFrom 0 (next value))
    (hty : Rep.ofTy around .generated body.ty = .ok rep) (hcomputes : ∀ atom, body ≠ .atom atom)
    (hbody : ∀ (base : Nat) (want : Rep) (more : LocalReps) (value : Valuation → α),
      last ≤ base → rep.Widens want → reps.Within more → ready more value →
      body.Means around good base more want fun values => next (value values) values) :
    (Term.wrap hoists body).Serves around good last reps rep fun values =>
      given values >>= fun value => next value values where
  ty := (congrArg _ (Term.wrap_ty hoists body)).trans hty
  means := by
    intro base want hbase hwide
    refine h base reps body want next hbase .refl (hunused.mono (Nat.zero_le _))
      (fun value => (hnext value).mono (Nat.zero_le _)) fun more value hmore _ _ hready => ?_
    exact hbody base want more value hbase hwide hmore hready
  atom := by
    intro atom heq
    cases hoists with
    | nil => exact absurd heq (hcomputes atom)
    | cons hoist rest => cases heq

end Supply

/-- An expression can be flattened in every state, and means what its A-normal form means. -/
structure Expr.Means (around : Surroundings) (good : Callees → Prop) (reps : LocalReps)
    (expr : Expr) (rep : Rep) (meaning : Valuation → Except Value Value) : Prop where
  ty : Rep.ofTy around .generated expr.ty = .ok rep
  ignores : IgnoresFrom 0 meaning
  flattens : ∀ start, Gives (Term.ofExpr around.interface expr) start fun term after =>
    start.names.next ≤ after.names.next ∧
      term.Serves around good after.names.next reps rep meaning

/-- The arguments of a call, which are evaluated in order until one returns early. -/
inductive Expr.MeansAll (around : Surroundings) (good : Callees → Prop) (reps : LocalReps) :
    List Expr → List Rep → (Valuation → Except Value (List Value)) → Prop
  | nil : MeansAll around good reps [] [] fun _ => .ok []
  | cons {arg : Expr} {args : List Expr} {rep param : Rep} {params : List Rep}
      {value : Valuation → Except Value Value} {rest : Valuation → Except Value (List Value)}
      (harg : arg.Means around good reps rep value) (hwide : rep.Widens param)
      (hrest : MeansAll around good reps args params rest) :
      MeansAll around good reps (arg :: args) (param :: params) fun values =>
        value values >>= fun first => rest values >>= fun others => .ok (first :: others)

section Rules

variable {around : Surroundings} {good : Callees → Prop} {reps : LocalReps} {rep : Rep}
  {expr : Expr} {meaning : Valuation → Except Value Value}

private theorem Expr.Means.hoist_gives (h : expr.Means around good reps rep meaning)
    (start : FlatState) : Gives (Term.ofExpr around.interface expr >>= Flattening.hoist) start
      fun (atom, hoists) after => start.names.next ≤ after.names.next ∧
        Hoist.Supply around good reps start.names.next after.names.next hoists meaning
          fun more value => atom.Means around more rep value := by
  refine (h.flattens start).bind ?_
  rintro term flat ⟨hflat, hserves⟩
  refine hserves.hoist_gives.mono ?_
  rintro ⟨atom, hoists⟩ after ⟨hafter, hsupply⟩
  exact ⟨Nat.le_trans hflat hafter, hsupply.mono hflat (Nat.le_refl _)⟩

private theorem Expr.MeansAll.ignores {args : List Expr} {params : List Rep}
    {meaning : Valuation → Except Value (List Value)}
    (h : Expr.MeansAll around good reps args params meaning) : IgnoresFrom 0 meaning := by
  induction h with
  | nil => exact fun _ _ _ _ => rfl
  | cons harg _ _ ih =>
    intro number hnumber values value
    simp only [harg.ignores number hnumber, ih number hnumber]

private theorem Expr.MeansAll.atoms_gives {args : List Expr} {params : List Rep}
    {meaning : Valuation → Except Value (List Value)}
    (h : Expr.MeansAll around good reps args params meaning) (start : FlatState) :
    Gives (Term.atoms around.interface args) start fun (atoms, hoists) after =>
      start.names.next ≤ after.names.next ∧
      Hoist.Supply around good reps start.names.next after.names.next hoists meaning
        fun more values => Atom.MeansAll around more atoms params values := by
  induction h generalizing start with
  | nil =>
    refine .pure ⟨Nat.le_refl _, ?_⟩
    intro base outer body want next _ _ hunused _ hbody
    exact hbody outer (fun _ => []) .refl hunused (fun _ _ _ _ => rfl) .nil
  | cons harg hwide hrest ih =>
    simp only [Term.atoms]
    rw [← bind_assoc]
    refine (harg.hoist_gives start).bind ?_
    rintro ⟨atom, hoists⟩ middle ⟨hmiddle, hsupply⟩
    refine (ih middle).bind ?_
    rintro ⟨atoms, more⟩ after ⟨hafter, hsupplyRest⟩
    refine .pure ⟨Nat.le_trans hmiddle hafter, ?_⟩
    have hpair := hsupply.pair hsupplyRest hmiddle hafter hrest.ignores
      fun outer more value hmore hready => hready.weaken hmore
    have hcons := hpair.map (fun both => both.1 :: both.2) fun more both hready =>
      Atom.MeansAll.cons hready.1 hwide hready.2
    simpa only [bind_assoc, except_ok_bind] using hcons

namespace Expr.Means

theorem congr {other : Valuation → Except Value Value} (h : expr.Means around good reps rep meaning)
    (hignores : IgnoresFrom 0 other)
    (heq : ∀ values : Valuation, values.Fits reps → other values = meaning values) :
    expr.Means around good reps rep other where
  ty := h.ty
  ignores := hignores
  flattens := by
    intro start
    refine (h.flattens start).mono ?_
    rintro term after ⟨hafter, hserves⟩
    refine ⟨hafter, hserves.ty, fun base want hbase hwide =>
      (hserves.means base want hbase hwide).congr heq, fun atom hatom => ?_⟩
    obtain ⟨value, hmeans, hvalue, hgiven⟩ := hserves.atom atom hatom
    exact ⟨value, hmeans, hvalue, fun values hfits =>
      (heq values hfits).trans (hgiven values hfits)⟩

theorem name {name : String} {note : Note} (hrep : reps name = some rep)
    (hty : Rep.ofTy around .generated note.ty = .ok rep)
    (hname : ∀ number, FreshNames.name number ≠ name) :
    (Expr.name note name).Means around good reps rep fun values => .ok (values name) where
  ty := hty
  ignores := fun number _ values value => congrArg _ (if_neg (hname number).symm)
  flattens := by
    intro start
    refine ⟨_, start, rfl, Nat.le_refl _, hty, fun base want _ hwide =>
      .atom (Atom.means_name hrep _ _) hwide, ?_⟩
    rintro _ ⟨⟩
    exact ⟨_, Atom.means_name hrep _ _, ignoresFrom_apply fun number _ => hname number,
      fun _ _ => rfl⟩

theorem num {number : Int} {note : Note} (hfits : fitsWord number = true)
    (hty : Rep.ofTy around .generated note.ty = .ok .machInt) :
    (Expr.lit note (.num number)).Means around good reps .machInt fun _ => .ok (.int number) where
  ty := hty
  ignores := fun _ _ _ _ => rfl
  flattens := by
    intro start
    refine ⟨_, start, rfl, Nat.le_refl _, hty, fun base want _ hwide =>
      .atom (Atom.means_num hfits hty) hwide, ?_⟩
    rintro _ ⟨⟩
    exact ⟨_, Atom.means_num hfits hty, fun _ _ _ _ => rfl, fun _ _ => rfl⟩

theorem cast {ty : Ty} {pos : Position} {inner : Rep}
    (h : expr.Means around good reps inner meaning) (hwide : inner.Widens rep)
    (hty : Rep.ofTy around .generated ty = .ok rep) :
    (Expr.cast ⟨ty, pos⟩ ty expr).Means around good reps rep meaning where
  ty := hty
  ignores := h.ignores
  flattens := by
    intro start
    refine (h.flattens start).bind ?_
    rintro term after ⟨hafter, hserves⟩
    refine .pure ⟨hafter, hty, fun base want hbase hwider => ?_, fun _ heq => by cases heq⟩
    exact (hserves.means base want hbase (hwide.trans hwider)).cast ty

/-- A binding of a name that could not have been generated. -/
theorem bind {name : String} {note : Note} {init body : Expr} {initRep : Rep}
    {first second : Valuation → Except Value Value}
    (hname : ∀ number, FreshNames.name number ≠ name)
    (hty : Rep.ofTy around .generated note.ty = .ok rep)
    (hinit : init.Means around good reps initRep first)
    (hbody : body.Means around good (reps.set name initRep) rep second) :
    (Expr.bind note (.name name) init body).Means around good reps rep fun values =>
      first values >>= fun value => second (values.set name value) where
  ty := hty
  ignores := by
    intro number hnumber values value
    simp only [hinit.ignores number hnumber]
    congr 1
    funext bound
    have hswap : (values.set (FreshNames.name number) value).set name bound =
        (values.set name bound).set (FreshNames.name number) value := by
      funext key
      unfold Valuation.set
      grind
    rw [hswap, hbody.ignores number hnumber]
  flattens := by
    intro start
    simp only [Term.ofExpr, Term.ofPattern, pure_bind]
    refine (hinit.flattens start).bind ?_
    rintro initTerm middle ⟨hmiddle, hinitServes⟩
    have hwithin : Gives (Flattening.within name init.ty false
        (Term.ofExpr around.interface body)) middle fun term after =>
          middle.names.next ≤ after.names.next ∧
            term.Serves around good after.names.next (reps.set name initRep) rep second := by
      refine (hbody.flattens _).ensuring.mono ?_
      rintro term _ ⟨inner, hinner, rfl⟩
      exact hinner
    refine hwithin.bind ?_
    rintro bodyTerm after ⟨hafter, hbodyServes⟩
    refine .pure ⟨Nat.le_trans hmiddle hafter, hty, fun base want hbase hwide => ?_,
      fun _ heq => by cases heq⟩
    exact .bind hinit.ty (fun number heq => absurd heq.symm (hname number))
      (hinitServes.means base initRep (Nat.le_trans hafter hbase) (.inl rfl))
      (hbodyServes.means base want hbase hwide)

/-- A branch whose arms have its representation or narrower ones. -/
theorem cond {note : Note} {test onTrue onFalse : Expr} {trueRep falseRep : Rep}
    {flag first second : Valuation → Except Value Value} (hunused : reps.UnusedFrom 0)
    (hty : Rep.ofTy around .generated note.ty = .ok rep)
    (htest : test.Means around good reps .bool flag)
    (htrue : onTrue.Means around good reps trueRep first) (htrueWide : trueRep.Widens rep)
    (hfalse : onFalse.Means around good reps falseRep second) (hfalseWide : falseRep.Widens rep) :
    (Expr.cond note test onTrue onFalse).Means around good reps rep fun values =>
      flag values >>= fun value => if value.isTrue then first values else second values where
  ty := hty
  ignores := by
    intro number hnumber values value
    simp only [htest.ignores number hnumber, htrue.ignores number hnumber,
      hfalse.ignores number hnumber]
  flattens := by
    intro start
    simp only [Term.ofExpr]
    rw [← bind_assoc]
    refine (htest.hoist_gives start).bind ?_
    rintro ⟨atom, hoists⟩ tested ⟨htested, hsupply⟩
    refine (htrue.flattens tested).bind ?_
    rintro trueTerm middle ⟨hmiddle, htrueServes⟩
    refine (hfalse.flattens middle).bind ?_
    rintro falseTerm after ⟨hafter, hfalseServes⟩
    have hlast := Nat.le_trans hmiddle hafter
    have hkept := hsupply.mono (Nat.le_refl _) hlast
    refine .pure ⟨Nat.le_trans htested hlast,
      hkept.serves hunused ?_ hty (fun _ heq => by cases heq) ?_⟩
    · intro value number hnumber values stored
      simp only [htrue.ignores number hnumber, hfalse.ignores number hnumber]
    · intro base want more value hbase hwide hmore hready
      exact .cond hready
        ((htrueServes.means base want (Nat.le_trans hafter hbase) (htrueWide.trans hwide)).weaken
          hmore)
        ((hfalseServes.means base want hbase (hfalseWide.trans hwide)).weaken hmore) _

theorem ret {note : Note} {valueRep : Rep} (hunused : reps.UnusedFrom 0)
    (hty : Rep.ofTy around .generated note.ty = .ok rep)
    (h : expr.Means around good reps valueRep meaning) (hwide : valueRep.Widens .bigInt) :
    (Expr.ret note expr).Means around good reps rep fun values =>
      meaning values >>= fun value => .error value where
  ty := hty
  ignores := by
    intro number hnumber values value
    simp only [h.ignores number hnumber]
  flattens := by
    intro start
    simp only [Term.ofExpr]
    rw [← bind_assoc]
    refine (h.hoist_gives start).bind ?_
    rintro ⟨atom, hoists⟩ after ⟨hafter, hsupply⟩
    refine .pure ⟨hafter, hsupply.serves hunused (fun _ _ _ _ _ => rfl) hty
      (fun _ heq => by cases heq) fun base want more value _ _ _ hready => ?_⟩
    exact .ret hready hwide _

theorem call {note : Note} {callee : String} {args : List Expr} {params : List Rep}
    {given : Valuation → Except Value (List Value)} {result : List Value → Value}
    (hunused : reps.UnusedFrom 0) (hty : Rep.ofTy around .generated note.ty = .ok rep)
    (hwidest : rep ≠ .machInt) (hfused : FusedPrimitive.ofName? callee = none)
    (hsignature : ∀ args state,
      signature around callee args note.ty state = .ok (params, rep) state)
    (hargs : Expr.MeansAll around good reps args params given)
    (hcallee : ∀ args, Rep.ConformAll params args → ∀ callees, good callees → ∀ store,
      callees callee args store = .ok (result args) store)
    (hresult : ∀ args, Rep.ConformAll params args → rep.conform (result args) = .ok (result args)) :
    (Expr.call note callee args).Means around good reps rep fun values =>
      given values >>= fun args => .ok (result args) where
  ty := hty
  ignores := by
    intro number hnumber values value
    simp only [hargs.ignores number hnumber]
  flattens := by
    intro start
    simp only [Term.ofExpr]
    refine (hargs.atoms_gives start).bind ?_
    rintro ⟨atoms, hoists⟩ after ⟨hafter, hsupply⟩
    refine .pure ⟨hafter, hsupply.serves hunused (fun _ _ _ _ _ => rfl) hty
      (fun _ heq => by cases heq) fun base want more value _ hwide _ hready => ?_⟩
    rw [hwide.eq_of_ne hwidest]
    exact .call hfused (hsignature atoms) hready hcallee hresult

theorem field {note : Note} {record : Expr} {recordRep : Rep} {key : String}
    {whole : Valuation → Except Value Value} {part : Value → Value} (hunused : reps.UnusedFrom 0)
    (hty : Rep.ofTy around .generated note.ty = .ok rep) (hwidest : rep ≠ .machInt)
    (h : record.Means around good reps recordRep whole)
    (hfield : fieldRep recordRep key = .ok rep)
    (hpart : ∀ value, recordRep.conform value = .ok value →
      value.field? key = some (part value) ∧ rep.conform (part value) = .ok (part value)) :
    (Expr.field note record key).Means around good reps rep fun values =>
      whole values >>= fun value => .ok (part value) where
  ty := hty
  ignores := by
    intro number hnumber values value
    simp only [h.ignores number hnumber]
  flattens := by
    intro start
    simp only [Term.ofExpr]
    rw [← bind_assoc]
    refine (h.hoist_gives start).bind ?_
    rintro ⟨atom, hoists⟩ after ⟨hafter, hsupply⟩
    refine .pure ⟨hafter, hsupply.serves hunused (fun _ _ _ _ _ => rfl) hty
      (fun _ heq => by cases heq) fun base want more value _ hwide _ hready => ?_⟩
    rw [hwide.eq_of_ne hwidest]
    exact .field hready hfield hty hpart

theorem update {note : Note} {record value : Expr} {key : String} {keyRep valueRep : Rep}
    {whole part : Valuation → Except Value Value} {result : Value → Value → Value}
    (hunused : reps.UnusedFrom 0) (hty : Rep.ofTy around .generated note.ty = .ok rep)
    (hwidest : rep ≠ .machInt) (hrecord : record.Means around good reps rep whole)
    (hvalue : value.Means around good reps valueRep part) (hwide : valueRep.Widens keyRep)
    (hfield : fieldRep rep key = .ok keyRep)
    (hresult : ∀ whole part, rep.conform whole = .ok whole → keyRep.conform part = .ok part →
      whole.setField? key part = some (result whole part) ∧
        rep.conform (result whole part) = .ok (result whole part)) :
    (Expr.update note record [(key, value)]).Means around good reps rep fun values =>
      whole values >>= fun whole => part values >>= fun part => .ok (result whole part) where
  ty := hty
  ignores := by
    intro number hnumber values stored
    simp only [hrecord.ignores number hnumber, hvalue.ignores number hnumber]
  flattens := by
    intro start
    simp only [Term.ofExpr, Term.fieldAtoms, bind_assoc, pure_bind]
    rw [← bind_assoc]
    refine (hrecord.hoist_gives start).bind ?_
    rintro ⟨recordAtom, hoists⟩ middle ⟨hmiddle, hsupply⟩
    rw [← bind_assoc]
    refine (hvalue.hoist_gives middle).bind ?_
    rintro ⟨valueAtom, more⟩ after ⟨hafter, hsupplyValue⟩
    have hpair := hsupply.pair hsupplyValue hmiddle hafter hvalue.ignores
      fun outer more value hmore hready => hready.weaken hmore
    have hserves : (Term.wrap (hoists ++ more)
        (.update recordAtom [(key, valueAtom)] note.ty)).Serves around good after.names.next reps
        rep fun values => (whole values >>= fun whole => part values >>= fun part =>
          .ok (whole, part)) >>= fun both => .ok (result both.1 both.2) := by
      refine hpair.serves hunused (fun _ _ _ _ _ => rfl) hty (fun _ heq => by cases heq) ?_
      intro base want inner both _ hwider _ hready
      rw [hwider.eq_of_ne hwidest]
      exact .update hready.1 hready.2 hwide hfield hty hresult
    refine .pure ⟨Nat.le_trans hmiddle hafter, ?_⟩
    simpa only [List.append_nil, bind_assoc, except_ok_bind] using hserves

end Expr.Means

end Rules

end IsaBackend
