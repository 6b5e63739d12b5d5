import IsaBackend.Proofs.Effects
import IsaBackend.Proofs.Renaming.Names
import IsaBackend.Proofs.Term.Alike
import IsaBackend.Proofs.Term.Scopes
import IsaBackend.Term.OfExpr

/-!
# The A-normal forms of linked expressions

Expressions that differ in the names of their locals have A-normal forms that are alike, whatever
names are handed out on the way. The bindings that are taken out of arguments are linked as well, so
the forms are alike in the scope of any links that keep the meaning of the names in scope.
-/

namespace IsaBackend

open FreshNames (IsGenerated)

namespace Link

variable [OwnNames] {links more most : List Link} {next twinNext later twinLater : Nat}

def Unbound (links : List Link) (name : String) : Prop :=
  ∀ link ∈ links, link.left ≠ name ∧ link.right ≠ name

/-- The names in scope mean the same in the scope of other links. -/
def Keeps (links more : List Link) : Prop :=
  ∀ name twin, Same links name twin → Same more name twin ∧ class? more name = class? links name

/-- Generated names in scope have been handed out before some numbers. -/
def Older (links : List Link) (next twinNext : Nat) : Prop :=
  ∀ name twin, Same links name twin →
    (∀ number, name = FreshNames.name number → number < next) ∧
      ∀ number, twin = FreshNames.name number → number < twinNext

theorem Keeps.refl (links : List Link) : Keeps links links := fun _ _ hsame => ⟨hsame, rfl⟩

theorem Keeps.trans (h : Keeps links more) (hmore : Keeps more most) : Keeps links most := by
  intro name twin hsame
  obtain ⟨hmoreSame, hclass⟩ := h name twin hsame
  obtain ⟨hmostSame, hmostClass⟩ := hmore name twin hmoreSame
  exact ⟨hmostSame, hmostClass.trans hclass⟩

theorem Keeps.cons (h : Keeps links more) (link : Link) : Keeps (link :: links) (link :: more) := by
  rintro name twin (⟨hleft, hright⟩ | ⟨hleft, hright, hsame⟩)
  · refine ⟨.inl ⟨hleft, hright⟩, ?_⟩
    rw [class?, class?, if_pos hleft, if_pos hleft]
  · obtain ⟨hmore, hclass⟩ := h name twin hsame
    refine ⟨.inr ⟨hleft, hright, hmore⟩, ?_⟩
    rw [class?, class?, if_neg hleft, if_neg hleft, hclass]

theorem Older.mono (h : Older links next twinNext) (hnext : next ≤ later)
    (htwin : twinNext ≤ twinLater) : Older links later twinLater := by
  intro name twin hsame
  obtain ⟨hname, htwinName⟩ := h name twin hsame
  exact ⟨fun number heq => Nat.lt_of_lt_of_le (hname number heq) hnext,
    fun number heq => Nat.lt_of_lt_of_le (htwinName number heq) htwin⟩

theorem Older.cons (h : Older links next twinNext) {name twin : String} {mutable : Bool}
    (hname : ∀ number, name = FreshNames.name number → number < next)
    (htwin : ∀ number, twin = FreshNames.name number → number < twinNext) :
    Older (⟨name, twin, mutable⟩ :: links) next twinNext := by
  rintro other twinOther (⟨rfl, rfl⟩ | ⟨_, _, hsame⟩)
  · exact ⟨hname, htwin⟩
  · exact h other twinOther hsame

theorem Older.keeps (h : Older links next twinNext) (hmore : Keeps links more) {number twin : Nat}
    (hnumber : next ≤ number) (htwin : twinNext ≤ twin) (mutable : Bool) :
    Keeps links (⟨FreshNames.name number, FreshNames.name twin, mutable⟩ :: more) := by
  intro name twinName hsame
  obtain ⟨hname, htwinName⟩ := h name twinName hsame
  obtain ⟨hmoreSame, hclass⟩ := hmore name twinName hsame
  have hne : FreshNames.name number ≠ name := fun heq => by
    have := hname number heq.symm
    omega
  have htwinNe : FreshNames.name twin ≠ twinName := fun heq => by
    have := htwinName twin heq.symm
    omega
  refine ⟨.inr ⟨hne, htwinNe, hmoreSame⟩, ?_⟩
  rw [class?, if_neg hne, hclass]

/-- The links of bindings that were taken out of arguments, the last one first. -/
def ofHoists : List Hoist → List Hoist → List Link → List Link
  | hoist :: rest, twin :: twins, links =>
    ofHoists rest twins (⟨hoist.name, twin.name, false⟩ :: links)
  | _, _, links => links

end Link

/-- As many bindings on both sides, with names that were handed out one after the other. -/
inductive Hoist.Numbered : Nat → Nat → List Hoist → List Hoist → Nat → Nat → Prop where
  | nil {next twinNext last twinLast : Nat} : next ≤ last → twinNext ≤ twinLast →
    Numbered next twinNext [] [] last twinLast
  | cons {next twinNext number twinNumber last twinLast : Nat} {hoist twin : Hoist}
    {rest twins : List Hoist} : next ≤ number → twinNext ≤ twinNumber →
    hoist.name = FreshNames.name number → twin.name = FreshNames.name twinNumber →
    Numbered (number + 1) (twinNumber + 1) rest twins last twinLast →
    Numbered next twinNext (hoist :: rest) (twin :: twins) last twinLast

namespace Hoist.Numbered

variable {next twinNext middle twinMiddle last twinLast : Nat}
  {hoists twins others twinOthers : List Hoist}

private theorem mono (h : Hoist.Numbered next twinNext hoists twins middle twinMiddle)
    {first twinFirst : Nat} (hfirst : first ≤ next) (htwin : twinFirst ≤ twinNext) :
    Hoist.Numbered first twinFirst hoists twins middle twinMiddle := by
  cases h with
  | nil hle htwinLe => exact .nil (Nat.le_trans hfirst hle) (Nat.le_trans htwin htwinLe)
  | cons hle htwinLe hname htwinName hrest =>
    exact .cons (Nat.le_trans hfirst hle) (Nat.le_trans htwin htwinLe) hname htwinName hrest

private theorem append (h : Hoist.Numbered next twinNext hoists twins middle twinMiddle)
    (hmore : Hoist.Numbered middle twinMiddle others twinOthers last twinLast) :
    Hoist.Numbered next twinNext (hoists ++ others) (twins ++ twinOthers) last twinLast := by
  induction h with
  | nil hle htwin => exact hmore.mono hle htwin
  | cons hle htwin hname htwinName _ ih => exact .cons hle htwin hname htwinName (ih hmore)

private theorem ofHoists_append (h : Hoist.Numbered next twinNext hoists twins middle twinMiddle)
    (links : List Link) :
    Link.ofHoists (hoists ++ others) (twins ++ twinOthers) links =
      Link.ofHoists others twinOthers (Link.ofHoists hoists twins links) := by
  induction h generalizing links with
  | nil _ _ => rfl
  | cons _ _ _ _ _ ih => exact ih _

end Hoist.Numbered

section Hoists

variable [OwnNames]

/-- Bindings that are alike, each in the scope of those before it. -/
inductive Hoist.AlikeAll : List Link → List Hoist → List Hoist → Prop where
  | nil (links : List Link) : AlikeAll links [] []
  | cons {links : List Link} {hoist twin : Hoist} {rest twins : List Hoist} :
    Own hoist.name → Own twin.name → hoist.ty = twin.ty →
    Term.Alike links hoist.init twin.init →
    AlikeAll (⟨hoist.name, twin.name, false⟩ :: links) rest twins →
    AlikeAll links (hoist :: rest) (twin :: twins)

variable {links more : List Link} {hoists twins others twinOthers : List Hoist}

private theorem Hoist.AlikeAll.append (h : Hoist.AlikeAll links hoists twins)
    (hmore : Hoist.AlikeAll (Link.ofHoists hoists twins links) others twinOthers) :
    Hoist.AlikeAll links (hoists ++ others) (twins ++ twinOthers) := by
  induction h with
  | nil links => exact hmore
  | cons hown htwin hty hinit _ ih => exact .cons hown htwin hty hinit (ih hmore)

theorem Hoist.AlikeAll.wrap (h : Hoist.AlikeAll links hoists twins) {body twin : Term}
    (hbody : Term.Alike (Link.ofHoists hoists twins links) body twin) :
    Term.Alike links (Term.wrap hoists body) (Term.wrap twins twin) := by
  induction h with
  | nil links => exact hbody
  | @cons links hoist other rest others hown htwin hty hinit _ ih =>
    have hrest := ih hbody
    change Term.Alike links
      (.bind hoist.name hoist.ty hoist.init (Term.wrap rest body) (Term.wrap rest body).ty)
      (.bind other.name other.ty other.init (Term.wrap others twin) (Term.wrap others twin).ty)
    rw [hrest.ty_eq, hty]
    exact .bind _ _ false (Facts.fit_of_own hown htwin) hinit hrest

namespace Hoist.Numbered

variable {next twinNext middle twinMiddle last twinLast : Nat}

theorem keeps (h : Hoist.Numbered next twinNext hoists twins middle twinMiddle)
    (holder : Link.Older links next twinNext) (hmore : Link.Keeps links more) :
    Link.Keeps links (Link.ofHoists hoists twins more) := by
  induction h generalizing more with
  | nil _ _ => exact hmore
  | @cons next twinNext number twinNumber last twinLast hoist twin rest twins hle htwin hname
      htwinName _ ih =>
    have hkeeps := holder.keeps hmore hle htwin false
    rw [← hname, ← htwinName] at hkeeps
    exact ih (holder.mono (by omega) (by omega)) hkeeps

private theorem older (h : Hoist.Numbered next twinNext hoists twins middle twinMiddle)
    (holder : Link.Older links next twinNext) :
    Link.Older (Link.ofHoists hoists twins links) middle twinMiddle := by
  induction h generalizing links with
  | nil hle htwin => exact holder.mono hle htwin
  | cons hle htwin hname htwinName _ ih =>
    refine ih ((holder.mono (by omega) (by omega)).cons (fun number heq => ?_) fun number heq => ?_)
    · rw [hname, FreshNames.name_inj] at heq
      omega
    · rw [htwinName, FreshNames.name_inj] at heq
      omega

end Hoist.Numbered

theorem Link.Keeps.ofHoists (h : Link.Keeps links more) (hoists twins : List Hoist) :
    Link.Keeps (Link.ofHoists hoists twins links) (Link.ofHoists hoists twins more) := by
  induction hoists generalizing links more twins with
  | nil => exact h
  | cons hoist rest ih =>
    cases twins with
    | nil => exact h
    | cons twin twins => exact ih (h.cons _) twins

end Hoists

/-- From one state to another, names are only handed out and the scope stays the same. -/
structure FlatState.Leads (before after : FlatState) : Prop where
  next : before.names.next ≤ after.names.next
  scope : before.scope.Like after.scope

theorem FlatState.Leads.trans {before middle after : FlatState} (h : before.Leads middle)
    (hnext : middle.Leads after) : before.Leads after :=
  ⟨Nat.le_trans h.next hnext.next, h.scope.trans hnext.scope⟩

def Binding.Linked (name twin : String) (cls : Option NameClass) :
    Option Binding → Option Binding → Prop
  | some binding, some other => binding.ty = other.ty ∧ binding.mutable = other.mutable ∧
      cls = some (if binding.mutable then .mutableLocal else .immutableLocal)
  | none, none => name = twin ∧ cls = none
  | _, _ => False

/-- The states of two flattenings go with some links. -/
structure FlatState.Linked [OwnNames] (links : List Link) (state other : FlatState) : Prop where
  bindings : ∀ name twin, Link.Same links name twin →
    Binding.Linked name twin (Link.class? links name) (state.scope.get? name)
      (other.scope.get? twin)
  unbound : ∀ name, Link.Unbound links name → ¬Secret name →
    state.scope.get? name = none ∧ other.scope.get? name = none
  plain : ∀ name twin, Link.Same links name twin →
    (Secret name → IsGenerated name) ∧ (Secret twin → IsGenerated twin)
  older : Link.Older links state.names.next other.names.next
  valid : state.scope.Valid
  twinValid : other.scope.Valid

/-- What two flattenings do: they take as many bindings out of arguments, which are alike, and what
uses them is alike in their scope. -/
structure FlattensAlike [OwnNames] (links : List Link) (before twinBefore after twinAfter : FlatState)
    (hoists twins : List Hoist) (good : List Link → Prop) : Prop where
  left : before.Leads after
  right : twinBefore.Leads twinAfter
  numbered : Hoist.Numbered before.names.next twinBefore.names.next hoists twins after.names.next
    twinAfter.names.next
  inits : ∀ more, Link.Keeps links more → Hoist.AlikeAll more hoists twins
  alike : ∀ more, Link.Keeps (Link.ofHoists hoists twins links) more → good more

namespace FlatState

variable [OwnNames] {links : List Link} {state other after twinAfter : FlatState}

theorem Linked.lead (h : Linked links state other) (hleft : state.Leads after)
    (hright : other.Leads twinAfter) : Linked links after twinAfter where
  bindings := by
    intro name twin hsame
    rw [hleft.scope.get?, hright.scope.get?]
    exact h.bindings name twin hsame
  unbound := by
    intro name hunbound hname
    rw [hleft.scope.get?, hright.scope.get?]
    exact h.unbound name hunbound hname
  plain := h.plain
  older := h.older.mono hleft.next hright.next
  valid := hleft.scope.valid
  twinValid := hright.scope.valid

/-- Names that mean the same are classified alike: both are locals, of the class of their link, or
they are one name that is not bound. -/
theorem Linked.classify (h : Linked links state other) {name twin : String}
    (hsame : Link.Same links name twin) (interface : Interface) :
    state.scope.classify interface name = other.scope.classify interface twin ∧
      ((∃ binding : Binding, Link.class? links name =
          some (if binding.mutable then .mutableLocal else .immutableLocal) ∧
        state.scope.classify interface name =
          some (if binding.mutable then .mutableLocal else .immutableLocal, binding.ty)) ∨
        name = twin ∧ Link.class? links name = none) := by
  have hbindings := h.bindings name twin hsame
  unfold Scope.classify
  cases hleft : state.scope.get? name with
  | none =>
    cases hright : other.scope.get? twin with
    | none =>
      rw [hleft, hright] at hbindings
      obtain ⟨rfl, hclass⟩ := hbindings
      exact ⟨rfl, .inr ⟨rfl, hclass⟩⟩
    | some binding =>
      rw [hleft, hright] at hbindings
      exact hbindings.elim
  | some binding =>
    cases hright : other.scope.get? twin with
    | none =>
      rw [hleft, hright] at hbindings
      exact hbindings.elim
    | some twinBinding =>
      rw [hleft, hright] at hbindings
      obtain ⟨hty, hmutable, hclass⟩ := hbindings
      exact ⟨by simp only [hty, hmutable], .inl ⟨binding, hclass, rfl⟩⟩

theorem Linked.enter (h : Linked links state other) {name twin : String} (hname : ¬Secret name)
    (htwin : ¬Secret twin) (ty : Ty) (mutable : Bool) :
    Linked (⟨name, twin, mutable⟩ :: links)
      { state with scope := state.scope.enter.declare name ty mutable }
      { other with scope := other.scope.enter.declare twin ty mutable } where
  bindings := by
    intro key twinKey hsame
    rw [Scope.get?_declare, Scope.get?_declare, Scope.get?_enter, Scope.get?_enter]
    rcases hsame with ⟨rfl, rfl⟩ | ⟨hne, htwinNe, hsame⟩
    · rw [if_pos rfl, if_pos rfl, Link.class?, if_pos rfl]
      exact ⟨rfl, rfl, rfl⟩
    · rw [if_neg (Ne.symm hne), if_neg (Ne.symm htwinNe), Link.class?, if_neg hne]
      exact h.bindings key twinKey hsame
  unbound := by
    intro key hunbound hkey
    obtain ⟨⟨hne, htwinNe⟩, hrest⟩ := List.forall_mem_cons.mp hunbound
    rw [Scope.get?_declare, Scope.get?_declare, Scope.get?_enter, Scope.get?_enter,
      if_neg (Ne.symm hne), if_neg (Ne.symm htwinNe)]
    exact h.unbound key hrest hkey
  plain := by
    rintro key twinKey (⟨rfl, rfl⟩ | ⟨_, _, hsame⟩)
    · exact ⟨fun hsecret => absurd hsecret hname, fun hsecret => absurd hsecret htwin⟩
    · exact h.plain key twinKey hsame
  older := h.older.cons (fun number heq => absurd (heq ▸ secret_name number) hname)
    fun number heq => absurd (heq ▸ secret_name number) htwin
  valid := h.valid.enter.declare _ _ _
  twinValid := h.twinValid.enter.declare _ _ _

theorem Linked.enterUnnamed (h : Linked links state other) {number twin : Nat}
    (holder : Link.Older links number twin) (ty : Ty) (mutable : Bool) :
    Linked links
      { state with scope := state.scope.enter.declare (FreshNames.name number) ty mutable }
      { other with scope := other.scope.enter.declare (FreshNames.name twin) ty mutable } where
  bindings := by
    intro key twinKey hsame
    obtain ⟨hkey, htwinKey⟩ := holder key twinKey hsame
    rw [Scope.get?_declare, Scope.get?_declare, Scope.get?_enter, Scope.get?_enter,
      if_neg fun heq => Nat.lt_irrefl _ (hkey _ heq),
      if_neg fun heq => Nat.lt_irrefl _ (htwinKey _ heq)]
    exact h.bindings key twinKey hsame
  unbound := by
    intro key hunbound hkey
    have hne : ∀ number, key ≠ FreshNames.name number := fun number heq =>
      hkey (heq ▸ secret_name number)
    rw [Scope.get?_declare, Scope.get?_declare, Scope.get?_enter, Scope.get?_enter,
      if_neg (hne number), if_neg (hne twin)]
    exact h.unbound key hunbound hkey
  plain := h.plain
  older := h.older
  valid := h.valid.enter.declare _ _ _
  twinValid := h.twinValid.enter.declare _ _ _

/-- A local that the left side does not have enters the scope on the right. -/
theorem Linked.enterSecret (h : Linked links state other) {name : String} (hsecret : Secret name)
    (hname : ¬IsGenerated name) (ty : Ty) (mutable : Bool) :
    Linked links state { other with scope := other.scope.enter.declare name ty mutable } where
  bindings := by
    intro key twinKey hsame
    have hne : twinKey ≠ name := fun heq => hname (heq ▸ (h.plain key twinKey hsame).2 (heq ▸ hsecret))
    rw [Scope.get?_declare, Scope.get?_enter, if_neg hne]
    exact h.bindings key twinKey hsame
  unbound := by
    intro key hunbound hkey
    have hne : key ≠ name := fun heq => hkey (heq ▸ hsecret)
    rw [Scope.get?_declare, Scope.get?_enter, if_neg hne]
    exact h.unbound key hunbound hkey
  plain := h.plain
  older := h.older
  valid := h.valid
  twinValid := h.twinValid.enter.declare _ _ _

end FlatState

namespace FlattensAlike

variable [OwnNames] {links : List Link} {before twinBefore middle twinMiddle after twinAfter : FlatState}
  {hoists twins others twinOthers : List Hoist} {good better : List Link → Prop}

theorem refl (h : FlatState.Linked links before twinBefore)
    (hgood : ∀ more, Link.Keeps links more → good more) :
    FlattensAlike links before twinBefore before twinBefore [] [] good where
  left := ⟨Nat.le_refl _, h.valid.like⟩
  right := ⟨Nat.le_refl _, h.twinValid.like⟩
  numbered := .nil (Nat.le_refl _) (Nat.le_refl _)
  inits := fun more _ => .nil more
  alike := hgood

theorem mono (h : FlattensAlike links before twinBefore after twinAfter hoists twins good)
    (himp : ∀ more, good more → better more) :
    FlattensAlike links before twinBefore after twinAfter hoists twins better :=
  { h with alike := fun more hmore => himp more (h.alike more hmore) }

theorem append (hlinked : FlatState.Linked links before twinBefore)
    (h : FlattensAlike links before twinBefore middle twinMiddle hoists twins good)
    (hmore : FlattensAlike links middle twinMiddle after twinAfter others twinOthers better) :
    FlattensAlike links before twinBefore after twinAfter (hoists ++ others) (twins ++ twinOthers)
      fun more => good more ∧ better more where
  left := h.left.trans hmore.left
  right := h.right.trans hmore.right
  numbered := h.numbered.append hmore.numbered
  inits := by
    intro more hkeeps
    refine (h.inits more hkeeps).append (hmore.inits _ ?_)
    exact h.numbered.keeps hlinked.older hkeeps
  alike := by
    intro more hkeeps
    rw [h.numbered.ofHoists_append] at hkeeps
    refine ⟨h.alike more (.trans ?_ hkeeps), hmore.alike more (.trans ?_ hkeeps)⟩
    · exact hmore.numbered.keeps (h.numbered.older hlinked.older) (.refl _)
    · exact (h.numbered.keeps hlinked.older (.refl _)).ofHoists others twinOthers

theorem followed (hlinked : FlatState.Linked links before twinBefore)
    (h : FlattensAlike links before twinBefore middle twinMiddle hoists twins good)
    (hmore : FlattensAlike links middle twinMiddle after twinAfter [] [] better) :
    FlattensAlike links before twinBefore after twinAfter hoists twins
      fun more => good more ∧ better more := by
  simpa using h.append hlinked hmore

theorem wrap {body twin : Term}
    (h : FlattensAlike links before twinBefore after twinAfter hoists twins fun more =>
      Term.Alike more body twin) :
    FlattensAlike links before twinBefore after twinAfter [] [] fun more =>
      Term.Alike more (Term.wrap hoists body) (Term.wrap twins twin) where
  left := h.left
  right := h.right
  numbered := .nil h.left.next h.right.next
  inits := fun more _ => .nil more
  alike := fun more hkeeps => (h.inits more hkeeps).wrap (h.alike _ (hkeeps.ofHoists hoists twins))

end FlattensAlike

namespace Flattening

variable [OwnNames] {links : List Link} {before twinBefore after twinAfter state other : FlatState}

private def named (term : Term) (state : FlatState) :
    EStateM.Result CompileError FlatState (Atom × List Hoist) :=
  .ok (.name (FreshNames.name state.names.next) .immutableLocal term.ty,
    [⟨FreshNames.name state.names.next, term.ty, term⟩])
    { state with names := ⟨state.names.next + 1⟩ }

private theorem atoms_or_named {term twin : Term} (h : Term.Alike links term twin) :
    (∃ value twinValue, term = .atom value ∧ twin = .atom twinValue) ∨
      (∀ state, hoist term state = named term state) ∧ ∀ state, hoist twin state = named twin state := by
  cases h with
  | atom _ => exact .inl ⟨_, _, rfl, rfl⟩
  | _ => exact .inr ⟨fun _ => rfl, fun _ => rfl⟩

theorem hoist_mirrors {term twin : Term}
    (h : FlattensAlike links before twinBefore state other [] [] fun more =>
      Term.Alike more term twin) :
    Mirrors (hoist term) (hoist twin) state other fun result twinResult after twinAfter =>
      FlattensAlike links before twinBefore after twinAfter result.2 twinResult.2 fun more =>
        result.1.Alike more twinResult.1 := by
  have hterms := h.alike links (.refl links)
  intro result after hok
  rcases atoms_or_named hterms with ⟨value, twinValue, rfl, rfl⟩ | ⟨hnamed, htwinNamed⟩
  · cases hok
    refine ⟨_, _, rfl, h.mono fun more halike => ?_⟩
    cases halike with
    | atom hvalue => exact hvalue
  · rw [hnamed] at hok
    cases hok
    refine ⟨_, _, htwinNamed other, ?_⟩
    have hnext := h.left.next
    have htwinNext := h.right.next
    refine ⟨⟨Nat.le_succ_of_le hnext, h.left.scope⟩, ⟨Nat.le_succ_of_le htwinNext, h.right.scope⟩,
      .cons hnext htwinNext rfl rfl (.nil (Nat.le_refl _) (Nat.le_refl _)), ?_, ?_⟩
    · intro more hkeeps
      exact .cons (own_name _) (own_name _) (hterms.ty_eq) (h.alike more hkeeps) (.nil _)
    · intro more hkeeps
      rw [hterms.ty_eq]
      obtain ⟨hsame, hclass⟩ := hkeeps (FreshNames.name state.names.next)
        (FreshNames.name other.names.next) (.inl ⟨rfl, rfl⟩)
      have himmutable : Link.class? more (FreshNames.name state.names.next) =
          some .immutableLocal := hclass.trans (if_pos rfl)
      refine .name _ hsame fun known hknown => ?_
      rw [himmutable] at hknown
      exact Option.some.inj hknown

theorem within_mirrors {α β : Type} (h : FlatState.Linked links state other) {inner : List Link}
    {name twin : String} (ty : Ty) (mutable : Bool) {act : Flattening α} {twinAct : Flattening β}
    {good : α → β → List Link → Prop}
    (hkeeps : ∀ more, Link.Keeps links more →
      Link.Keeps inner (⟨name, twin, mutable⟩ :: more))
    (hact : Mirrors act twinAct { state with scope := state.scope.enter.declare name ty mutable }
      { other with scope := other.scope.enter.declare twin ty mutable }
      fun value twinValue after twinAfter =>
        FlattensAlike inner { state with scope := state.scope.enter.declare name ty mutable }
          { other with scope := other.scope.enter.declare twin ty mutable } after twinAfter [] []
          (good value twinValue)) :
    Mirrors (within name ty mutable act) (within twin ty mutable twinAct) state other
      fun value twinValue after twinAfter =>
        FlattensAlike links state other after twinAfter [] [] fun more =>
          good value twinValue (⟨name, twin, mutable⟩ :: more) := by
  intro value final hok
  obtain ⟨_, _, henter, hok⟩ := bind_eq_ok.mp hok
  cases henter
  obtain ⟨twinValue, twinFinal, htwin, last, twinLast, hgood, rfl, rfl⟩ :=
    hact.ensuring value final hok
  refine ⟨twinValue, _, (bind_of_ok rfl).trans htwin, ?_⟩
  refine ⟨⟨hgood.left.next, hgood.left.scope.leave h.valid⟩,
    ⟨hgood.right.next, hgood.right.scope.leave h.twinValid⟩,
    .nil hgood.left.next hgood.right.next, fun more _ => .nil more, fun more hmore => ?_⟩
  exact hgood.alike _ (hkeeps more hmore)

end Flattening

end IsaBackend
