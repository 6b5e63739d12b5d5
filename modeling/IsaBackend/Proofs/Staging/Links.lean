import IsaBackend.Proofs.Staging.Sides
import IsaBackend.Proofs.Term.Alike

/-!
# Linked scopes

The states of two stagings go with some links if linked locals have the same representations. Facts
serve the links if linked locals are tied.
-/

namespace IsaBackend

open StagingState

def Local.Linked [OwnNames] (name twin : String) : Option Local → Option Local → Prop
  | some entry, some other => entry.rep = other.rep
  | none, none => name = twin ∧ ¬Own name
  | _, _ => False

/-- The scopes of two sides are linked, and as much storage is live on both. -/
structure Sides.Linked [OwnNames] (sides : Sides) (links : List Link) : Prop where
  locals : ∀ name twin, Link.Same links name twin →
    Local.Linked name twin (sides.left.locals.get? name) (sides.right.locals.get? twin)
  live : sides.left.live.length = sides.right.live.length

namespace Facts

variable [OwnNames]

def Scopes (facts : Facts) (links : List Link) (sides : Sides) : Prop :=
  ∀ name twin, Link.Same links name twin → ∀ entry other,
    sides.left.locals.get? name = some entry → sides.right.locals.get? twin = some other →
    (entry.name, other.name) ∈ facts.ties

/-- Facts from which a term in scope of some links can be run: linked locals and live storage are
tied. -/
structure Serves (facts : Facts) (links : List Link) (sides : Sides) : Prop where
  scopes : facts.Scopes links sides
  live : ∀ pair ∈ tiesOf sides.left.live sides.right.live, pair ∈ facts.ties

end Facts

namespace Sides

def enter (sides : Sides) (name twin : String) (entry other : Local) : Sides :=
  ⟨sides.left.enter name entry, sides.right.enter twin other⟩

def exit (inner before : Sides) (name twin : String) : Sides :=
  ⟨inner.left.exit name (before.left.locals.get? name),
    inner.right.exit twin (before.right.locals.get? twin)⟩

theorem Leads.exit {before inner : Sides} {name twin : String} {entry other : Local}
    (h : (before.enter name twin entry other).Leads inner) :
    before.Leads (inner.exit before name twin) :=
  ⟨h.left.exit, h.right.exit⟩

end Sides

theorem Staging.within_mirrors {α β : Type} {act : Staging α} {twinAct : Staging β}
    {sides : Sides} {name twin : String} {entry other : Local} {good : α → β → Sides → Prop}
    (h : Mirrors act twinAct (sides.enter name twin entry other) good) :
    Mirrors (within name entry act) (within twin other twinAct) sides fun value twinValue after =>
      ∃ inner, good value twinValue inner ∧ after = inner.exit sides name twin :=
  h.ensuring.step rfl rfl

variable [OwnNames] {links : List Link} {before after sides : Sides} {facts more : Facts}

theorem Sides.Linked.lead (h : before.Linked links) (hleads : before.Leads after)
    (hlive : after.left.live.length = after.right.live.length) : after.Linked links where
  locals := by
    intro name twin hsame
    rw [hleads.left.locals, hleads.right.locals]
    exact h.locals name twin hsame
  live := hlive

namespace Facts

theorem Scopes.lead (h : facts.Scopes links before) (hleads : before.Leads after) :
    facts.Scopes links after := by
  intro name twin hsame entry other hentry hother
  rw [hleads.left.locals] at hentry
  rw [hleads.right.locals] at hother
  exact h name twin hsame entry other hentry hother

theorem Scopes.mono (h : facts.Scopes links sides) (hmore : facts.Within more) :
    more.Scopes links sides := fun name twin hsame entry other hentry hother =>
  hmore (h name twin hsame entry other hentry hother)

theorem Serves.lead (h : facts.Serves links before) (hleads : before.Leads after)
    (hmore : facts.Within more)
    (hlive : ∀ pair ∈ tiesOf after.left.live after.right.live, pair ∈ more.ties) :
    more.Serves links after :=
  ⟨(h.scopes.lead hleads).mono hmore, hlive⟩

theorem Serves.join {pairs : List (String × String)} {cleanup twinCleanup : List Instr}
    (h : facts.Serves links before) (hleads : before.Leads after)
    (habove : before.Above after pairs cleanup twinCleanup) :
    (facts.join pairs).Serves links after := by
  refine h.lead hleads (facts.within_join pairs) fun pair hp => ?_
  obtain ⟨entries, twins, hlive, htwin, _, _, hlength, hties⟩ := habove
  rw [hlive, htwin, tiesOf_append hlength] at hp
  rcases List.mem_append.mp hp with hp | hp
  · exact List.mem_append_left _ (hties pair hp)
  · exact List.mem_append_right _ (h.live pair hp)

end Facts

namespace Sides

theorem Level.enter (h : sides.Level) (name twin : String) (entry other : Local) :
    (sides.enter name twin entry other).Level :=
  ⟨⟨h.left.below, h.left.live, h.left.distinct⟩, ⟨h.right.below, h.right.live, h.right.distinct⟩,
    h.shared, h.taken, h.twinTaken, h.result, h.reference⟩

theorem Level.exit {inner : Sides} (h : inner.Level) (before : Sides) (name twin : String) :
    (inner.exit before name twin).Level :=
  ⟨⟨h.left.below, h.left.live, h.left.distinct⟩, ⟨h.right.below, h.right.live, h.right.distinct⟩,
    h.shared, h.taken, h.twinTaken, h.result, h.reference⟩

theorem Linked.enter (h : sides.Linked links) (name twin codeName twinCode : String) (rep : Rep)
    (mutable : Bool) :
    (sides.enter name twin ⟨codeName, rep⟩ ⟨twinCode, rep⟩).Linked
      (⟨name, twin, mutable⟩ :: links) where
  locals := by
    intro key twinKey hsame
    change Local.Linked key twinKey ((sides.left.locals.set name _).get? key)
      ((sides.right.locals.set twin _).get? twinKey)
    rw [NameTable.get?_set, NameTable.get?_set]
    rcases hsame with ⟨rfl, rfl⟩ | ⟨hne, htwinNe, hsame⟩
    · rw [if_pos rfl, if_pos rfl]
      rfl
    · rw [if_neg (Ne.symm hne), if_neg (Ne.symm htwinNe)]
      exact h.locals key twinKey hsame
  live := h.live

end Sides

namespace Facts

variable {name twin codeName twinCode : String}

theorem Serves.enter (h : facts.Serves links sides) (htied : (codeName, twinCode) ∈ facts.ties)
    (name twin : String) (rep : Rep) (mutable : Bool) :
    facts.Serves (⟨name, twin, mutable⟩ :: links)
      (sides.enter name twin ⟨codeName, rep⟩ ⟨twinCode, rep⟩) where
  scopes := by
    intro key other hsame entry twinEntry hentry hother
    change (sides.left.locals.set name _).get? key = _ at hentry
    change (sides.right.locals.set twin _).get? other = _ at hother
    rw [NameTable.get?_set] at hentry hother
    rcases hsame with ⟨rfl, rfl⟩ | ⟨hne, htwinNe, hsame⟩
    · rw [if_pos rfl] at hentry hother
      cases hentry
      cases hother
      exact htied
    · rw [if_neg (Ne.symm hne)] at hentry
      rw [if_neg (Ne.symm htwinNe)] at hother
      exact h.scopes key other hsame entry twinEntry hentry hother
  live := h.live

end Facts

end IsaBackend
