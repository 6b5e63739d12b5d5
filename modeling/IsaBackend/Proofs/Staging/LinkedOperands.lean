import IsaBackend.Proofs.Meaning.Operands
import IsaBackend.Proofs.Staging.LinkedStorage
import IsaBackend.Proofs.Staging.Operands

/-!
# Operands of linked atoms

Atoms that mean the same on two sides are loaded in the same way: where one side succeeds so does the
other, what they emit matches, and their operands mean the same once the locals that were taken on
the way are tied. Storing an operand and cleaning up leaves the facts as they were.
-/

namespace IsaBackend

open StagingState

section Atoms

variable [OwnNames] {links : List Link}

private theorem Atom.AlikeAll.bitsValue {atoms twins : List Atom}
    (h : Atom.AlikeAll links atoms twins)
    {value result : Nat} (hvalue : Staging.bitsValue value atoms = .ok result) :
    Staging.bitsValue value twins = .ok result := by
  induction atoms generalizing value twins with
  | nil =>
    cases h
    exact hvalue
  | cons atom atoms ih =>
    cases h with
    | cons hatom hrest =>
      unfold Staging.bitsValue at hvalue
      split at hvalue
      · rename_i heq
        cases heq
      · rename_i heq
        cases heq
        cases hatom
        exact ih hrest hvalue
      · cases hvalue

end Atoms

namespace Instr

theorem transfer_ok {dest twin : Place} {value twinValue : Operand} {context : String}
    {instr : Instr} (hdest : dest.Parallel twin) (hrep : value.rep = twinValue.rep)
    (h : transfer dest value context = .ok instr) (twinContext : String) :
    ∃ twinInstr, transfer twin twinValue twinContext = .ok twinInstr ∧
      instr.Moves dest value ∧ twinInstr.Moves twin twinValue := by
  unfold transfer at h ⊢
  rw [← hdest.rep_eq, ← hrep]
  split at h
  · cases h
    exact ⟨_, rfl, moves_store dest value, moves_store twin twinValue⟩
  · cases h
    exact ⟨_, rfl, .inl rfl, .inl rfl⟩
  · cases h

end Instr

/-- Code of two sides between their states that leaves the live storage and the facts as they
were. -/
structure EvenCode [OwnNames] (needs : Facts → Prop) (before after : Sides)
    (code twin : List Instr) : Prop where
  leads : before.Leads after
  level : after.Level
  live : after.left.live = before.left.live
  twinLive : after.right.live = before.right.live
  run : ∀ exit facts, needs facts → facts.Clear before after →
    Instr.Match exit facts code twin facts

/-- Code of two sides that leaves the live storage as it was and ties a local without storage. -/
structure KeepsAlike [OwnNames] (needs : Facts → Prop) (before after : Sides)
    (name twin : String) (code twinCode : List Instr) : Prop where
  leads : before.Leads after
  level : after.Level
  live : after.left.live = before.left.live
  twinLive : after.right.live = before.right.live
  news : before.News after [(name, twin)]
  run : ∀ exit facts, needs facts → facts.Clear before after →
    Instr.Match exit facts code twinCode (facts.tie name twin)

/-- Operands of two sides that mean the same once some locals are tied. The setups tie them, and the
cleanups release their storage. -/
structure LoadsAlike [OwnNames] (needs : Facts → Prop) (before after : Sides)
    (pairs : List (String × String)) (loaded twin : Loaded) : Prop where
  leads : before.Leads after
  level : after.Level
  news : before.News after pairs
  above : before.Above after pairs loaded.cleanup twin.cleanup
  rep : loaded.value.rep = twin.value.rep
  run : ∀ exit facts, needs facts → facts.Clear before after →
    Instr.Match exit facts loaded.setup twin.setup (facts.join pairs)
  value : ∀ facts most : Facts, needs facts → facts.Within most →
    (∀ pair ∈ pairs, pair ∈ most.ties) → loaded.value.Matches most twin.value

section Code

variable [OwnNames] {needs more : Facts → Prop} {links : List Link}
  {before middle after sides : Sides} {pairs : List (String × String)}

namespace EvenCode

variable {code twin rest twinRest : List Instr}

theorem nil (hlevel : sides.Level) : EvenCode needs sides sides [] [] :=
  ⟨.refl sides, hlevel, rfl, rfl, fun exit facts _ _ => .nil exit facts⟩

theorem weaken (h : EvenCode more before after code twin)
    (himp : ∀ facts, needs facts → more facts) : EvenCode needs before after code twin :=
  ⟨h.leads, h.level, h.live, h.twinLive, fun exit facts hneeds =>
    h.run exit facts (himp facts hneeds)⟩

theorem append (h : EvenCode needs before middle code twin)
    (hrest : EvenCode needs middle after rest twinRest) :
    EvenCode needs before after (code ++ rest) (twin ++ twinRest) where
  leads := h.leads.trans hrest.leads
  level := hrest.level
  live := hrest.live.trans h.live
  twinLive := hrest.twinLive.trans h.twinLive
  run := fun exit facts hneeds hclear =>
    (h.run exit facts hneeds (hclear.first hrest.leads)).append
      (hrest.run exit facts hneeds (hclear.last h.leads))

theorem linked (h : EvenCode needs before after code twin) (hlinked : before.Linked links) :
    after.Linked links :=
  hlinked.lead h.leads (by rw [h.live, h.twinLive, hlinked.live])

theorem serves (h : EvenCode needs before after code twin) {facts : Facts}
    (hserves : facts.Serves links before) : facts.Serves links after :=
  hserves.lead h.leads (.refl facts)
    fun pair hp => hserves.live pair (h.live ▸ h.twinLive ▸ hp)

/-- The scope in which code was staged does not show in it. -/
theorem exit {name twinName : String} {entry other : Local}
    (h : EvenCode needs (before.enter name twinName entry other) after code twin) :
    EvenCode needs before (after.exit before name twinName) code twin :=
  ⟨h.leads.exit, h.level.exit before name twinName, h.live, h.twinLive,
    fun exit facts hneeds hclear => h.run exit facts hneeds ⟨hclear.left, hclear.right⟩⟩

theorem loop {rounds twinRounds : List Instr} (h : EvenCode needs before after code twin)
    (hrounds : rounds ≠ []) (htwinRounds : twinRounds ≠ [])
    (hrun : ∀ facts, needs facts → facts.Clear before after →
      Instr.Match facts facts rounds twinRounds facts) :
    EvenCode needs before after [.loop rounds] [.loop twinRounds] :=
  ⟨h.leads, h.level, h.live, h.twinLive, fun exit facts hneeds hclear =>
    .loop hrounds htwinRounds (hrun facts hneeds hclear) (.nil exit facts)⟩

end EvenCode

namespace LoadsAlike

variable {loaded twin : Loaded}

private theorem inline {value twinValue : Operand} (hlevel : sides.Level)
    (hrep : value.rep = twinValue.rep)
    (h : ∀ facts most : Facts, needs facts → facts.Within most → value.Matches most twinValue) :
    LoadsAlike needs sides sides [] { value } { value := twinValue } where
  leads := .refl sides
  level := hlevel
  news := .nil
  above := .nil rfl rfl
  rep := hrep
  run := fun exit facts _ _ => .nil exit facts
  value := fun facts most hneeds hwithin _ => h facts most hneeds hwithin

theorem value_join (h : LoadsAlike needs before after pairs loaded twin) {facts : Facts}
    (hneeds : needs facts) : loaded.value.Matches (facts.join pairs) twin.value :=
  h.value facts _ hneeds (facts.within_join pairs) fun _ hp => List.mem_append_left _ hp

/-- Code that uses the operand and is cleaned up after leaves everything as it was. -/
theorem use (h : LoadsAlike needs before after pairs loaded twin)
    {code twinCode : List Instr} {exit facts : Facts} (hneeds : needs facts)
    (hclear : facts.Clear before after)
    (hcode : Instr.Match exit (facts.join pairs) code twinCode (facts.join pairs)) :
    Instr.Match exit facts (loaded.setup ++ code ++ loaded.cleanup)
      (twin.setup ++ twinCode ++ twin.cleanup) facts :=
  ((h.run exit facts hneeds hclear).append hcode).append
    (h.above.cleanup h.level (fun _ hp => List.mem_append_left _ hp) (facts.within_join pairs)
      (hclear.not_has h.news))

private theorem linked (h : LoadsAlike needs before after pairs loaded twin)
    (hlinked : before.Linked links) : after.Linked links :=
  hlinked.lead h.leads (h.above.length_eq hlinked.live)

private theorem store (h : LoadsAlike needs before after pairs loaded twin) {dest twinDest : Place}
    {instr twinInstr : Instr} (hmoves : instr.Moves dest loaded.value)
    (htwinMoves : twinInstr.Moves twinDest twin.value) :
    EvenCode (fun facts => needs facts ∧ dest.Matches facts twinDest) before
      (after.withLive before.left.live before.right.live)
      (loaded.setup ++ [instr] ++ loaded.cleanup) (twin.setup ++ [twinInstr] ++ twin.cleanup) where
  leads := h.leads.trans (after.leads_withLive _ _)
  level := h.above.settled h.level
  live := rfl
  twinLive := rfl
  run := by
    intro exit facts hneeds hclear
    have hact : instr.Act (facts.join pairs) twinInstr :=
      .move hmoves htwinMoves (hneeds.2.mono (facts.within_join pairs)) (h.value_join hneeds.1)
    exact h.use hneeds.1 (hclear.first (after.leads_withLive _ _)) (.act hact (.nil _ _))

private theorem append {others : List (String × String)} {next twinNext : Loaded}
    (h : LoadsAlike needs before middle pairs loaded twin)
    (hnext : LoadsAlike more middle after others next twinNext)
    (himp : ∀ facts most : Facts, needs facts → facts.Within most →
      (∀ pair ∈ pairs, pair ∈ most.ties) → more most) :
    LoadsAlike needs before after (others ++ pairs)
      { setup := loaded.setup ++ next.setup, value := next.value,
        cleanup := next.cleanup ++ loaded.cleanup }
      { setup := twin.setup ++ twinNext.setup, value := twinNext.value,
        cleanup := twinNext.cleanup ++ twin.cleanup } where
  leads := h.leads.trans hnext.leads
  level := hnext.level
  news := h.news.append hnext.news h.leads hnext.leads
  above := h.above.append hnext.above
  rep := hnext.rep
  run := by
    intro exit facts hneeds hclear
    have hmore : more (facts.join pairs) := himp facts _ hneeds (facts.within_join pairs)
      fun _ hp => List.mem_append_left _ hp
    have hsecond := hnext.run exit (facts.join pairs) hmore (hclear.join h.leads h.news)
    rw [Facts.join_join] at hsecond
    exact (h.run exit facts hneeds (hclear.first hnext.leads)).append hsecond
  value := by
    intro facts most hneeds hwithin hties
    have hmore : more most := himp facts most hneeds hwithin
      fun pair hp => hties pair (List.mem_append_right _ hp)
    exact hnext.value most most hmore (.refl most) fun pair hp =>
      hties pair (List.mem_append_left _ hp)

end LoadsAlike

theorem Sides.Declares.fill {name twin : String} {rep : Rep} {decl twinDecl : Instr}
    {code twinCode : List Instr} (h : before.Declares needs name twin rep decl twinDecl middle)
    (hcode : EvenCode more middle after code twinCode)
    (himp : ∀ facts most : Facts, needs facts → facts.Within most →
      (Place.name name rep).Matches most (.name twin rep) → more most) :
    LoadsAlike needs before after [(name, twin)]
      { setup := decl :: code, value := .name name rep, cleanup := Instr.releaseOf name rep }
      { setup := twinDecl :: twinCode, value := .name twin rep,
        cleanup := Instr.releaseOf twin rep } where
  leads := h.leads.trans hcode.leads
  level := hcode.level
  news := h.news.mono hcode.leads
  above := h.above.live_eq hcode.live hcode.twinLive
  rep := rfl
  run := by
    intro exit facts hneeds hclear
    have hfirst := hclear.first hcode.leads
    refine h.match hneeds hfirst (hcode.run exit (facts.tie name twin) ?_ ?_)
    · exact himp facts _ hneeds (facts.within_tie name twin)
        (Place.matches_name List.mem_cons_self rep)
    · exact hclear.join h.leads h.news
  value := fun _ _ _ _ hties => .name rep (.inl (hties _ List.mem_cons_self))

private theorem Sides.Declares.loads {name twin : String} {rep : Rep} {decl twinDecl : Instr}
    (h : before.Declares needs name twin rep decl twinDecl after) :
    LoadsAlike needs before after [(name, twin)]
      { setup := [decl], value := .name name rep, cleanup := Instr.releaseOf name rep }
      { setup := [twinDecl], value := .name twin rep, cleanup := Instr.releaseOf twin rep } :=
  h.fill (.nil h.level) fun _ _ _ _ _ => trivial

namespace KeepsAlike

variable {name twin : String} {code twinCode : List Instr}

theorem linked (h : KeepsAlike needs before after name twin code twinCode)
    (hlinked : before.Linked links) : after.Linked links :=
  hlinked.lead h.leads (by rw [h.live, h.twinLive, hlinked.live])

theorem weaken (h : KeepsAlike more before after name twin code twinCode)
    (himp : ∀ facts, needs facts → more facts) :
    KeepsAlike needs before after name twin code twinCode :=
  ⟨h.leads, h.level, h.live, h.twinLive, h.news, fun exit facts hneeds =>
    h.run exit facts (himp facts hneeds)⟩

theorem serves (h : KeepsAlike needs before after name twin code twinCode) {facts : Facts}
    (hserves : facts.Serves links before) : (facts.tie name twin).Serves links after :=
  hserves.lead h.leads (facts.within_tie name twin)
    fun pair hp => List.mem_cons_of_mem _ (hserves.live pair (h.live ▸ h.twinLive ▸ hp))

theorem fill {rest twinRest : List Instr}
    (h : KeepsAlike needs before middle name twin code twinCode)
    (hrest : EvenCode more middle after rest twinRest)
    (himp : ∀ facts, needs facts → more (facts.tie name twin)) :
    KeepsAlike needs before after name twin (code ++ rest) (twinCode ++ twinRest) where
  leads := h.leads.trans hrest.leads
  level := hrest.level
  live := hrest.live.trans h.live
  twinLive := hrest.twinLive.trans h.twinLive
  news := h.news.mono hrest.leads
  run := by
    intro exit facts hneeds hclear
    exact (h.run exit facts hneeds (hclear.first hrest.leads)).append
      (hrest.run exit _ (himp facts hneeds) (hclear.join h.leads h.news))

theorem even (h : KeepsAlike needs before after name twin code twinCode) :
    EvenCode needs before after code twinCode :=
  ⟨h.leads, h.level, h.live, h.twinLive, fun exit facts hneeds hclear =>
    (h.run exit facts hneeds hclear).forget (facts.within_tie name twin)⟩

end KeepsAlike

theorem Sides.Declares.keeps {name twin : String} {rep : Rep} {decl twinDecl : Instr}
    (h : before.Declares needs name twin rep decl twinDecl after) (hstack : rep.isStack = true) :
    KeepsAlike needs before after name twin [decl] [twinDecl] where
  leads := h.leads
  level := h.level
  live := (h.live_eq hstack).1
  twinLive := (h.live_eq hstack).2
  news := h.news
  run := fun exit _ hneeds hclear => h.match hneeds hclear (.nil exit _)

theorem Sides.Claims.keeps {name twin : String} (h : before.Claims name twin after) (rep : Rep) :
    KeepsAlike needs before after name twin [.decl rep name] [.decl rep twin] where
  leads := h.leads
  level := h.level
  live := h.live
  twinLive := h.twinLive
  news := h.news
  run := fun exit _ _ hclear =>
    have hnot := hclear.not_has h.news (name, twin) List.mem_cons_self
    .introduce (.decl rep) h.alike hnot.1 hnot.2 (.nil exit _)

/-- An operand is kept in a local without storage, and everything else is cleaned up. -/
theorem LoadsAlike.keep {loaded twin : Loaded} {name twinName : String} {rep : Rep}
    {decl twinDecl store twinStore : Instr}
    (h : LoadsAlike needs before middle pairs loaded twin)
    (hdecl : middle.Declares (fun _ => True) name twinName rep decl twinDecl after)
    (hstack : rep.isStack = true) (hmoves : store.Moves (.name name rep) loaded.value)
    (htwinMoves : twinStore.Moves (.name twinName rep) twin.value) :
    KeepsAlike needs before (after.withLive before.left.live before.right.live) name twinName
      (loaded.setup ++ [decl, store] ++ loaded.cleanup)
      (twin.setup ++ [twinDecl, twinStore] ++ twin.cleanup) where
  leads := (h.leads.trans hdecl.leads).trans (after.leads_withLive _ _)
  level := (h.above.live_eq (hdecl.live_eq hstack).1 (hdecl.live_eq hstack).2).settled hdecl.level
  live := rfl
  twinLive := rfl
  news := by
    have hnews := Sides.News.nil.append hdecl.news h.leads hdecl.leads
    exact hnews.mono (after.leads_withLive _ _)
  run := by
    intro exit facts hneeds hclear
    have hclear := hclear.first (after.leads_withLive _ _)
    have hlater := hclear.join h.leads h.news
    have hwithin : facts.Within ((facts.join pairs).tie name twinName) :=
      (facts.within_join pairs).trans (Facts.within_tie _ _ _)
    have hties : ∀ pair ∈ pairs, pair ∈ ((facts.join pairs).tie name twinName).ties :=
      fun _ hp => List.mem_cons_of_mem _ (List.mem_append_left _ hp)
    have hact : store.Act ((facts.join pairs).tie name twinName) twinStore :=
      .move hmoves htwinMoves (Place.matches_name List.mem_cons_self rep)
        (h.value facts _ hneeds hwithin hties)
    have hstored := (h.run exit facts hneeds (hclear.first hdecl.leads)).append
      (hdecl.match trivial hlater (.act hact (.nil exit _)))
    have hkept : (facts.tie name twinName).Within ((facts.join pairs).tie name twinName) :=
      fun pair hp => (List.mem_cons.mp hp).elim (fun heq => heq ▸ List.mem_cons_self)
        fun hp => hwithin hp
    -- the local is newer than what the cleanup releases
    refine hstored.append (h.above.cleanup h.level hties hkept fun pair hp => ?_)
    have hnot := (hclear.first hdecl.leads).not_has h.news pair hp
    have hname := hdecl.news.left _ List.mem_cons_self
    have htwinName := hdecl.news.right _ List.mem_cons_self
    constructor
    · intro hhas
      rcases Facts.hasLeft_tie.mp hhas with heq | hhas
      · exact hname.1 (heq ▸ (h.news.left pair hp).2)
      · exact hnot.1 hhas
    · intro hhas
      rcases Facts.hasRight_tie.mp hhas with heq | hhas
      · exact htwinName.1 (heq ▸ (h.news.right pair hp).2)
      · exact hnot.2 hhas

end Code

namespace Staging

private theorem repsOf_mirrors (around : Surroundings) (tys : List Ty) {sides : Sides} :
    Mirrors (repsOf around tys) (repsOf around tys) sides fun reps twinReps after =>
      reps = twinReps ∧ sides = after := by
  induction tys with
  | nil => exact .pure ⟨rfl, rfl⟩
  | cons ty rest ih =>
    refine (repOf_mirrors around ty).bind ?_
    rintro rep _ _ ⟨⟨rfl, _⟩, rfl⟩
    refine ih.bind ?_
    rintro reps _ _ ⟨rfl, rfl⟩
    exact .pure ⟨rfl, rfl⟩

variable [OwnNames] {links : List Link} {sides : Sides}

/-- Two loads, where one side succeeds so does the other, to operands that mean the same. -/
def LoadsMirror (links : List Link) (sides : Sides)
    (load twin : Staging Loaded) : Prop :=
  Mirrors load twin sides fun loaded twinLoaded after =>
    ∃ pairs, LoadsAlike (fun facts => facts.Scopes links sides) sides after pairs loaded
      twinLoaded

private theorem loadText_mirrors (hlevel : sides.Level) {rep : Rep} (hheap : rep.isStack = false)
    (text : String) : LoadsMirror links sides (loadText rep text) (loadText rep text) := by
  refine (tempFrom_mirrors hlevel hheap _ _).bind ?_
  rintro ⟨name, init⟩ ⟨twin, twinInit⟩ after h
  exact .pure ⟨_, (h.weaken fun _ _ => .inline .string (.plain rfl)).loads⟩

private theorem loadUndefined_mirrors (hlevel : sides.Level) (rep : Rep) :
    LoadsMirror links sides (loadUndefined rep) (loadUndefined rep) := by
  refine (temp_mirrors hlevel rep).bind ?_
  rintro ⟨name, decl⟩ ⟨twin, twinDecl⟩ after h
  exact .pure ⟨_, (h.weaken fun _ _ => trivial).loads⟩

private theorem pure_mirrors (hlevel : sides.Level) {expr : Inline} (hplain : expr.names = [])
    (rep : Rep) : LoadsMirror links sides (pure { value := .inline expr rep })
      (pure { value := .inline expr rep }) :=
  .pure ⟨[], .inline hlevel rfl fun _ _ _ _ => .inline rep (.plain hplain)⟩

private theorem loadDigits_mirrors (hlevel : sides.Level) (rep : Rep) (digits mark : String)
    (radix bitsPerDigit : Nat) :
    LoadsMirror links sides (loadDigits rep digits mark radix bitsPerDigit)
      (loadDigits rep digits mark radix bitsPerDigit) := by
  unfold loadDigits
  split
  · rename_i expr hexpr
    unfold Inline.ofDigits? at hexpr
    simp only at hexpr
    split at hexpr
    · obtain ⟨value, _, rfl⟩ := Option.map_eq_some_iff.mp hexpr
      exact pure_mirrors hlevel rfl _
    · cases hexpr
  · exact loadText_mirrors hlevel rfl _

private theorem loadLiteral_mirrors (hlevel : sides.Level) (rep : Rep) (value : Literal) :
    LoadsMirror links sides (loadLiteral rep value) (loadLiteral rep value) := by
  cases value with
  | undefined => exact loadUndefined_mirrors hlevel rep
  | num value =>
    simp only [loadLiteral]
    split
    · exact pure_mirrors hlevel rfl _
    · exact loadText_mirrors hlevel rfl _
  | hex digits => exact loadDigits_mirrors hlevel _ _ _ _ _
  | bin digits => exact loadDigits_mirrors hlevel _ _ _ _ _
  | _ => exact pure_mirrors hlevel rfl _

private theorem loadName_mirrors (around : Surroundings) (hlevel : sides.Level)
    (hlinked : sides.Linked links) {name twin : String} (hsame : Link.Same links name twin)
    (cls : NameClass) (ty : Ty) :
    LoadsMirror links sides (loadName around name cls ty)
      (loadName around twin cls ty) := by
  have hentries := hlinked.locals name twin hsame
  refine Mirrors.get.bind ?_
  rintro _ _ _ ⟨rfl, rfl, rfl⟩
  cases hlocal : sides.left.locals.get? name with
  | some entry =>
    rw [hlocal] at hentries
    cases htwin : sides.right.locals.get? twin with
    | none =>
      rw [htwin] at hentries
      exact hentries.elim
    | some other =>
      rw [htwin] at hentries
      have hrep : entry.rep = other.rep := hentries
      refine .pure ⟨[], .inline hlevel hrep fun facts most hscopes hwithin => ?_⟩
      rw [hrep]
      exact .name _ (.inl (hwithin (hscopes name twin hsame entry other hlocal htwin)))
  | none =>
    rw [hlocal] at hentries
    cases htwin : sides.right.locals.get? twin with
    | some other =>
      rw [htwin] at hentries
      exact hentries.elim
    | none =>
      rw [htwin] at hentries
      obtain ⟨rfl, hfree⟩ := hentries
      refine (repOf_mirrors around ty).bind ?_
      rintro rep _ _ ⟨⟨rfl, _⟩, rfl⟩
      split
      · refine .pure ⟨[], .inline hlevel rfl fun _ _ _ _ =>
          .inline rep (.name (.inr ⟨rfl, hfree⟩))⟩
      · refine (temp_mirrors hlevel rep).bind ?_
        rintro ⟨result, decl⟩ ⟨twinResult, twinDecl⟩ after h
        have hcall : EvenCode (fun facts =>
            (Place.name result rep).Matches facts (.name twinResult rep)) after after
            [.call (.name result rep) name [.unit]] [.call (.name twinResult rep) name [.unit]] :=
          ⟨.refl after, h.level, rfl, rfl, fun exit facts hdest _ =>
            .act (.call name hdest (.cons (.inline .unit (.plain rfl)) .nil)) (.nil exit facts)⟩
        exact .pure ⟨_, (h.weaken fun _ _ => trivial).fill hcall fun _ _ _ _ hdest => hdest⟩
      · exact .pure ⟨[], .inline hlevel rfl fun _ _ _ _ => .name rep (.inr ⟨rfl, hfree⟩)⟩

private theorem loadInline_mirrors (around : Surroundings) (hlevel : sides.Level) {expr : Inline}
    (hplain : expr.names = []) (ty : Ty) :
    LoadsMirror links sides (loadInline around expr ty) (loadInline around expr ty) := by
  refine (repOf_mirrors around ty).bind ?_
  rintro rep _ _ ⟨⟨rfl, _⟩, rfl⟩
  split
  · exact pure_mirrors hlevel hplain _
  · split
    · exact loadText_mirrors hlevel rfl _
    · exact .throw

private theorem loadBits_mirrors (around : Surroundings) (hlevel : sides.Level)
    {elems twins : List Atom} (hall : Atom.AlikeAll links elems twins) (ty : Ty) :
    LoadsMirror links sides (loadBits around elems ty) (loadBits around twins ty) := by
  refine (repOf_mirrors around ty).bind ?_
  rintro rep _ _ ⟨⟨rfl, _⟩, rfl⟩
  refine (Mirrors.lift fun value hvalue => ⟨value, hall.bitsValue hvalue, rfl⟩).bind ?_
  rintro value _ _ ⟨rfl, rfl⟩
  simp only [hall.length_eq]
  split
  · exact pure_mirrors hlevel rfl _
  · split
    · exact loadText_mirrors hlevel rfl _
    · exact .throw

mutual

/-- Atoms that mean the same are loaded as operands that do. -/
theorem load_mirrors (around : Surroundings) :
    ∀ {atom twin : Atom}, atom.Alike links twin → ∀ {sides : Sides}, sides.Level →
      sides.Linked links → LoadsMirror links sides (load around atom) (load around twin)
  | _, _, .lit value ty, sides, hlevel, _ => by
    refine (repOf_mirrors around ty).bind ?_
    rintro rep _ _ ⟨⟨rfl, _⟩, rfl⟩
    exact loadLiteral_mirrors hlevel rep value
  | _, _, .name ty hsame _, sides, hlevel, hlinked =>
    loadName_mirrors around hlevel hlinked hsame _ ty
  | _, _, .refTo name ty, sides, hlevel, _ => by
    refine (repOf_mirrors around ty).bind ?_
    rintro rep _ _ ⟨⟨rfl, _⟩, rfl⟩
    exact pure_mirrors hlevel rfl _
  | _, _, @Atom.Alike.tuple _ _ elems twins hall, sides, hlevel, hlinked => by
    unfold load
    rw [hall.tys_eq]
    refine (repOf_mirrors around _).bind ?_
    rintro rep _ _ ⟨⟨rfl, _⟩, rfl⟩
    refine (temp_mirrors hlevel rep).bind ?_
    rintro ⟨name, decl⟩ ⟨twin, twinDecl⟩ declared hdecl
    refine (loadFields_mirrors around hall (.name name twin rep) 0 rep.fields hdecl.level
      (hlinked.lead hdecl.leads (hdecl.above.length_eq hlinked.live))).bind ?_
    intro stores twinStores after hstores
    exact .pure ⟨_, (hdecl.weaken fun _ _ => trivial).fill hstores
      fun facts most hscopes hwithin hplace =>
        ⟨(hscopes.lead hdecl.leads).mono hwithin, hplace⟩⟩
  | _, _, .vector ty hall, sides, hlevel, _ => loadBits_mirrors around hlevel hall ty
  | _, _, .list ty _, sides, _, _ => by
    refine (repOf_mirrors around ty).bind ?_
    rintro rep _ _ ⟨⟨rfl, _⟩, rfl⟩
    exact .throw
  | _, _, .inline ty hplain, sides, hlevel, _ => loadInline_mirrors around hlevel hplain ty

theorem loadFields_mirrors (around : Surroundings) :
    ∀ {elems twins : List Atom}, Atom.AlikeAll links elems twins → ∀ {base twinBase : Place},
      base.Parallel twinBase → ∀ (index : Nat) (fields : List (String × Rep)) {sides : Sides},
      sides.Level → sides.Linked links →
      Mirrors (loadFields around base index elems fields)
        (loadFields around twinBase index twins fields) sides fun code twinCode after =>
        EvenCode (fun facts => facts.Scopes links sides ∧ base.Matches facts twinBase)
          sides after code twinCode
  | _, _, .nil, _, _, _, _, _, _, hlevel, _ => .pure (.nil hlevel)
  | _, _, .cons _ _, _, _, _, _, [], _, hlevel, _ => .pure (.nil hlevel)
  | _, _, .cons helem hall, base, twinBase, hbase, index, (field, rep) :: fields, sides, hlevel,
      hlinked => by
    refine (load_mirrors around helem hlevel hlinked).bind ?_
    rintro loaded twinLoaded middle ⟨pairs, hloaded⟩
    refine (Mirrors.lift fun store hstore =>
      Instr.transfer_ok (.field field rep hbase) hloaded.rep hstore _).bind ?_
    rintro store twinStore _ ⟨⟨hmoves, htwinMoves⟩, rfl⟩
    refine (settle_mirrors hloaded.above).bind ?_
    rintro _ _ _ rfl
    have hfirst := hloaded.store hmoves htwinMoves
    refine (loadFields_mirrors around hall hbase (index + 1) fields hfirst.level
      (hfirst.linked hlinked)).bind ?_
    intro rest twinRest after hrest
    refine .pure ((hfirst.weaken fun facts hneeds => ?_).append (hrest.weaken fun facts hneeds => ?_))
    · exact ⟨hneeds.1, hneeds.2.field field rep⟩
    · exact ⟨hneeds.1.lead hfirst.leads, hneeds.2⟩

end

theorem storeAtom_mirrors (around : Surroundings) {dest twinDest : Place}
    (hdest : dest.Parallel twinDest) {atom twin : Atom} (halike : atom.Alike links twin)
    (context twinContext : String) (hlevel : sides.Level) (hlinked : sides.Linked links) :
    Mirrors (storeAtom around dest atom context) (storeAtom around twinDest twin twinContext) sides
      fun code twinCode after =>
        EvenCode (fun facts => facts.Scopes links sides ∧ dest.Matches facts twinDest)
          sides after code twinCode := by
  refine (load_mirrors around halike hlevel hlinked).bind ?_
  rintro loaded twinLoaded middle ⟨pairs, hloaded⟩
  refine (Mirrors.lift fun store hstore =>
    Instr.transfer_ok hdest hloaded.rep hstore _).bind ?_
  rintro store twinStore _ ⟨⟨hmoves, htwinMoves⟩, rfl⟩
  refine (settle_mirrors hloaded.above).bind ?_
  rintro _ _ _ rfl
  exact .pure (hloaded.store hmoves htwinMoves)

theorem signature_mirrors (around : Surroundings) (callee : String) {args twins : List Atom}
    (hargs : Atom.AlikeAll links args twins) (ty : Ty) :
    Mirrors (signature around callee args ty) (signature around callee twins ty) sides
      fun result twinResult after => result = twinResult ∧ sides = after := by
  unfold signature
  rw [hargs.tys_eq]
  have hreps : ∀ (tys : List Ty) (ty : Ty), Mirrors
      (do
        let params ← repsOf around tys
        return (params, ← repOf around ty))
      (do
        let params ← repsOf around tys
        return (params, ← repOf around ty)) sides
      fun result twinResult after => result = twinResult ∧ sides = after := by
    intro tys ty
    refine (repsOf_mirrors around tys).bind ?_
    rintro params _ _ ⟨rfl, rfl⟩
    refine (repOf_mirrors around ty).bind ?_
    rintro rep _ _ ⟨⟨rfl, _⟩, rfl⟩
    exact .pure ⟨rfl, rfl⟩
  split
  · exact .pure ⟨rfl, rfl⟩
  · split
    · exact hreps _ _
    · split
      · exact hreps _ _
      · exact .throw

private theorem loadArg_mirrors (around : Surroundings) (callee : String) (index : Nat)
    {arg twin : Atom} (halike : arg.Alike links twin) (param : Rep) (hlevel : sides.Level)
    (hlinked : sides.Linked links) :
    LoadsMirror links sides (loadArg around callee index arg param)
      (loadArg around callee index twin param) := by
  refine (load_mirrors around halike hlevel hlinked).bind ?_
  rintro loaded twinLoaded middle ⟨pairs, hloaded⟩
  rw [hloaded.rep]
  split
  · exact .throw
  · exact .pure ⟨pairs, hloaded⟩
  · rename_i hbridge
    refine (tempFrom_mirrors hloaded.level (Rep.isStack_of_promote hbridge) _ _).bind ?_
    rintro ⟨name, init⟩ ⟨twinName, twinInit⟩ after hinit
    exact .pure ⟨_, hloaded.append hinit.loads hloaded.value⟩
  · rename_i bridge hid hpromote hbridge
    refine (temp_mirrors hloaded.level param).bind ?_
    rintro ⟨name, decl⟩ ⟨twinName, twinDecl⟩ after hdecl
    have hstack := Rep.isStack_of_crossing hbridge hid hpromote
    have hconvert : EvenCode (fun facts => loaded.value.Matches facts twinLoaded.value ∧
        (Place.name name param).Matches facts (.name twinName param)) after after
        [.convert (.name name param) loaded.value]
        [.convert (.name twinName param) twinLoaded.value] :=
      ⟨.refl after, hdecl.level, rfl, rfl, fun exit facts hneeds _ =>
        .act (.move (.inl rfl) (.inl rfl) hneeds.2 hneeds.1) (.nil exit facts)⟩
    have hfill : LoadsAlike (fun facts => loaded.value.Matches facts twinLoaded.value)
        middle after [(name, twinName)] _ _ := (hdecl.weaken fun _ _ => trivial).fill hconvert
      fun facts most hvalue hwithin hplace => ⟨hvalue.mono hwithin, hplace⟩
    have hload := hloaded.append hfill hloaded.value
    simp only [Instr.releaseOf, hstack, if_true, List.nil_append] at hload
    exact .pure ⟨_, hload⟩

structure LoadsAllAlike (links : List Link) (before after : Sides)
    (pairs : List (String × String)) (loaded twin : List Instr × List Operand × List Instr) :
    Prop where
  leads : before.Leads after
  level : after.Level
  news : before.News after pairs
  above : before.Above after pairs loaded.2.2 twin.2.2
  run : ∀ exit facts, facts.Scopes links before → facts.Clear before after →
    Instr.Match exit facts loaded.1 twin.1 (facts.join pairs)
  values : ∀ facts : Facts, facts.Scopes links before → (∀ pair ∈ pairs, pair ∈ facts.ties) →
    Operand.MatchesAll facts loaded.2.1 twin.2.1

private theorem LoadsAllAlike.nil (hlevel : sides.Level) :
    LoadsAllAlike links sides sides [] ([], [], []) ([], [], []) where
  leads := .refl sides
  level := hlevel
  news := .nil
  above := .nil rfl rfl
  run := fun exit facts _ _ => .nil exit facts
  values := fun _ _ _ => .nil

theorem loadArgs_mirrors (around : Surroundings) (callee : String) :
    ∀ {args twins : List Atom}, Atom.AlikeAll links args twins → ∀ (index : Nat)
      (params : List Rep) {sides : Sides}, sides.Level → sides.Linked links →
      Mirrors (loadArgs around callee index args params)
        (loadArgs around callee index twins params) sides fun loaded twinLoaded after =>
        ∃ pairs, LoadsAllAlike links sides after pairs loaded twinLoaded
  | _, _, .nil, _, _, _, hlevel, _ => .pure ⟨[], .nil hlevel⟩
  | _, _, .cons _ _, _, [], _, hlevel, _ => .pure ⟨[], .nil hlevel⟩
  | _, _, .cons harg hall, index, param :: params, sides, hlevel, hlinked => by
    refine (loadArg_mirrors around callee index harg param hlevel hlinked).bind ?_
    rintro loaded twinLoaded middle ⟨pairs, hloaded⟩
    refine (loadArgs_mirrors around callee hall (index + 1) params hloaded.level
      (hloaded.linked hlinked)).bind ?_
    rintro ⟨setup, values, cleanup⟩ ⟨twinSetup, twinValues, twinCleanup⟩ after ⟨others, hrest⟩
    refine .pure ⟨others ++ pairs, hloaded.leads.trans hrest.leads, hrest.level,
      hloaded.news.append hrest.news hloaded.leads hrest.leads, hloaded.above.append hrest.above,
      ?_, ?_⟩
    · intro exit facts hscopes hclear
      have hsecond := hrest.run exit (facts.join pairs)
        ((hscopes.lead hloaded.leads).mono (facts.within_join pairs))
        (hclear.join hloaded.leads hloaded.news)
      rw [Facts.join_join] at hsecond
      exact (hloaded.run exit facts hscopes (hclear.first hrest.leads)).append hsecond
    · intro facts hscopes hties
      refine .cons (hloaded.value facts facts hscopes (.refl facts) fun pair hp => ?_)
        (hrest.values facts (hscopes.lead hloaded.leads) fun pair hp => ?_)
      · exact hties pair (List.mem_append_right _ hp)
      · exact hties pair (List.mem_append_left _ hp)

end Staging

end IsaBackend
