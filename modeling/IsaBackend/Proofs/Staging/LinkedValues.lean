import IsaBackend.Proofs.Staging.LinkedOperands
import IsaBackend.Staging.Term

/-!
# Values of linked terms

Two staged computations mean the same if what they compute can be delivered to places that mean the
same. Most can be delivered above any further locals, so they can be converted on the way; a branch or
a return can only be run as a whole.
-/

namespace IsaBackend

open StagingState

/-- Staged computations of two sides that deliver the same value once some locals are tied. -/
structure SuppliesAlike [OwnNames] (needs : Facts → Prop) (before after : Sides)
    (pairs : List (String × String)) (staged twin : Staged) : Prop where
  leads : before.Leads after
  level : after.Level
  news : before.News after pairs
  above : before.Above after pairs staged.cleanup twin.cleanup
  rep : staged.rep = twin.rep
  run : ∀ exit facts, needs facts → facts.Clear before after →
    Instr.Match exit facts staged.setup twin.setup (facts.join pairs)
  deliver : ∀ facts most : Facts, needs facts → facts.Within most →
    (∀ pair ∈ pairs, pair ∈ most.ties) → ∀ {dest twinDest : Place},
      dest.Matches most twinDest → (staged.deliver dest).Act most (twin.deliver twinDest)

/-- Staged computations of two sides that do the same when they are run as a whole. -/
structure StagesAlike [OwnNames] (links : List Link) (before after : Sides)
    (staged twin : Staged) : Prop where
  leads : before.Leads after
  level : after.Level
  storage : ∃ pairs, before.Above after pairs staged.cleanup twin.cleanup
  into : ∀ exit facts dest twinDest, facts.Serves links before → facts.Clear before after →
    dest.Matches facts twinDest →
    Instr.Match exit facts (staged.into dest) (twin.into twinDest) facts

section Values

variable [OwnNames] {needs more : Facts → Prop} {links : List Link}
  {before middle after : Sides} {pairs : List (String × String)} {staged twin : Staged}

theorem LoadsAlike.supplies {loaded twin : Loaded}
    (h : LoadsAlike needs before after pairs loaded twin) :
    SuppliesAlike needs before after pairs (.ofLoaded loaded) (.ofLoaded twin) where
  leads := h.leads
  level := h.level
  news := h.news
  above := h.above
  rep := h.rep
  run := h.run
  deliver := fun facts most hneeds hwithin hties _ _ hdest =>
    .move (Instr.moves_store _ _) (Instr.moves_store _ _) hdest
      (h.value facts most hneeds hwithin hties)

theorem EvenCode.effect {code twinCode : List Instr}
    (h : EvenCode needs before after code twinCode) :
    SuppliesAlike needs before after [] (.effect code) (.effect twinCode) where
  leads := h.leads
  level := h.level
  news := .nil
  above := .nil h.live h.twinLive
  rep := rfl
  run := h.run
  deliver := fun _ _ _ _ _ _ _ hdest =>
    .move (.inr (.inl rfl)) (.inr (.inl rfl)) hdest (.inline .unit (.plain rfl))

theorem SuppliesAlike.stages (h : SuppliesAlike needs before after pairs staged twin)
    (himp : ∀ facts, facts.Serves links before → needs facts) :
    StagesAlike links before after staged twin where
  leads := h.leads
  level := h.level
  storage := ⟨pairs, h.above⟩
  into := by
    intro exit facts dest twinDest hserves hclear hdest
    have hneeds := himp facts hserves
    have hties : ∀ pair ∈ pairs, pair ∈ (facts.join pairs).ties :=
      fun _ hp => List.mem_append_left _ hp
    have hact := h.deliver facts _ hneeds (facts.within_join pairs) hties
      (hdest.mono (facts.within_join pairs))
    exact ((h.run exit facts hneeds hclear).append (.act hact (.nil _ _))).append
      (h.above.cleanup h.level hties (facts.within_join pairs) (hclear.not_has h.news))

namespace StagesAlike

theorem settled (h : StagesAlike links before after staged twin) :
    (after.withLive before.left.live before.right.live).Level := by
  obtain ⟨pairs, habove⟩ := h.storage
  exact habove.settled h.level

theorem closes (h : StagesAlike links before after staged twin) :
    before.Leads (after.withLive before.left.live before.right.live) :=
  h.leads.trans (after.leads_withLive _ _)

theorem even (h : StagesAlike links before after staged twin) (dest twinDest : Place) :
    EvenCode (fun facts => facts.Serves links before ∧ dest.Matches facts twinDest)
      before (after.withLive before.left.live before.right.live) (staged.into dest)
      (twin.into twinDest) where
  leads := h.closes
  level := h.settled
  live := rfl
  twinLive := rfl
  run := fun exit facts ⟨hserves, hdest⟩ hclear =>
    h.into exit facts dest twinDest hserves (hclear.first (after.leads_withLive _ _)) hdest

theorem prepend {code twinCode : List Instr}
    (hcode : EvenCode (fun facts => facts.Serves links before) before middle code twinCode)
    (h : StagesAlike links middle after staged twin) :
    StagesAlike links before after { staged with setup := code ++ staged.setup }
      { twin with setup := twinCode ++ twin.setup } where
  leads := hcode.leads.trans h.leads
  level := h.level
  storage := by
    obtain ⟨pairs, habove⟩ := h.storage
    have hnone : before.Above middle [] [] [] := .nil hcode.live hcode.twinLive
    exact ⟨_, by simpa only [List.append_nil] using hnone.append habove⟩
  into := by
    intro exit facts dest twinDest hserves hclear hdest
    have hmatch := (hcode.run exit facts hserves (hclear.first h.leads)).append
      (h.into exit facts dest twinDest (hcode.serves hserves) (hclear.last hcode.leads) hdest)
    simpa only [Staged.into, List.append_assoc] using hmatch

end StagesAlike

end Values

namespace Staging

variable {before middle sides : Sides} {pairs : List (String × String)} {staged twin : Staged}

theorem close_above (h : before.Above middle pairs staged.cleanup twin.cleanup)
    (dest twinDest : Place) :
    Mirrors (close staged dest) (close twin twinDest) middle fun code twinCode after =>
      code = staged.into dest ∧ twinCode = twin.into twinDest ∧
        after = middle.withLive before.left.live before.right.live := by
  refine (settle_mirrors h).bind ?_
  rintro _ _ _ rfl
  exact .pure ⟨rfl, rfl, rfl⟩

variable [OwnNames] {needs : Facts → Prop} {links : List Link}

theorem settle_alike (h : StagesAlike links before middle staged twin) :
    Mirrors (settle staged.cleanup) (settle twin.cleanup) middle fun _ _ after =>
      after = middle.withLive before.left.live before.right.live := by
  obtain ⟨pairs, habove⟩ := h.storage
  exact settle_mirrors habove

theorem close_mirrors (h : StagesAlike links before middle staged twin)
    (dest twinDest : Place) :
    Mirrors (close staged dest) (close twin twinDest) middle fun code twinCode after =>
      code = staged.into dest ∧ twinCode = twin.into twinDest ∧
        after = middle.withLive before.left.live before.right.live := by
  obtain ⟨pairs, habove⟩ := h.storage
  exact close_above habove dest twinDest

/-- A conversion delivers the value to a local first. -/
theorem coerce_mirrors (h : SuppliesAlike needs before middle pairs staged twin)
    (target : Rep) (context twinContext : String) :
    Mirrors (coerce staged target context) (coerce twin target twinContext) middle
      fun result twinResult after =>
        ∃ pairs, SuppliesAlike needs before after pairs result twinResult := by
  unfold coerce
  rw [h.rep]
  split
  · exact .throw
  · exact .pure ⟨pairs, h.leads, h.level, h.news, h.above, rfl, h.run, h.deliver⟩
  · refine (temp_mirrors h.level twin.rep).bind ?_
    rintro ⟨name, decl⟩ ⟨twinName, twinDecl⟩ after hdecl
    refine .pure ⟨[(name, twinName)] ++ pairs, h.leads.trans hdecl.leads, hdecl.level,
      h.news.append hdecl.news h.leads hdecl.leads, h.above.append hdecl.above, rfl, ?_, ?_⟩
    · intro exit facts hneeds hclear
      have hlater := hclear.join h.leads h.news
      have hact := h.deliver facts ((facts.join pairs).tie name twinName) hneeds
        ((facts.within_join pairs).trans (Facts.within_tie _ _ _))
        (fun _ hp => List.mem_cons_of_mem _ (List.mem_append_left _ hp))
        (Place.matches_name List.mem_cons_self twin.rep)
      exact (h.run exit facts hneeds (hclear.first hdecl.leads)).append
        (hdecl.match trivial hlater (.act hact (.nil _ _)))
    · intro facts most _ _ hties dest twinDest hdest
      exact .move (.inl rfl) (.inl rfl) hdest (.name _ (.inl (hties _ List.mem_cons_self)))

end Staging

end IsaBackend
