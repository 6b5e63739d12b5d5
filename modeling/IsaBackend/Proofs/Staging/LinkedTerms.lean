import IsaBackend.Proofs.Staging.LinkedForms

/-!
# Staging linked terms

Terms that are alike are staged to code that does the same. The induction follows the relation; each
form has a lemma of its own.
-/

namespace IsaBackend

open StagingState

namespace Staging

variable [OwnNames] {links : List Link} {around : Surroundings}

/-- A binding: the initialiser runs before its local is in scope, and the local is released after the
body. -/
theorem bind_mirrors {name twin : String} (hname : Facts.Fit name twin) (ty bodyTy : Ty)
    {mutable : Bool} {init twinInit body twinBody : Term}
    (hinit : StagesMirror links init.bound twinInit.bound (fun want => stage around want init)
      (fun want => stage around want twinInit))
    (hbody : StagesMirror (⟨name, twin, mutable⟩ :: links) body.bound twinBody.bound
      (fun want => stage around want body) (fun want => stage around want twinBody)) :
    StagesMirror links (Term.bind name ty init body bodyTy).bound
      (Term.bind twin ty twinInit twinBody bodyTy).bound
      (fun want => stage around want (.bind name ty init body bodyTy))
      (fun want => stage around want (.bind twin ty twinInit twinBody bodyTy)) := by
  intro target context twinContext sides hlevel hlinked hpast
  have hinitPast : sides.Past init.bound twinInit.bound := hpast.subset
    (fun _ hn => List.mem_cons_of_mem _ (List.mem_append_left _ hn))
    (fun _ hn => List.mem_cons_of_mem _ (List.mem_append_left _ hn))
  have hbodyPast : sides.Past body.bound twinBody.bound := hpast.subset
    (fun _ hn => List.mem_cons_of_mem _ (List.mem_append_right _ hn))
    (fun _ hn => List.mem_cons_of_mem _ (List.mem_append_right _ hn))
  refine (repOf_mirrors around ty).bind ?_
  rintro rep _ _ ⟨⟨rfl, _⟩, rfl⟩
  refine (localName_mirrors hlevel hname (hpast.left name List.mem_cons_self)
    (hpast.right twin List.mem_cons_self)).bind ?_
  intro codeName twinCode claimed hclaims
  refine (declare_mirrors hclaims hlevel rep).bind ?_
  intro decl twinDecl declared hdecl
  refine (hinit rep _ _ declared hdecl.level (hlinked.lead hdecl.leads
    (hdecl.above.length_eq hlinked.live)) (hinitPast.lead hdecl.leads)).bind ?_
  intro staged twinStaged middle hstaged
  obtain ⟨initPairs, hinitAbove⟩ := hstaged.storage
  refine (close_above hinitAbove (.name codeName rep) (.name twinCode rep)).bind ?_
  rintro _ _ _ ⟨rfl, rfl, rfl⟩
  have hclosed := hstaged.leads.trans (middle.leads_withLive declared.left.live declared.right.live)
  have hleads := hdecl.leads.trans hclosed
  have habove : sides.Above (middle.withLive declared.left.live declared.right.live)
      [(codeName, twinCode)] _ _ := hdecl.above.live_eq rfl rfl
  have hclosedLinked := hlinked.lead hleads (habove.length_eq hlinked.live)
  have hclosedPast := hbodyPast.lead hleads
  refine (within_mirrors (hbody target context twinContext _
    ((hinitAbove.settled hstaged.level).enter _ _ _ _)
    (hclosedLinked.enter name twin codeName twinCode rep mutable)
    ⟨hclosedPast.left, hclosedPast.right⟩)).bind ?_
  rintro bodyStaged twinBodyStaged _ ⟨inner, hinner, rfl⟩
  obtain ⟨bodyPairs, hbodyAbove⟩ := hinner.storage
  refine .pure ⟨hleads.trans hinner.leads.exit, hinner.level.exit _ _ _,
    ⟨_, habove.append hbodyAbove⟩, ?_⟩
  intro exit facts dest twinDest hserves hclear hdest
  have hfirst := hclear.first (hclosed.trans hinner.leads.exit)
  have hlater := hclear.join hdecl.leads hdecl.news
  have hserved := hserves.join hdecl.leads hdecl.above
  have hwithin := facts.within_tie codeName twinCode
  have hinitMatch := hstaged.into exit (facts.tie codeName twinCode) (.name codeName rep)
    (.name twinCode rep) hserved
    (hlater.first ((middle.leads_withLive _ _).trans hinner.leads.exit))
    (Place.matches_name List.mem_cons_self rep)
  have hentered := (hserved.lead hclosed (.refl _) hserved.live).enter List.mem_cons_self name twin
    rep mutable
  have hinnerClear := hlater.last hclosed
  have hbodyMatch := hinner.into exit (facts.tie codeName twinCode) dest twinDest hentered
    ⟨hinnerClear.left, hinnerClear.right⟩ (hdest.mono hwithin)
  have hcleanup : Instr.Match exit _ (Instr.releaseOf codeName rep)
      (Instr.releaseOf twinCode rep) facts :=
    hdecl.above.cleanup hdecl.level (fun pair hp => List.mem_append_left _ hp) hwithin
      (hfirst.not_has hdecl.news)
  have hmatch := hdecl.match trivial hfirst ((hinitMatch.append hbodyMatch).append hcleanup)
  simpa only [Staged.into, List.append_assoc, List.cons_append] using hmatch

private theorem grant_mirrors {needs : Facts → Prop} {links : List Link} {before middle : Sides}
    {pairs : List (String × String)} {staged twin : Staged}
    (h : SuppliesAlike needs before middle pairs staged twin)
    (himp : ∀ facts, facts.Serves links before → needs facts) (target : Rep)
    (context twinContext : String) :
    Mirrors (grant (some (target, context)) staged) (grant (some (target, twinContext)) twin) middle
      fun result twinResult after =>
        StagesAlike links before after result twinResult :=
  (coerce_mirrors h target context twinContext).mono fun _ _ _ ⟨_, hresult⟩ => hresult.stages himp

mutual

/-- Terms that are alike are staged alike. -/
theorem stage_mirrors :
    ∀ {links : List Link} {term twin : Term}, Term.Alike links term twin →
      StagesMirror links term.bound twin.bound (fun want => stage around want term)
        (fun want => stage around want twin)
  | links, _, _, .atom hvalue => by
    intro target context twinContext sides hlevel hlinked _
    refine (load_mirrors around hvalue hlevel hlinked).bind ?_
    rintro loaded twinLoaded after ⟨pairs, h⟩
    exact grant_mirrors h.supplies (fun _ hserves => hserves.scopes) target _ _
  | links, _, _, .call callee ty hargs => by
    intro target context twinContext sides hlevel hlinked _
    refine (stageCall_mirrors around callee hargs ty hlevel hlinked).bind ?_
    rintro staged twinStaged after ⟨pairs, h⟩
    exact grant_mirrors h (fun _ hserves => hserves.scopes) target _ _
  | links, _, _, .field key ty hrecord => by
    intro target context twinContext sides hlevel hlinked _
    refine (stageField_mirrors around hrecord key ty hlevel hlinked).bind ?_
    rintro staged twinStaged after ⟨pairs, h⟩
    exact grant_mirrors h (fun _ hserves => hserves.scopes) target _ _
  | links, _, _, .update ty hrecord hfields => by
    intro target context twinContext sides hlevel hlinked _
    refine (stageUpdate_mirrors around hrecord hfields ty hlevel hlinked).bind ?_
    rintro staged twinStaged after ⟨pairs, h⟩
    exact grant_mirrors h (fun _ hserves => hserves.scopes) target _ _
  | links, _, _, .cast ty hinner => by
    intro target context twinContext sides hlevel hlinked hpast
    exact stage_mirrors hinner target context twinContext sides hlevel hlinked hpast
  | links, _, _, .assign ty hsame _ hvalue => by
    intro target context twinContext sides hlevel hlinked hpast
    refine (assigned_mirrors around hsame ty hlinked).bind ?_
    rintro dest twinDest _ ⟨⟨hrep, hdest⟩, rfl⟩
    rw [hrep]
    refine (stage_mirrors hvalue _ _ _ sides hlevel hlinked hpast).bind ?_
    intro staged twinStaged middle hstaged
    refine (close_mirrors hstaged dest twinDest).bind ?_
    rintro _ _ _ ⟨rfl, rfl, rfl⟩
    have hcode := (hstaged.even dest twinDest).weaken fun facts (hserves : facts.Serves links sides) =>
      ⟨hserves, hdest facts hserves⟩
    exact grant_mirrors hcode.effect (fun _ hserves => hserves) target _ _
  | links, _, _, .bind ty bodyTy _ hname hinit hbody =>
    bind_mirrors hname ty bodyTy (stage_mirrors hinit) (stage_mirrors hbody)
  | links, _, _, .block ty hstmts hlast => by
    intro target context twinContext sides hlevel hlinked hpast
    refine (stageAll_mirrors hstmts hlevel hlinked (hpast.subset
      (fun _ hn => List.mem_append_left _ hn) (fun _ hn => List.mem_append_left _ hn))).bind ?_
    intro code twinCode middle hcode
    refine (stage_mirrors hlast target _ _ middle hcode.level (hcode.linked hlinked)
      ((hpast.subset (fun _ hn => List.mem_append_right _ hn)
        (fun _ hn => List.mem_append_right _ hn)).lead hcode.leads)).bind ?_
    intro staged twinStaged after hstaged
    exact .pure (.prepend hcode hstaged)
  | links, _, _, .ret ty hvalue => by
    intro target context twinContext sides hlevel hlinked _
    exact stageReturn_mirrors around hvalue target hlevel hlinked
  | links, _, _, .cond ty htest htrue hfalse => by
    intro target context twinContext sides hlevel hlinked hpast
    exact stageCond_mirrors around htest
      ((stage_mirrors htrue).subset (fun _ hn => List.mem_append_left _ hn)
        (fun _ hn => List.mem_append_left _ hn))
      ((stage_mirrors hfalse).subset (fun _ hn => List.mem_append_right _ hn)
        (fun _ hn => List.mem_append_right _ hn)) target hlevel hlinked hpast
  | links, _, _, .count direction hvar hfirst hlast hstep hbody => by
    intro target context twinContext sides hlevel hlinked hpast
    unfold stage
    rw [hbody.ty_eq]
    refine (stageCount_mirrors around hvar List.mem_cons_self List.mem_cons_self hfirst hlast hstep
      direction _ ((stage_mirrors hbody).subset (fun _ hn => List.mem_cons_of_mem _ hn)
        (fun _ hn => List.mem_cons_of_mem _ hn)) hlevel hlinked hpast).bind ?_
    intro staged twinStaged after h
    exact grant_mirrors h (fun _ hserves => hserves) target _ _
  | links, _, _, .loop kind htest hbody => by
    intro target context twinContext sides hlevel hlinked hpast
    unfold stage
    rw [hbody.ty_eq]
    refine (stageLoop_mirrors around kind
      ((stage_mirrors htest).subset (fun _ hn => List.mem_append_left _ hn)
        (fun _ hn => List.mem_append_left _ hn)) _
      ((stage_mirrors hbody).subset (fun _ hn => List.mem_append_right _ hn)
        (fun _ hn => List.mem_append_right _ hn)) hlevel hlinked hpast).bind ?_
    intro staged twinStaged after h
    exact grant_mirrors h (fun _ hserves => hserves) target _ _

theorem stageAll_mirrors :
    ∀ {links : List Link} {terms twins : List Term}, Term.AlikeAll links terms twins →
      ∀ {sides : Sides}, sides.Level → sides.Linked links →
      sides.Past (Term.boundAll terms) (Term.boundAll twins) →
      Mirrors (stageAll around terms) (stageAll around twins) sides fun code twinCode after =>
        EvenCode (fun facts => facts.Serves links sides) sides after code twinCode
  | links, _, _, .nil _, sides, hlevel, _, _ => .pure (.nil hlevel)
  | links, _, _, .cons hterm hrest, sides, hlevel, hlinked, hpast => by
    unfold stageAll
    rw [hterm.ty_eq]
    refine (discard_mirrors around (stage_mirrors hterm) _ hlevel hlinked (hpast.subset
      (fun _ hn => List.mem_append_left _ hn) (fun _ hn => List.mem_append_left _ hn))).bind ?_
    intro code twinCode middle hcode
    refine (stageAll_mirrors hrest hcode.level (hcode.linked hlinked)
      ((hpast.subset (fun _ hn => List.mem_append_right _ hn)
        (fun _ hn => List.mem_append_right _ hn)).lead hcode.leads)).bind ?_
    intro more twinMore after hmore
    exact .pure (hcode.append (hmore.weaken fun facts hserves => hcode.serves hserves))

end

end Staging

end IsaBackend
