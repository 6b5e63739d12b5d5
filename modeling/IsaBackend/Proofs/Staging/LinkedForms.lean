import IsaBackend.Proofs.Staging.LinkedValues

/-!
# Forms of linked terms

Each form of a term is staged on two sides at once, given what is known of its parts. Locals that the
form takes for itself are tied while it runs.
-/

namespace IsaBackend

open StagingState

namespace Staging

variable [OwnNames] {links : List Link} {before middle after sides : Sides}
  {pairs : List (String × String)}

theorem stageCall_mirrors (around : Surroundings) (callee : String) {args twins : List Atom}
    (hargs : Atom.AlikeAll links args twins) (ty : Ty) (hlevel : sides.Level)
    (hlinked : sides.Linked links) :
    Mirrors (stageCall around callee args ty) (stageCall around callee twins ty) sides
      fun staged twin after => ∃ pairs, SuppliesAlike
        (fun facts => facts.Scopes links sides) sides after pairs staged twin := by
  refine (signature_mirrors around callee hargs ty).bind ?_
  rintro ⟨params, result⟩ _ _ ⟨rfl, rfl⟩
  simp only [hargs.length_eq]
  split
  · exact Mirrors.throw.bind fun _ _ _ (h : False) => h.elim
  · refine (loadArgs_mirrors around callee hargs 0 params hlevel hlinked).bind ?_
    rintro ⟨setup, values, cleanup⟩ ⟨twinSetup, twinValues, twinCleanup⟩ after ⟨pairs, h⟩
    refine .pure ⟨pairs, h.leads, h.level, h.news, h.above, rfl, h.run, ?_⟩
    intro facts most hscopes hwithin hties dest twinDest hdest
    exact .call callee hdest (h.values most (hscopes.mono hwithin) hties)

theorem stageField_mirrors (around : Surroundings) {record twinRecord : Atom}
    (hrecord : record.Alike links twinRecord) (field : String) (ty : Ty) (hlevel : sides.Level)
    (hlinked : sides.Linked links) :
    Mirrors (stageField around record field ty) (stageField around twinRecord field ty) sides
      fun staged twin after => ∃ pairs, SuppliesAlike
        (fun facts => facts.Scopes links sides) sides after pairs staged twin := by
  refine (load_mirrors around hrecord hlevel hlinked).bind ?_
  rintro loaded twinLoaded middle ⟨pairs, hloaded⟩
  refine (Mirrors.lift fun rep hrep => ⟨rep, hloaded.rep ▸ hrep, rfl⟩).bind ?_
  rintro rep _ _ ⟨rfl, rfl⟩
  refine (repOf_mirrors around ty).bind ?_
  rintro target _ _ ⟨⟨rfl, _⟩, rfl⟩
  have hfield : LoadsAlike (fun facts => facts.Scopes links sides) sides middle pairs
      { loaded with value := .inline (.field loaded.value.toInline field) rep }
      { twinLoaded with value := .inline (.field twinLoaded.value.toInline field) rep } :=
    ⟨hloaded.leads, hloaded.level, hloaded.news, hloaded.above, rfl, hloaded.run,
      fun facts most hscopes hwithin hties => .inline rep
        (.field field (hloaded.value facts most hscopes hwithin hties).toInline)⟩
  exact coerce_mirrors hfield.supplies target _ _

private theorem storeFields_mirrors (around : Surroundings) {record twinRecord : Place}
    (hrecord : record.Parallel twinRecord) :
    ∀ {fields twins : List (String × Atom)}, Atom.FieldsAlike links fields twins →
      ∀ {sides : Sides}, sides.Level → sides.Linked links →
      Mirrors (storeFields around record fields) (storeFields around twinRecord twins) sides
        fun code twinCode after => EvenCode (fun facts => facts.Scopes links sides ∧
          record.Matches facts twinRecord) sides after code twinCode
  | _, _, .nil, _, hlevel, _ => .pure (.nil hlevel)
  | _, _, .cons key hvalue hfields, sides, hlevel, hlinked => by
    refine (Mirrors.lift fun rep hrep => ⟨rep, hrecord.rep_eq ▸ hrep, rfl⟩).bind ?_
    rintro rep _ _ ⟨rfl, rfl⟩
    refine (storeAtom_mirrors around (.field key rep hrecord) hvalue _ _ hlevel
      hlinked).bind ?_
    intro store twinStore middle hstore
    refine (storeFields_mirrors around hrecord hfields hstore.level (hstore.linked hlinked)).bind ?_
    intro stores twinStores after hstores
    refine .pure ((hstore.weaken fun facts hneeds => ?_).append
      (hstores.weaken fun facts hneeds => ?_))
    · exact ⟨hneeds.1, hneeds.2.field key rep⟩
    · exact ⟨hneeds.1.lead hstore.leads, hneeds.2⟩

theorem stageUpdate_mirrors (around : Surroundings) {record twinRecord : Atom}
    (hrecord : record.Alike links twinRecord) {fields twins : List (String × Atom)}
    (hfields : Atom.FieldsAlike links fields twins) (ty : Ty) (hlevel : sides.Level)
    (hlinked : sides.Linked links) :
    Mirrors (stageUpdate around record fields ty) (stageUpdate around twinRecord twins ty) sides
      fun staged twin after => ∃ pairs, SuppliesAlike
        (fun facts => facts.Scopes links sides) sides after pairs staged twin := by
  refine (repOf_mirrors around ty).bind ?_
  rintro rep _ _ ⟨⟨rfl, _⟩, rfl⟩
  refine (temp_mirrors hlevel rep).bind ?_
  rintro ⟨name, decl⟩ ⟨twinName, twinDecl⟩ declared hdecl
  have hdest : (Place.name name rep).Parallel (.name twinName rep) := .name name twinName rep
  have hdeclared := hlinked.lead hdecl.leads (hdecl.above.length_eq hlinked.live)
  refine (storeAtom_mirrors around hdest hrecord _ _ hdecl.level hdeclared).bind ?_
  intro copy twinCopy middle hcopy
  refine (storeFields_mirrors around hdest hfields hcopy.level
    (hcopy.linked hdeclared)).bind ?_
  intro stores twinStores after hstores
  have hcode := hcopy.append (hstores.weaken fun facts hneeds =>
    ⟨hneeds.1.lead hcopy.leads, hneeds.2⟩)
  have hloads := (hdecl.weaken fun _ (_ : Facts.Scopes _ links sides) => trivial).fill hcode
    fun facts most hscopes hwithin hplace => ⟨(hscopes.lead hdecl.leads).mono hwithin, hplace⟩
  exact .pure ⟨_, hloads.supplies⟩

/-- Code that stores a result, releases everything that is live and returns. What follows is never
reached. -/
private theorem linked_return {code twinCode : List Instr}
    {returned twinReturned : Operand} (hlevel : sides.Level) (hlinked : sides.Linked links)
    (hleads : sides.Leads after) (hafter : after.Level) (hlive : after.left.live = sides.left.live)
    (htwinLive : after.right.live = sides.right.live) (rep : Rep)
    (hcode : ∀ exit facts, facts.Serves links sides → facts.Clear sides after → ∃ kept last : Facts,
      Instr.Match exit facts code twinCode kept ∧
        (∀ pair ∈ facts.ties, pair ∈ kept.ties) ∧ last.Within kept ∧
        (∀ name ∈ sides.left.declared, ¬last.HasLeft name) ∧
        (∀ name ∈ sides.right.declared, ¬last.HasRight name) ∧
        returned.Matches last twinReturned) :
    StagesAlike links sides after
      { setup := code ++ releases sides.left.live ++ [.ret returned]
        rep
        deliver := fun _ => .comment "unreachable"
        cleanup := [] }
      { setup := twinCode ++ releases sides.right.live ++ [.ret twinReturned]
        rep
        deliver := fun _ => .comment "unreachable"
        cleanup := [] } where
  leads := hleads
  level := hafter
  storage := ⟨[], .nil hlive htwinLive⟩
  into := by
    intro exit facts dest twinDest hserves hclear _
    obtain ⟨kept, last, hmatch, hties, hlast, hgone, htwinGone, hreturned⟩ :=
      hcode exit facts hserves hclear
    have hreleases : Instr.Match exit kept (releases sides.left.live)
        (releases sides.right.live) last :=
      .releases hlinked.live (fun pair hp => hties pair (hserves.live pair hp))
        hlevel.left.distinct hlevel.right.distinct hlast
        (fun entry he => hgone entry.1 (hlevel.left.live entry he))
        (fun entry he => htwinGone entry.1 (hlevel.right.live entry he))
    have hreturn : Instr.Match exit last [.ret returned, .comment "unreachable"]
        [.ret twinReturned, .comment "unreachable"] facts :=
      .ret _ _ hreturned
    simpa only [Staged.into, List.append_assoc, List.cons_append, List.nil_append,
      List.append_nil] using (hmatch.append hreleases).append hreturn

theorem stageReturn_mirrors (around : Surroundings) {value twinValue : Atom}
    (hvalue : value.Alike links twinValue) (rep : Rep) (hlevel : sides.Level)
    (hlinked : sides.Linked links) :
    Mirrors (stageReturn around value rep) (stageReturn around twinValue rep) sides
      fun staged twin after => StagesAlike links sides after staged twin := by
  refine Mirrors.get.bind ?_
  rintro _ _ _ ⟨rfl, rfl, rfl⟩
  rw [← hlevel.result]
  split
  · exact .throw
  · rename_i result hresult
    refine (load_mirrors around hvalue hlevel hlinked).bind ?_
    rintro loaded twinLoaded middle ⟨pairs, hloaded⟩
    simp only [pure_bind]
    split
    · rename_i hstack
      refine (temp_mirrors hloaded.level result).bind ?_
      rintro ⟨slot, decl⟩ ⟨twinSlot, twinDecl⟩ declared hdecl
      refine (Mirrors.lift fun store hstore => Instr.transfer_ok (.name slot twinSlot result)
        hloaded.rep hstore _).bind ?_
      rintro store twinStore _ ⟨⟨hmoves, htwinMoves⟩, rfl⟩
      have hkeeps := hloaded.keep hdecl hstack hmoves htwinMoves
      obtain ⟨hlive, htwinLive⟩ := hdecl.live_eq hstack
      refine (settle_mirrors (hloaded.above.live_eq hlive htwinLive)).bind ?_
      rintro _ _ _ rfl
      refine Mirrors.get.bind ?_
      rintro _ _ _ ⟨rfl, rfl, rfl⟩
      refine .pure (linked_return hlevel hlinked hkeeps.leads hkeeps.level rfl rfl rep ?_)
      intro exit facts hserves hclear
      refine ⟨_, ({} : Facts).tie slot twinSlot, hkeeps.run exit facts hserves.scopes hclear,
        fun pair hp => List.mem_cons_of_mem _ hp, ?_, ?_, ?_, .name _ (.inl List.mem_cons_self)⟩
      · exact fun pair hp => List.mem_singleton.mp hp ▸ List.mem_cons_self
      · intro name hn hhas
        rcases Facts.hasLeft_tie.mp hhas with rfl | hhas
        · exact (hkeeps.news.left _ List.mem_cons_self).1 hn
        · exact Facts.not_hasLeft_empty name hhas
      · intro name hn hhas
        rcases Facts.hasRight_tie.mp hhas with rfl | hhas
        · exact (hkeeps.news.right _ List.mem_cons_self).1 hn
        · exact Facts.not_hasRight_empty name hhas
    · rename_i hheap
      have hplain := not_own_result (hlevel.reference result hresult (Bool.eq_false_iff.mpr hheap))
      refine (Mirrors.lift fun store hstore => Instr.transfer_ok
        (.deref Routine.resultParam Routine.resultParam result) hloaded.rep hstore _).bind ?_
      rintro store twinStore _ ⟨⟨hmoves, htwinMoves⟩, rfl⟩
      refine (settle_mirrors hloaded.above).bind ?_
      rintro _ _ _ rfl
      refine Mirrors.get.bind ?_
      rintro _ _ _ ⟨rfl, rfl, rfl⟩
      refine .pure (linked_return hlevel hlinked (hloaded.leads.trans (Sides.leads_withLive _ _ _))
        (hloaded.above.settled hloaded.level) rfl rfl rep ?_)
      intro exit facts hserves hclear
      have hclear := hclear.first (Sides.leads_withLive _ _ _)
      have hdest : (Place.deref Routine.resultParam result).Parallel
          (.deref Routine.resultParam result) := .deref _ _ result
      have hact : store.Act (facts.join pairs) twinStore :=
        .move hmoves htwinMoves ⟨hdest, .inr ⟨rfl, hplain⟩⟩ (hloaded.value_join hserves.scopes)
      have hstored := (hloaded.run exit facts hserves.scopes hclear).append
        (.act hact (.nil exit _))
      have hcleanup : Instr.Match exit _ loaded.cleanup twinLoaded.cleanup facts :=
        hloaded.above.cleanup hloaded.level (fun _ hp => List.mem_append_left _ hp)
          (facts.within_join pairs) (hclear.not_has hloaded.news)
      refine ⟨_, {}, hstored.append hcleanup, fun _ hp => hp, Facts.within_empty _, ?_, ?_,
        .inline .unit (.plain rfl)⟩
      · exact fun name _ => Facts.not_hasLeft_empty name
      · exact fun name _ => Facts.not_hasRight_empty name

theorem assigned_mirrors (around : Surroundings) {target twinTarget : String}
    (hsame : Link.Same links target twinTarget) (ty : Ty) (hlinked : sides.Linked links) :
    Mirrors (assigned around target ty) (assigned around twinTarget ty) sides
      fun dest twinDest after => (dest.rep = twinDest.rep ∧ ∀ facts : Facts,
        facts.Serves links sides → dest.Matches facts twinDest) ∧ sides = after := by
  have hentries := hlinked.locals target twinTarget hsame
  refine Mirrors.get.bind ?_
  rintro _ _ _ ⟨rfl, rfl, rfl⟩
  cases hlocal : sides.left.locals.get? target with
  | some entry =>
    cases htwin : sides.right.locals.get? twinTarget with
    | none =>
      rw [hlocal, htwin] at hentries
      exact hentries.elim
    | some other =>
      rw [hlocal, htwin] at hentries
      have hrep : entry.rep = other.rep := hentries
      refine .pure ⟨⟨hrep, fun facts hserves => ?_⟩, rfl⟩
      rw [hrep]
      exact Place.matches_name
        (hserves.scopes target twinTarget hsame entry other hlocal htwin) other.rep
  | none =>
    cases htwin : sides.right.locals.get? twinTarget with
    | some other =>
      rw [hlocal, htwin] at hentries
      exact hentries.elim
    | none =>
      rw [hlocal, htwin] at hentries
      obtain ⟨rfl, hfree⟩ := hentries
      simp only
      refine (repOf_mirrors around ty).bind ?_
      rintro rep _ _ ⟨⟨rfl, _⟩, rfl⟩
      exact .pure ⟨⟨rfl, fun _ _ => ⟨.name target target rep, .inr ⟨rfl, hfree⟩⟩⟩, rfl⟩

end Staging

/-- Generated names among some names are below the next one. -/
def StagingState.Past (state : StagingState) (names : List String) : Prop :=
  ∀ name ∈ names, ∀ number, name = FreshNames.name number → number < state.names.next

structure Sides.Past (sides : Sides) (names twins : List String) : Prop where
  left : sides.left.Past names
  right : sides.right.Past twins

theorem Sides.Past.lead {before after : Sides} {names twins : List String}
    (h : before.Past names twins) (hleads : before.Leads after) : after.Past names twins where
  left := fun name hn number heq => Nat.lt_of_lt_of_le (h.left name hn number heq) hleads.left.next
  right := fun name hn number heq =>
    Nat.lt_of_lt_of_le (h.right name hn number heq) hleads.right.next

theorem Sides.Past.subset {sides : Sides} {names twins fewer twinFewer : List String}
    (h : sides.Past names twins) (hsub : ∀ name ∈ fewer, name ∈ names)
    (htwinSub : ∀ name ∈ twinFewer, name ∈ twins) : sides.Past fewer twinFewer where
  left := fun name hn => h.left name (hsub name hn)
  right := fun name hn => h.right name (htwinSub name hn)

namespace Staging

/-- Two computations are staged alike from all states that go with some links and are past the names
that each of them binds. -/
def StagesMirror [OwnNames] (links : List Link) (names twins : List String)
    (stage twin : Want → Staging Staged) : Prop :=
  ∀ (target : Rep) (context twinContext : String) (sides : Sides), sides.Level →
    sides.Linked links → sides.Past names twins →
    Mirrors (stage (some (target, context))) (twin (some (target, twinContext))) sides
      fun staged twinStaged after => StagesAlike links sides after staged twinStaged

variable [OwnNames] {links : List Link} {sides : Sides}
  {names twins : List String} {stage twin : Want → Staging Staged}

theorem StagesMirror.subset {more twinMore : List String}
    (h : StagesMirror links names twins stage twin) (hsub : ∀ name ∈ names, name ∈ more)
    (htwinSub : ∀ name ∈ twins, name ∈ twinMore) :
    StagesMirror links more twinMore stage twin :=
  fun target context twinContext sides hlevel hlinked hpast =>
    h target context twinContext sides hlevel hlinked (hpast.subset hsub htwinSub)

theorem discard_mirrors (around : Surroundings)
    (hstage : StagesMirror links names twins stage twin) (ty : Ty) (hlevel : sides.Level)
    (hlinked : sides.Linked links) (hpast : sides.Past names twins) :
    Mirrors (discard around ty stage) (discard around ty twin) sides fun code twinCode after =>
      EvenCode (fun facts => facts.Serves links sides) sides after code twinCode := by
  refine (repOf_mirrors around ty).bind ?_
  rintro rep _ _ ⟨⟨rfl, _⟩, rfl⟩
  refine (temp_mirrors hlevel rep).bind ?_
  rintro ⟨name, decl⟩ ⟨twinName, twinDecl⟩ declared hdecl
  refine (hstage rep _ _ declared hdecl.level (hlinked.lead hdecl.leads
    (hdecl.above.length_eq hlinked.live)) (hpast.lead hdecl.leads)).bind ?_
  intro staged twinStaged middle hstaged
  refine (close_mirrors hstaged (.name name rep) (.name twinName rep)).bind ?_
  rintro _ _ _ ⟨rfl, rfl, rfl⟩
  have hcode := hstaged.even (.name name rep) (.name twinName rep)
  have habove := hdecl.above.live_eq hcode.live hcode.twinLive
  refine (settle_mirrors habove).bind ?_
  rintro _ _ _ rfl
  have hleads := hdecl.leads.trans hcode.leads
  refine .pure ⟨hleads.trans (Sides.leads_withLive _ _ _), habove.settled hcode.level, rfl, rfl,
    fun exit facts hserves hclear => ?_⟩
  have hclear := hclear.first (Sides.leads_withLive _ _ _)
  have hfirst := hclear.first hcode.leads
  have hinner := hcode.run exit (facts.tie name twinName)
    ⟨hserves.join hdecl.leads hdecl.above, Place.matches_name List.mem_cons_self rep⟩
    (hclear.join hdecl.leads hdecl.news)
  refine hdecl.match trivial hfirst (hinner.append ?_)
  exact hdecl.above.cleanup hdecl.level (fun _ hp => List.mem_append_left _ hp)
    (facts.within_join [(name, twinName)]) (hfirst.not_has hdecl.news)

theorem stageCond_mirrors (around : Surroundings) {test twinTest : Atom}
    {onTrue onFalse twinTrue twinFalse : Want → Staging Staged}
    (htest : test.Alike links twinTest)
    (htrue : StagesMirror links names twins onTrue twinTrue)
    (hfalse : StagesMirror links names twins onFalse twinFalse) (rep : Rep)
    (hlevel : sides.Level) (hlinked : sides.Linked links) (hpast : sides.Past names twins) :
    Mirrors (stageCond around test onTrue onFalse rep)
      (stageCond around twinTest twinTrue twinFalse rep) sides fun staged twin after =>
        StagesAlike links sides after staged twin := by
  refine (load_mirrors around htest hlevel hlinked).bind ?_
  rintro loaded twinLoaded middle ⟨pairs, hloaded⟩
  refine (temp_mirrors hloaded.level .bool).bind ?_
  rintro ⟨flag, decl⟩ ⟨twinFlag, twinDecl⟩ declared hdecl
  refine (Mirrors.lift fun store hstore => Instr.transfer_ok (.name flag twinFlag .bool)
    hloaded.rep hstore _).bind ?_
  rintro store twinStore _ ⟨⟨hmoves, htwinMoves⟩, rfl⟩
  have hflag := hloaded.keep hdecl rfl hmoves htwinMoves
  obtain ⟨hlive, htwinLive⟩ := hdecl.live_eq rfl
  refine (settle_mirrors (hloaded.above.live_eq hlive htwinLive)).bind ?_
  rintro _ _ _ rfl
  refine (htrue rep _ _ _ hflag.level (hflag.linked hlinked) (hpast.lead hflag.leads)).bind ?_
  intro trueArm twinTrueArm trueEnd htrueArm
  refine (settle_alike htrueArm).bind ?_
  rintro _ _ _ rfl
  have hready := hflag.linked hlinked
  refine (hfalse rep _ _ _ htrueArm.settled (hready.lead htrueArm.closes hready.live)
    ((hpast.lead hflag.leads).lead htrueArm.closes)).bind ?_
  intro falseArm twinFalseArm falseEnd hfalseArm
  refine (settle_alike hfalseArm).bind ?_
  rintro _ _ _ rfl
  refine .pure ⟨(hflag.leads.trans htrueArm.closes).trans hfalseArm.closes, hfalseArm.settled,
    ⟨[], .nil rfl rfl⟩, fun exit facts dest twinDest hserves hclear hdest => ?_⟩
  have htrueEnd := (hclear.first hfalseArm.closes).join hflag.leads hflag.news
  have hfalseEnd := (hclear.join hflag.leads hflag.news).last htrueArm.closes
  have hserved := hflag.serves hserves
  have hdestFlag := hdest.mono (facts.within_tie flag twinFlag)
  have htrueMatch := htrueArm.into exit (facts.tie flag twinFlag) dest twinDest hserved
    (htrueEnd.first (Sides.leads_withLive _ _ _)) hdestFlag
  have hfalseMatch := hfalseArm.into exit (facts.tie flag twinFlag) dest twinDest
    (hserved.lead htrueArm.closes (.refl _) hserved.live)
    (hfalseEnd.first (Sides.leads_withLive _ _ _)) hdestFlag
  have hbranch : Instr.Match exit (facts.tie flag twinFlag)
      [.branch (.name flag .bool) (trueArm.into dest) (falseArm.into dest) rep]
      [.branch (.name twinFlag .bool) (twinTrueArm.into twinDest) (twinFalseArm.into twinDest) rep]
      facts :=
    .branch rep rep (.name .bool (.inl List.mem_cons_self)) htrueMatch hfalseMatch
      (.weaken (facts.within_tie flag twinFlag) (.nil exit _))
  have hflagMatch := hflag.run exit facts hserves.scopes
    ((hclear.first hfalseArm.closes).first htrueArm.closes)
  simpa only [Staged.into, List.append_nil] using hflagMatch.append hbranch

private theorem match_leaveIf {facts : Facts} {test twinTest : Operand}
    (h : test.Matches facts twinTest) :
    Instr.Match facts facts [leaveIf test] [leaveIf twinTest] facts :=
  .branch .unit .unit h (.leave [] [] (.refl facts)) (.nil facts facts) (.nil facts facts)

theorem stageLoop_mirrors (around : Surroundings) (kind : LoopTest)
    {test twinTest body twinBody : Want → Staging Staged}
    (htest : StagesMirror links names twins test twinTest) (bodyTy : Ty)
    (hbody : StagesMirror links names twins body twinBody) (hlevel : sides.Level)
    (hlinked : sides.Linked links) (hpast : sides.Past names twins) :
    Mirrors (stageLoop around kind test bodyTy body) (stageLoop around kind twinTest bodyTy twinBody)
      sides fun staged twin after => SuppliesAlike (fun facts => facts.Serves links sides)
        sides after [] staged twin := by
  refine (temp_mirrors hlevel .bool).bind ?_
  rintro ⟨flag, decl⟩ ⟨twinFlag, twinDecl⟩ declared hdecl
  have hflag : KeepsAlike (fun facts => facts.Serves links sides) sides declared flag
      twinFlag [decl] [twinDecl] := (hdecl.weaken fun _ _ => trivial).keeps rfl
  have hdeclared := hflag.linked hlinked
  refine (htest .bool _ _ declared hdecl.level hdeclared (hpast.lead hdecl.leads)).bind ?_
  intro staged twinStaged middle hstaged
  refine (close_mirrors hstaged (.name flag .bool) (.name twinFlag .bool)).bind ?_
  rintro _ _ _ ⟨rfl, rfl, rfl⟩
  have htestCode := hstaged.even (.name flag .bool) (.name twinFlag .bool)
  refine (discard_mirrors around hbody bodyTy htestCode.level (htestCode.linked hdeclared)
    ((hpast.lead hdecl.leads).lead htestCode.leads)).bind ?_
  intro bodyCode twinBodyCode after hbodyCode
  have hround := htestCode.append (hbodyCode.weaken fun facts hneeds => htestCode.serves hneeds.1)
  -- in either order, the test leaves the loop with the facts that each round keeps
  refine .pure (hflag.fill (hround.loop (by cases kind <;> simp) (by cases kind <;> simp) ?_)
    fun facts hserves =>
      ⟨hflag.serves hserves, Place.matches_name List.mem_cons_self .bool⟩).even.effect
  intro facts hneeds hclear
  have hsame : facts.Same flag twinFlag := hneeds.2.root
  have htestMatch := htestCode.run facts facts hneeds (hclear.first hbodyCode.leads)
  have hbodyMatch := hbodyCode.run facts facts (htestCode.serves hneeds.1)
    (hclear.last htestCode.leads)
  cases kind with
  | whileTrue =>
    exact (htestMatch.append (match_leaveIf (.inline .bool (.not (.name hsame))))).append
      hbodyMatch
  | untilTrue =>
    exact (hbodyMatch.append htestMatch).append (match_leaveIf (.name .bool hsame))

private theorem KeepsAlike.take {before middle after : Sides} {name twinName : String} {rep : Rep}
    {code twinCode store twinStore : List Instr}
    (h : KeepsAlike (fun facts => facts.Serves links before) before middle name twinName code
      twinCode)
    (hstore : EvenCode (fun facts => facts.Scopes links middle ∧
      (Place.name name rep).Matches facts (.name twinName rep)) middle after store twinStore) :
    KeepsAlike (fun facts => facts.Serves links before) before after name twinName
      (code ++ store) (twinCode ++ twinStore) :=
  h.fill hstore fun _ hserves =>
    ⟨(h.serves hserves).scopes, Place.matches_name List.mem_cons_self rep⟩

private theorem counting_alike {before after : Sides} {needs : Facts → Prop}
    {counter twinCounter limit twinLimit stride twinStride : String} (past advance : Operator)
    {body twinBody : List Instr} (h : EvenCode needs before after body twinBody)
    (himp : ∀ facts : Facts, facts.Serves links before → (counter, twinCounter) ∈ facts.ties →
      needs facts) :
    EvenCode (fun facts => facts.Serves links before ∧ (counter, twinCounter) ∈ facts.ties ∧
        (limit, twinLimit) ∈ facts.ties ∧ (stride, twinStride) ∈ facts.ties) before after
      [.loop (leaveIf (.inline (.binary past (.name counter) (.name limit)) .bool) :: body ++
        [.assign (.name counter .machInt)
          (.inline (.binary advance (.name counter) (.name stride)) .machInt)])]
      [.loop (leaveIf (.inline (.binary past (.name twinCounter) (.name twinLimit)) .bool) ::
        twinBody ++ [.assign (.name twinCounter .machInt)
          (.inline (.binary advance (.name twinCounter) (.name twinStride)) .machInt)])] := by
  have hbody := h.weaken fun facts (hneeds : facts.Serves links before ∧
    (counter, twinCounter) ∈ facts.ties ∧ (limit, twinLimit) ∈ facts.ties ∧
    (stride, twinStride) ∈ facts.ties) => himp facts hneeds.1 hneeds.2.1
  refine hbody.loop (List.cons_ne_nil _ _) (List.cons_ne_nil _ _) fun facts hneeds hclear => ?_
  obtain ⟨hcounter, hlimit, hstride⟩ := hneeds.2
  have hstop : (Operand.inline (.binary past (.name counter) (.name limit)) .bool).Matches facts
      (.inline (.binary past (.name twinCounter) (.name twinLimit)) .bool) :=
    .inline .bool (.binary past (.name (.inl hcounter)) (.name (.inl hlimit)))
  have hnext : Instr.Act facts
      (.assign (.name counter .machInt)
        (.inline (.binary advance (.name counter) (.name stride)) .machInt))
      (.assign (.name twinCounter .machInt)
        (.inline (.binary advance (.name twinCounter) (.name twinStride)) .machInt)) :=
    .move (.inr (.inl rfl)) (.inr (.inl rfl)) (Place.matches_name hcounter .machInt) (.inline .machInt
      (.binary advance (.name (.inl hcounter)) (.name (.inl hstride))))
  exact ((match_leaveIf hstop).append (hbody.run facts facts hneeds hclear)).append
    (.act hnext (.nil facts facts))

theorem stageCount_mirrors (around : Surroundings) {var twinVar : String}
    (hvar : Facts.Fit var twinVar) (hbound : var ∈ names) (htwinBound : twinVar ∈ twins)
    {first last step twinFirst twinLast twinStep : Atom} (hfirst : first.Alike links twinFirst)
    (hlast : last.Alike links twinLast) (hstep : step.Alike links twinStep) (direction : Direction)
    (bodyTy : Ty) {body twinBody : Want → Staging Staged}
    (hbody : StagesMirror (⟨var, twinVar, false⟩ :: links) names twins body twinBody)
    (hlevel : sides.Level) (hlinked : sides.Linked links) (hpast : sides.Past names twins) :
    Mirrors (stageCount around var first last step direction bodyTy body)
      (stageCount around twinVar twinFirst twinLast twinStep direction bodyTy twinBody) sides
      fun staged twin after => SuppliesAlike (fun facts => facts.Serves links sides)
        sides after [] staged twin := by
  refine (localName_mirrors hlevel hvar (hpast.left var hbound)
    (hpast.right twinVar htwinBound)).bind ?_
  intro counter twinCounter claimed hclaims
  have hcounter : KeepsAlike (fun facts => facts.Serves links sides) sides claimed counter
      twinCounter [.decl .machInt counter] [.decl .machInt twinCounter] := hclaims.keeps .machInt
  refine (storeAtom_mirrors around (.name counter twinCounter .machInt) hfirst _ _
    hcounter.level (hcounter.linked hlinked)).bind ?_
  intro start twinStart started hstart
  have hcount := KeepsAlike.take hcounter hstart
  have hstarted := hcount.linked hlinked
  refine (temp_mirrors hcount.level .machInt).bind ?_
  rintro ⟨limit, limitDecl⟩ ⟨twinLimit, twinLimitDecl⟩ limited hlimit
  have hlimited : KeepsAlike (fun facts => facts.Serves links started) started limited limit
      twinLimit [limitDecl] [twinLimitDecl] := (hlimit.weaken fun _ _ => trivial).keeps rfl
  refine (storeAtom_mirrors around (.name limit twinLimit .machInt) hlast _ _
    hlimited.level (hlimited.linked hstarted)).bind ?_
  intro setLimit twinSetLimit bounded hsetLimit
  have hbounds := KeepsAlike.take hlimited hsetLimit
  have hbounded := hbounds.linked hstarted
  refine (temp_mirrors hbounds.level .machInt).bind ?_
  rintro ⟨stride, strideDecl⟩ ⟨twinStride, twinStrideDecl⟩ strided hstride
  have hstrided : KeepsAlike (fun facts => facts.Serves links bounded) bounded strided stride
      twinStride [strideDecl] [twinStrideDecl] := (hstride.weaken fun _ _ => trivial).keeps rfl
  refine (storeAtom_mirrors around (.name stride twinStride .machInt) hstep _ _
    hstrided.level (hstrided.linked hbounded)).bind ?_
  intro setStride twinSetStride ready hsetStride
  have hstrides := KeepsAlike.take hstrided hsetStride
  have hready := hstrides.linked hbounded
  have hleads := (hcount.leads.trans hbounds.leads).trans hstrides.leads
  have hpastReady := hpast.lead hleads
  simp only
  refine (within_mirrors (discard_mirrors around hbody bodyTy (hstrides.level.enter _ _ _ _)
    (hready.enter var twinVar counter twinCounter .machInt false)
    ⟨hpastReady.left, hpastReady.right⟩)).bind ?_
  rintro bodyCode twinBodyCode _ ⟨inner, hinner, rfl⟩
  have hbodyCode := hinner.exit
  have hstrideCode := fun past advance : Operator =>
    ((hstrides.weaken fun facts (hneeds : facts.Serves links bounded ∧
      (counter, twinCounter) ∈ facts.ties ∧ (limit, twinLimit) ∈ facts.ties) => hneeds.1).fill
      (counting_alike past advance hbodyCode fun facts hserves hheld =>
        hserves.enter hheld var twinVar .machInt false) fun facts hneeds =>
      ⟨hstrides.serves hneeds.1, List.mem_cons_of_mem _ hneeds.2.1,
        List.mem_cons_of_mem _ hneeds.2.2, List.mem_cons_self⟩).even
  have hlimitCode := fun past advance : Operator =>
    ((hbounds.weaken fun facts (hneeds : facts.Serves links started ∧
      (counter, twinCounter) ∈ facts.ties) => hneeds.1).fill (hstrideCode past advance)
      fun facts hneeds =>
        ⟨hbounds.serves hneeds.1, List.mem_cons_of_mem _ hneeds.2, List.mem_cons_self⟩).even
  have hcode := fun past advance : Operator =>
    (hcount.fill (hlimitCode past advance) fun facts hserves =>
      ⟨hcount.serves hserves, List.mem_cons_self⟩).even
  refine .pure (EvenCode.effect ?_)
  cases direction with
  | inc =>
    simpa only [List.append_assoc, List.cons_append, List.nil_append] using hcode .gt .add
  | dec =>
    simpa only [List.append_assoc, List.cons_append, List.nil_append] using hcode .lt .sub

end Staging

end IsaBackend
