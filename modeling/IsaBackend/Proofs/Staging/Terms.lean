import IsaBackend.Proofs.Staging.Values

/-!
# Staging terms

Whatever a term is staged to is a piece of code between the states before and after, so it keeps to
the lifetime discipline and to the scopes of names, and its instructions are of the kinds that
staging emits. What is live afterwards is what was live before and what the cleanup releases, so a
computation that is closed leaves nothing behind. The induction follows the term; each form has a
lemma of its own, which takes what is known of its parts.
-/

namespace IsaBackend

open StagingState

/-- What a term uses, together with the result parameter, which a return may write. -/
def Term.uses (term : Term) : List Mention := .verbatim Routine.resultParam :: term.mentions

namespace Staging

variable {plan : Plan} {needs more : Access → Prop} {applications others : List (String × Nat)}
  {before middle after : StagingState}

private theorem stageCall_provides (callee : String) {args : List Atom}
    (hsites : Atom.sitesAll args ⊆ plan.sites) (ty : Ty) (state : StagingState) :
    Provides (stageCall plan.around callee args ty) state fun staged after =>
      Supplies plan (fun acc => state.Allows acc (Atom.usageAll args)) [(callee, args.length)]
        staged.Fits state after staged := by
  refine (signature_provides plan.around callee args ty state).bind ?_
  rintro ⟨params, result⟩ _ ⟨hcallee, rfl⟩
  simp only
  split
  · exact (Provides.throw rfl).bind fun _ _ (h : False) => h.elim
  · rename_i hlength
    have hlength := Classical.not_not.mp hlength
    refine (loadArgs_provides plan callee args hsites 0 params hlength state).bind ?_
    rintro ⟨setup, values, cleanup⟩ after h
    have hsuits : ∀ dest : Place, result.compatible dest.rep = true →
        Call.Suits plan.around ⟨dest, callee, values⟩ :=
      fun dest hdest hdeclares => ⟨params, result, hcallee hdeclares, h.fits, hdest⟩
    refine .pure ⟨h.piece, fun _ => rfl, ?_, fun dest hdest => .call (hsuits dest hdest),
      fun dest hdest => List.forall_mem_singleton.mpr ?_⟩
    · rintro later ⟨acc, hcov, hneeds, hle⟩ live hlive dest hdest entry post hpost
      exact Access.accepts_call
        (fun value hv => (h.reads acc hcov hneeds value hv).mono hle hlive) hdest hpost
    · exact ⟨⟨dest, callee, values⟩, by simp [Instr.callsAll, Instr.calls], rfl,
        h.fits.length_eq.trans hlength, hsuits dest hdest⟩

private theorem fieldRep_error {record : Rep} {field : String} {cause : CompileError}
    (h : fieldRep record field = .error cause) : cause.reportsLive = false := by
  unfold fieldRep at h
  split at h <;> cases h
  rfl

private theorem reads_field {acc : Access} {live : List String} {operand : Operand}
    (h : acc.Reads live operand) (field : String) (rep : Rep) :
    acc.Reads live (.inline (.field operand.toInline field) rep) := by
  cases acc with
  | lifetime disc =>
    cases operand with
    | name name rep => exact ⟨rfl, h.2⟩
    | inline expr rep => exact ⟨h.1, h.2⟩
  | scope rights => exact fun name hn => h name (operand.occurrences_toInline ▸ hn)

/-- A field that is read at a narrower type loses its mask at a place as wide as the field. -/
theorem stageField_provides {record : Atom} (field : String) {ty : Ty}
    (hsites : (Term.field record field ty).sites ⊆ plan.sites) (state : StagingState) :
    Provides (stageField plan.around record field ty) state fun staged after =>
      Supplies plan (fun acc => state.Allows acc record.usage) [] staged.Fits state after
        staged := by
  obtain ⟨haccess, hrecord⟩ := List.cons_subset.mp hsites
  refine (load_provides plan record hrecord state).bind ?_
  intro loaded middle hloaded
  refine (Provides.lift fun _ h => fieldRep_error h).bind ?_
  rintro rep _ ⟨_, rfl⟩
  refine (repOf_provides plan.around ty _).bind ?_
  rintro target _ ⟨htarget, rfl⟩
  have hfield : Loads plan (fun acc => state.Allows acc record.usage) state _
      { loaded with value := .inline (.field loaded.value.toInline field) rep } :=
    ⟨hloaded.setup, fun acc hcov hneeds => reads_field (hloaded.reads acc hcov hneeds) field rep⟩
  refine (coerce_provides hfield.supplies "field access" (fun _ hdest => hdest)
    fun dest name hcrosses hdest => ?_).mono fun result after hresult => ?_
  · rcases hcrosses.widen hdest with hcross | ⟨narrow, order, rfl, hunmasked⟩
    · exact .convert hcross
    · exact .unmasked ⟨ty, narrow, order, haccess, htarget, hunmasked⟩
  · obtain ⟨rfl, hsupplies⟩ := hresult
    exact hsupplies

private theorem storeFields_provides (record : Place) : ∀ (fields : List (String × Atom)),
    Atom.sitesAll (fields.map Prod.snd) ⊆ plan.sites → ∀ state : StagingState,
      Provides (storeFields plan.around record fields) state fun code after => Piece plan
        (fun acc => state.Allows acc (Atom.usageAll (fields.map Prod.snd)) ∧
          acc.MayWrite state.stack record.root) state after code []
  | [], _, state => .pure (.nil state)
  | (field, value) :: rest, hsites, state => by
    obtain ⟨hvalue, hrest⟩ := List.append_subset.mp hsites
    refine (Provides.lift fun _ h => fieldRep_error h).bind ?_
    rintro rep _ ⟨_, rfl⟩
    refine (storeAtom_provides plan (.field record field rep) hvalue _ state).bind ?_
    intro store middle hstore
    refine (storeFields_provides record rest hrest middle).bind ?_
    intro stores after hstores
    exact .pure (hstore.stores hstores)

private theorem stageUpdate_provides {record : Atom} {fields : List (String × Atom)} {ty : Ty}
    (hsites : (Term.update record fields ty).sites ⊆ plan.sites) (state : StagingState) :
    Provides (stageUpdate plan.around record fields ty) state fun staged after =>
      Supplies plan (fun acc => state.Allows acc
        (record.usage ++ Atom.usageAll (fields.map Prod.snd))) [] staged.Fits state after
        staged := by
  obtain ⟨hrecord, hfields⟩ := List.append_subset.mp hsites
  refine (repOf_provides plan.around ty state).bind ?_
  rintro rep _ ⟨_, rfl⟩
  refine (temp_provides plan state rep).bind ?_
  rintro ⟨name, decl⟩ declared hdecl
  refine (storeAtom_provides plan (.name name rep) hrecord _ declared).bind ?_
  intro copy middle hcopy
  refine (storeFields_provides (.name name rep) fields hfields middle).bind ?_
  intro stores after hstores
  exact .pure (hdecl.stored (hcopy.stores hstores)).supplies

/-- Releasing everything and returning. What follows is never reached, so it may assume any
stack. -/
private theorem piece_return (state : StagingState) (value : Operand) (text : String) :
    Piece plan (fun acc => acc.Reads [] value ∧ ∀ entry ∈ state.live,
      acc.MayWrite state.stack entry.1) state state
      (releases state.live ++ [.ret value, .comment text]) [] := by
  have hnames : Instr.introducedAll (releases state.live ++ [.ret value, .comment text]) = [] := by
    rw [Instr.introducedAll_append, introducedAll_releases]
    rfl
  refine ⟨.refl state, id, fun _ => hnames ▸ .nil, hnames ▸ nofun, ?_, fun hheap => ?_, [], rfl,
    rfl, nofun⟩
  · intro acc _ _ ⟨hreads, hlive⟩ entry post hpost
    refine .append (fun next hnext => ?_) (.append (fun _ _ => Access.accepts_ret ?_)
      (Access.accepts_comment text hpost))
    · rw [← List.append_nil state.stack]
      exact Access.accepts_releases state.stack hnext hlive
    · exact hreads.mono (acc.le_after _) fun _ hn => hn
  · exact Instr.emittedAll_append.mpr ⟨emittedAll_releases hheap, .ret, .comment, trivial⟩

private theorem stages_return {loaded : Loaded} {usage : Usage} {stores : List Instr}
    {returned : Operand} (rep : Rep)
    (h : Loads plan (fun acc => before.Allows acc usage) before middle loaded)
    (hstores : Piece plan more middle after stores [])
    (himp : ∀ acc : Access, acc.Covers (Instr.introducedAll loaded.setup) →
      before.Allows acc usage → more (acc.after loaded.setup))
    (hreturned : ∀ acc : Access, acc.Covers (Instr.introducedAll stores) →
      (acc.after stores).Reads [] returned) :
    Stages plan (fun acc => before.Allows acc usage) [] before (after.withLive before.live)
      { setup := loaded.setup ++ stores ++ loaded.cleanup ++ releases before.live ++
          [.ret returned]
        rep
        deliver := fun _ => .comment "unreachable"
        cleanup := [] } where
  makes := fun _ _ => Instr.makes_nil _
  code := by
    intro dest _
    have hsettled := (h.setup.extended hstores himp).settled
    have hleave : Piece plan (fun acc => acc.Reads [] returned ∧ ∀ entry ∈ before.live,
        acc.MayWrite before.stack entry.1) (after.withLive before.live) (after.withLive before.live)
        (releases before.live ++ [.ret returned, .comment "unreachable"]) [] :=
      piece_return (after.withLive before.live) returned _
    have hcode := hsettled.followed hleave fun acc hcov hallows =>
      ⟨?_, (hsettled.allows hallows).live⟩
    · refine Piece.weaken ?_ fun _ hneeds => hneeds.1
      simpa only [List.append_assoc, List.singleton_append] using hcode
    · rw [Instr.introducedAll_append, Instr.introducedAll_append] at hcov
      have hstored := (Access.covers_append.mp (Access.covers_append.mp hcov).1).2
      rw [Access.after_append, Access.after_append]
      exact (hreturned _ ((Access.covers_after _).mpr hstored)).mono (Access.le_after _ _)
        fun _ hn => hn

private theorem Declares.store {name : String} {rep : Rep} {decl store : Instr} {value : Operand}
    {context : String} (h : Declares plan (fun _ => True) before after name rep decl)
    (hstack : rep.isStack = true)
    (hstore : Instr.transfer (.name name rep) value context = .ok store) :
    Piece plan (fun acc => acc.Reads before.stack value) before after [decl, store] [] :=
  ((h.balanced hstack).weaken fun _ _ => trivial).followed (.transfer hstore)
    fun acc hcov hreads => ⟨hreads.mono (acc.le_after _) h.piece.stack_subset,
      (h.usable acc (Instr.introducedAll_singleton decl ▸ hcov)).2⟩

private theorem stageReturn_provides {value : Atom} (hsites : value.sites ⊆ plan.sites) (rep : Rep)
    (state : StagingState) :
    Provides (stageReturn plan.around value rep) state fun staged after => staged.rep = rep ∧
      Stages plan (fun acc => state.Allows acc value.usage) [] state after staged := by
  refine Provides.get.bind ?_
  rintro _ _ ⟨rfl, rfl⟩
  split
  · exact .throw rfl
  · rename_i result _
    refine (load_provides plan value hsites state).bind ?_
    intro loaded middle hloaded
    simp only [pure_bind]
    split
    · rename_i hstack
      refine (temp_provides plan middle result).bind ?_
      rintro ⟨slot, decl⟩ declared hdecl
      refine (Provides.lift fun _ h => Instr.transfer_error h).bind ?_
      rintro store _ ⟨hstore, rfl⟩
      have hstores := hdecl.store hstack hstore
      refine (settle_piece (hloaded.setup.extended hstores hloaded.reads)).bind ?_
      rintro _ _ rfl
      refine Provides.get.bind ?_
      rintro _ _ ⟨rfl, rfl⟩
      obtain rfl := hdecl.plain hstack
      refine .pure ⟨rfl, stages_return rep hloaded hstores hloaded.reads fun acc hcov => ?_⟩
      exact Access.reads_name (Access.keeps_declared result List.mem_cons_self hcov _).1 result
    · refine (Provides.lift fun _ h => Instr.transfer_error h).bind ?_
      rintro store _ ⟨hstore, rfl⟩
      refine (settle_piece hloaded.setup).bind ?_
      rintro _ _ rfl
      refine Provides.get.bind ?_
      rintro _ _ ⟨rfl, rfl⟩
      refine .pure ⟨rfl, stages_return rep hloaded (.transfer hstore) (fun acc hcov hallows =>
        ⟨hloaded.reads acc hcov hallows, ?_⟩) fun _ _ => Access.reads_constant rfl rfl _⟩
      exact hloaded.setup.mayWrite hallows.result

private theorem assigned_provides (around : Surroundings) (target : String) (ty : Ty)
    (state : StagingState) :
    Provides (assigned around target ty) state fun dest after =>
      state = after ∧ dest.root = state.codeName (.source target) := by
  refine Provides.get.bind ?_
  rintro _ _ ⟨rfl, rfl⟩
  cases hlocal : state.locals.get? target with
  | some entry => exact .pure ⟨rfl, by simp [codeName, hlocal, Place.root]⟩
  | none =>
    simp only
    refine (repOf_provides around ty state).bind ?_
    rintro rep _ ⟨_, rfl⟩
    exact .pure ⟨rfl, by simp [codeName, hlocal, Place.root]⟩

/-- A computation is staged from every state, at every request, to code that uses certain names and
makes certain calls. -/
def StagesAs (plan : Plan) (usage : Usage) (applications : List (String × Nat))
    (stage : Want → Staging Staged) : Prop :=
  ∀ want state, Provides (stage want) state fun staged after => Granted want staged.rep ∧
    Stages plan (fun acc => state.Allows acc usage) applications state after staged

theorem discard_provides {usage : Usage} {stage : Want → Staging Staged}
    (hstage : StagesAs plan usage applications stage) (ty : Ty) (state : StagingState) :
    Provides (discard plan.around ty stage) state fun code after =>
      Piece plan (fun acc => state.Allows acc usage) state after code [] ∧
      Instr.Makes plan.around applications code := by
  refine (repOf_provides plan.around ty state).bind ?_
  rintro rep _ ⟨_, rfl⟩
  refine (temp_provides plan state rep).bind ?_
  rintro ⟨name, decl⟩ declared hdecl
  refine (hstage (some (rep, "statement")) declared).bind ?_
  rintro staged middle ⟨hrep, hstaged⟩
  have hdest : (Place.name name rep).rep = staged.rep := (hrep _ _ rfl).symm
  refine (close_provides hstaged hdest).bind ?_
  rintro code closed ⟨hcode, hmakes⟩
  have hstored := hdecl.stored hcode
  refine (settle_piece hstored.setup).bind ?_
  rintro _ _ rfl
  refine .pure ⟨hstored.setup.settled, hmakes.mono fun call hcall => ?_⟩
  simp [Instr.callsAll, hcall]

private theorem piece_branch {flag : String} {onTrue onFalse : List Instr} {rep : Rep}
    (htrue : Piece plan needs before middle onTrue [])
    (hfalse : Piece plan more middle after onFalse []) :
    Piece plan (fun acc => needs acc ∧ more acc ∧ acc.Keeps flag) before after
      [.branch (.name flag .bool) onTrue onFalse rep] [] where
  leads := htrue.leads.trans hfalse.leads
  ready := fun hready => hfalse.ready (htrue.ready hready)
  introduces := by
    intro hready
    rw [Instr.introducedAll_singleton, Instr.introduced]
    exact (htrue.introduces hready).append (hfalse.introduces (htrue.ready hready)) htrue.leads
      hfalse.leads
  news := by
    rw [Instr.introducedAll_singleton, Instr.introduced]
    exact List.forall_mem_append.mpr
      ⟨htrue.news, fun entry he => (hfalse.news entry he).earlier htrue.leads⟩
  accepts := by
    intro acc hready hcov ⟨htrueNeeds, hfalseNeeds, hkeeps⟩ entry post hpost
    rw [Instr.introducedAll_singleton, Instr.introduced, Access.covers_append] at hcov
    rw [hfalse.stack_eq] at hpost
    refine Access.accepts_branch (Access.reads_name (hkeeps _).1 _) ?_ ?_
    · exact htrue.accepts acc hready hcov.1 htrueNeeds entry _ hpost
    · rw [← htrue.stack_eq]
      refine hfalse.accepts acc (hready.imp htrue.ready) hcov.2 hfalseNeeds entry _ ?_
      rw [hfalse.stack_eq]
      exact hpost
  emitted := fun hheap => ⟨⟨.branch, htrue.emitted hheap, hfalse.emitted (htrue.liveOnHeap hheap)⟩,
    trivial⟩
  storage := ⟨[], hfalse.live_eq.trans htrue.live_eq, rfl, nofun⟩

private theorem stageCond_provides {usage more all : Usage} {test : Atom}
    (hsites : test.sites ⊆ plan.sites)
    {onTrue onFalse : Want → Staging Staged} (htrue : StagesAs plan usage applications onTrue)
    (hfalse : StagesAs plan more others onFalse) (hall : test.usage ++ (usage ++ more) ⊆ all)
    (rep : Rep) (state : StagingState) :
    Provides (stageCond plan.around test onTrue onFalse rep) state fun staged after =>
      staged.rep = rep ∧ Stages plan (fun acc => state.Allows acc all) (applications ++ others)
        state after staged := by
  refine (load_provides plan test hsites state).bind ?_
  intro loaded middle hloaded
  refine (temp_provides plan middle .bool).bind ?_
  rintro ⟨flag, decl⟩ declared hdecl
  refine (Provides.lift fun _ h => Instr.transfer_error h).bind ?_
  rintro store _ ⟨hstore, rfl⟩
  have hflag := hloaded.setup.extended (hdecl.store rfl hstore) hloaded.reads
  refine (settle_piece hflag).bind ?_
  rintro _ _ rfl
  have hsetup := hflag.settled
  refine (htrue (some (rep, "then branch")) (declared.withLive state.live)).bind ?_
  rintro trueArm trueEnd ⟨htrueRep, htrueArm⟩
  refine (settle_stages htrueArm).bind ?_
  rintro _ _ rfl
  refine (hfalse (some (rep, "else branch")) _).bind ?_
  rintro falseArm falseEnd ⟨hfalseRep, hfalseArm⟩
  refine (settle_stages hfalseArm).bind ?_
  rintro _ _ rfl
  obtain rfl := hdecl.plain rfl
  have hintoTrue := fun (dest : Place) (hdest : dest.rep = rep) =>
    htrueArm.into dest (hdest.trans (htrueRep _ _ rfl).symm)
  have hintoFalse := fun (dest : Place) (hdest : dest.rep = rep) =>
    hfalseArm.into dest (hdest.trans (hfalseRep _ _ rfl).symm)
  refine .pure ⟨rfl, fun dest hdest => ?_, fun dest hdest => ?_⟩
  · obtain ⟨htrueInto, _⟩ := hintoTrue dest hdest
    refine (hsetup.weaken fun _ hneeds => (hneeds.1.subset hall).left).followed
      (piece_branch htrueInto (hintoFalse dest hdest).1) fun acc hcov hneeds => ?_
    have harms := hsetup.allows (hneeds.1.subset hall).right
    have hwrite := hsetup.mayWrite hneeds.2
    refine ⟨⟨harms.left, hwrite⟩, ⟨htrueInto.hidden harms.right, ?_⟩, ?_⟩
    · exact hwrite.mono (.refl _) htrueInto.stack_subset
    · exact Access.keeps_declared .bool (by simp) hcov
  · refine Instr.makes_append.mpr ⟨(hintoTrue dest hdest).2.mono ?_,
      (hintoFalse dest hdest).2.mono ?_⟩ <;>
    · intro call hcall
      simp [Instr.callsAll, Instr.calls, hcall]

/-- A loop whose rounds start and end with the stack of its entry. The rounds introduce the names of
a piece of code, in some order. -/
private theorem piece_loop {code rounds : List Instr} (h : Piece plan more before after code [])
    (hnames : (Instr.introducedAll rounds).Perm (Instr.introducedAll code))
    (hemitted : before.LiveOnHeap → Instr.EmittedAll plan.around plan.sites rounds)
    (haccepts : ∀ acc : Access, acc.IfLifetime (before.Ready plan) →
      acc.Covers (Instr.introducedAll rounds) → needs acc →
        acc.Accepts (some before.stack) before.stack rounds (· = before.stack)) :
    Piece plan needs before after [.loop rounds] [] := by
  refine ⟨h.leads, h.ready, ?_, ?_, ?_, fun hheap => ⟨⟨.loop, hemitted hheap⟩, trivial⟩, [],
    h.live_eq, rfl, nofun⟩ <;>
    rw [Instr.introducedAll_singleton, Instr.introduced]
  · exact fun hready => (h.introduces hready).perm hnames
  · exact fun entry he => h.news entry (hnames.mem_iff.mp he)
  · intro acc hready hcov hneeds entry post hpost
    rw [h.stack_eq] at hpost
    exact Access.accepts_loop (haccepts acc hready hcov hneeds) hpost

private theorem emitted_leaveIf (test : Operand) :
    (leaveIf test).Everywhere (Instr.Emitted plan.around plan.sites) :=
  ⟨.branch, ⟨.leave, trivial⟩, trivial⟩

private theorem accepts_leaveIf {acc : Access} {live : List String} {test : Operand}
    {post : List String → Prop} (hreads : acc.Reads live test) (hpost : post live) :
    acc.Accepts (some live) live [leaveIf test] post :=
  Access.accepts_branch hreads Access.accepts_leave (Access.accepts_nil hpost)

private theorem piece_rounds (kind : LoopTest) {usage others : Usage} {flag : String}
    {test body : List Instr}
    (htest : Piece plan (fun acc => before.Allows acc usage ∧ acc.MayWrite before.stack flag)
      before middle test [])
    (hbody : Piece plan (fun acc => middle.Allows acc others) middle after body []) :
    Piece plan (fun acc => before.Allows acc (usage ++ others) ∧ acc.Keeps flag) before after
      [.loop (match kind with
        | .whileTrue => test ++ [leaveIf (.inline (.not (.name flag)) .bool)] ++ body
        | .untilTrue => body ++ test ++ [leaveIf (.name flag .bool)])] [] := by
  have hcode : Piece plan (fun _ => False) before after (test ++ body) [] :=
    (htest.weaken fun _ h => h.elim).followed hbody fun _ _ h => h.elim
  have hleave : ∀ test : Operand, Instr.introducedAll [leaveIf test] = [] := fun _ => rfl
  cases kind with
  | whileTrue =>
    refine piece_loop hcode ?_ (fun hheap => ?_) fun acc hready hcov hneeds => ?_
    · simp only [Instr.introducedAll_append, hleave, List.append_nil, List.Perm.refl]
    · simp only [Instr.emittedAll_append]
      exact ⟨⟨htest.emitted hheap, emitted_leaveIf _, trivial⟩,
        hbody.emitted (htest.liveOnHeap hheap)⟩
    simp only [Instr.introducedAll_append, hleave, List.append_nil, Access.covers_append] at hcov
    refine .append (fun next hnext => .append (fun last hlast => ?_) (accepts_leaveIf ?_ hnext)) ?_
    · rw [← htest.stack_eq] at hlast
      exact htest.accepts acc hready hcov.1 ⟨hneeds.1.left, (hneeds.2 _).2⟩ _ last hlast
    · refine Access.reads_inline rfl (fun name hn => ?_) _
      rw [List.mem_singleton.mp hn]
      exact (hneeds.2.mono (acc.le_after test) _).1
    · rw [← htest.stack_eq]
      exact hbody.accepts _ ((Access.ifLifetime_after _).mpr (hready.imp htest.ready))
        ((Access.covers_after _).mpr hcov.2) ((htest.hidden hneeds.1.right).later (acc.le_after _))
        _ _ hbody.stack_eq
  | untilTrue =>
    refine piece_loop hcode ?_ (fun hheap => ?_) fun acc hready hcov hneeds => ?_
    · simp only [Instr.introducedAll_append, hleave, List.append_nil]
      exact List.perm_append_comm
    · simp only [Instr.emittedAll_append]
      exact ⟨⟨hbody.emitted (htest.liveOnHeap hheap), htest.emitted hheap⟩, emitted_leaveIf _,
        trivial⟩
    simp only [Instr.introducedAll_append, hleave, List.append_nil, Access.covers_append] at hcov
    have htested : ∀ next : List String → Prop, next before.stack →
        (acc.after body).Accepts (some before.stack) before.stack test next := by
      intro next hnext
      rw [← htest.stack_eq] at hnext
      exact htest.accepts _ ((Access.ifLifetime_after _).mpr hready)
        ((Access.covers_after _).mpr hcov.2) ⟨hneeds.1.left.later (acc.le_after _),
          (hneeds.2.mono (acc.le_after _) _).2⟩ _ next hnext
    refine .append (fun next hnext => .append (fun last hlast => ?_) (htested next hnext))
      (accepts_leaveIf ?_ rfl)
    · rw [← htest.stack_eq]
      rw [← htest.stack_eq, ← hbody.stack_eq] at hlast
      exact hbody.accepts acc (hready.imp htest.ready) hcov.1 (htest.hidden hneeds.1.right) _ _
        hlast
    · exact Access.reads_name (hneeds.2.mono (acc.le_after _) _).1 _

private theorem stageLoop_provides {usage more : Usage} (kind : LoopTest)
    {test body : Want → Staging Staged} (htest : StagesAs plan usage applications test) (bodyTy : Ty)
    (hbody : StagesAs plan more others body) (state : StagingState) :
    Provides (stageLoop plan.around kind test bodyTy body) state fun staged after =>
      Supplies plan (fun acc => state.Allows acc (usage ++ more)) (applications ++ others)
        staged.Fits state after staged := by
  refine (temp_provides plan state .bool).bind ?_
  rintro ⟨flag, decl⟩ declared hdecl
  refine (htest (some (.bool, "loop condition")) declared).bind ?_
  rintro staged middle ⟨hrep, hstaged⟩
  have hdest : (Place.name flag .bool).rep = staged.rep := (hrep _ _ rfl).symm
  refine (close_provides hstaged hdest).bind ?_
  rintro testCode tested ⟨htestCode, htestMakes⟩
  refine (discard_provides hbody bodyTy tested).bind ?_
  rintro bodyCode after ⟨hbodyCode, hbodyMakes⟩
  obtain rfl := hdecl.plain rfl
  have hdeclared := (hdecl.balanced rfl).weaken fun (acc : Access)
    (_ : state.Allows acc (usage ++ more)) => trivial
  refine .pure (Piece.effect (hdeclared.followed (piece_rounds kind htestCode hbodyCode)
    fun acc hcov hallows => ⟨hdeclared.allows hallows,
      Access.keeps_declared .bool List.mem_cons_self hcov⟩) ?_)
  refine Instr.makes_append.mpr ⟨htestMakes.mono ?_, hbodyMakes.mono ?_⟩ <;>
  · intro call hcall
    cases kind <;> simp [Instr.callsAll, Instr.calls, hcall]

private theorem piece_counting {counter limit stride : String} (past advance : Operator)
    {body : List Instr} (hbody : Piece plan needs before after body []) :
    Piece plan (fun acc => needs acc ∧ acc.Keeps counter ∧ acc.Keeps limit ∧ acc.Keeps stride)
      before after
      [.loop (leaveIf (.inline (.binary past (.name counter) (.name limit)) .bool) :: body ++
        [.assign (.name counter .machInt)
          (.inline (.binary advance (.name counter) (.name stride)) .machInt)])] [] := by
  have hpair : ∀ {acc : Access} {live : List String} {other : String} (op : Operator) (rep : Rep),
      acc.Keeps counter → acc.Keeps other →
      acc.Reads live (.inline (.binary op (.name counter) (.name other)) rep) := by
    intro acc live other op rep hcounter hother
    refine Access.reads_inline rfl (fun name hn => ?_) rep
    rcases List.mem_cons.mp hn with rfl | hn
    · exact (hcounter live).1
    · rw [List.mem_singleton.mp hn]
      exact (hother live).1
  have hnames : Instr.introducedAll
      (leaveIf (.inline (.binary past (.name counter) (.name limit)) .bool) :: body ++
        [.assign (.name counter .machInt)
          (.inline (.binary advance (.name counter) (.name stride)) .machInt)]) =
      Instr.introducedAll body := by
    rw [Instr.introducedAll_append, Instr.introducedAll]
    exact List.append_nil _
  refine piece_loop hbody (hnames ▸ .refl _) (fun hheap => ?_) fun acc hready hcov hneeds => ?_
  · refine Instr.emittedAll_append.mpr ⟨⟨emitted_leaveIf _, hbody.emitted hheap⟩, ?_, trivial⟩
    exact .assign rfl (Rep.compatible_self _)
  rw [hnames] at hcov
  obtain ⟨hneeds, hcounter, hlimit, hstride⟩ := hneeds
  change acc.Accepts _ _ ([_] ++ (body ++ _)) _
  refine .append (fun next hnext => accepts_leaveIf (hpair _ _ hcounter hlimit) hnext) ?_
  rw [Access.after_of_exposes_nil rfl]
  refine .append (fun next hnext => ?_) (Access.accepts_move (.inl rfl) ?_ ?_ rfl)
  · rw [← hbody.stack_eq] at hnext
    exact hbody.accepts acc hready hcov hneeds _ next hnext
  · exact hpair _ _ (hcounter.mono (acc.le_after _)) (hstride.mono (acc.le_after _))
  · exact (hcounter.mono (acc.le_after _) _).2

private theorem stageCount_provides {usage : Usage} {var : String} (hbound : var ∈ plan.bound)
    {first last step : Atom} (hsites : first.sites ++ last.sites ++ step.sites ⊆ plan.sites)
    (direction : Direction) (bodyTy : Ty) {body : Want → Staging Staged}
    (hbody : StagesAs plan usage applications body) (state : StagingState) :
    Provides (stageCount plan.around var first last step direction bodyTy body) state
      fun staged after => Supplies plan (fun acc => state.Allows acc
        (first.usage ++ last.usage ++ step.usage ++ usage.hide var)) applications staged.Fits state
        after staged := by
  obtain ⟨hends, hstepSites⟩ := List.append_subset.mp hsites
  obtain ⟨hfirstSites, hlastSites⟩ := List.append_subset.mp hends
  refine (localName_provides state hbound).bind ?_
  intro counter claimed hcounter
  refine (storeAtom_provides plan (.name counter .machInt) hfirstSites _ claimed).bind ?_
  intro start started hstart
  refine (temp_provides plan started .machInt).bind ?_
  rintro ⟨limit, limitDecl⟩ limited hlimit
  refine (storeAtom_provides plan (.name limit .machInt) hlastSites _ limited).bind ?_
  intro setLimit bounded hsetLimit
  refine (temp_provides plan bounded .machInt).bind ?_
  rintro ⟨stride, strideDecl⟩ strided hstride
  refine (storeAtom_provides plan (.name stride .machInt) hstepSites _ strided).bind ?_
  intro setStride ready hsetStride
  obtain rfl := hlimit.plain rfl
  obtain rfl := hstride.plain rfl
  -- None of the three locals is storage, so nothing is left to release.
  have hcount : Piece plan (fun acc => state.Allows acc first.usage) state started
      (.decl .machInt counter :: start) [] := ((hcounter.declares rfl).stored hstart).setup
  have hbounds : Piece plan (fun acc => started.Allows acc last.usage) started bounded
      (.decl .machInt limit :: setLimit) [] := (hlimit.stored hsetLimit).setup
  have hstrides : Piece plan (fun acc => bounded.Allows acc step.usage) bounded ready
      (.decl .machInt stride :: setStride) [] := (hstride.stored hsetStride).setup
  have hprepared := (hcount.joined hbounds).joined hstrides
  simp only
  refine (within_provides (discard_provides hbody bodyTy _)).bind ?_
  rintro bodyCode _ ⟨ended, ⟨hended, hmakes⟩, rfl⟩
  have hrounds := hended.exit.weaken fun (acc : Access)
    (hneeds : ready.Allows acc (usage.hide var) ∧ acc.Keeps counter) =>
      hneeds.1.enter (hneeds.2 _)
  refine .pure (Piece.effect ((hprepared.weaken fun _ hallows => hallows.left).followed
    (piece_counting _ _ hrounds) fun acc hcov hallows => ?_) (hmakes.mono fun call hcall => ?_))
  · have hkept : Access.Keeps _ counter := Access.keeps_declared .machInt (by simp) hcov
    exact ⟨⟨hprepared.allows hallows.right, hkept⟩, hkept,
      Access.keeps_declared .machInt (by simp) hcov, Access.keeps_declared .machInt (by simp) hcov⟩
  · simp [Instr.callsAll, Instr.calls, hcall]

mutual

/-- Every term is staged to code between the states before and after it. -/
theorem stage_provides (plan : Plan) : ∀ term : Term, (∀ name ∈ term.bound, name ∈ plan.bound) →
    term.sites ⊆ plan.sites → StagesAs plan term.usage term.applications
      fun want => stage plan.around want term
  | .atom value, _, hsites, want, state =>
    (load_provides plan value hsites state).bind fun _ _ h => grant_provides h.supplies want
  | .call callee args ty, _, hsites, want, state =>
    (stageCall_provides callee hsites ty state).bind fun _ _ h => grant_provides h want
  | .field record key ty, _, hsites, want, state =>
    (stageField_provides key hsites state).bind fun _ _ h => grant_provides h want
  | .update record fields ty, _, hsites, want, state =>
    (stageUpdate_provides hsites state).bind fun _ _ h => grant_provides h want
  | .cast inner ty, hbound, hsites, want, state => by
    have hinner := stage_provides plan inner hbound hsites
    cases want with
    | some asked => exact hinner (some asked) state
    | none =>
      refine (repOf_provides plan.around ty state).bind ?_
      rintro rep _ ⟨_, rfl⟩
      exact (hinner _ state).mono fun _ _ h => ⟨granted_none _, h.2⟩
  | .assign target ty value, hbound, hsites, want, state => by
    refine (assigned_provides plan.around target ty state).bind ?_
    rintro dest _ ⟨rfl, hroot⟩
    refine (stage_provides plan value hbound hsites _ state).bind ?_
    rintro staged middle ⟨hrep, hstaged⟩
    refine (close_provides hstaged (hrep _ _ rfl).symm).bind ?_
    rintro code after ⟨hcode, hmakes⟩
    refine grant_provides ((hcode.effect hmakes).weaken fun acc hallows => ⟨?_, ?_⟩) want
    · exact hallows.subset (Term.usage_assign target ty value)
    · rw [hroot]
      exact hallows.mayWrite_target
  | .bind name ty init body bodyTy, hbound, hsites, want, state => by
    obtain ⟨hinitSites, hbodySites⟩ := List.append_subset.mp hsites
    have hname : name ∈ plan.bound := hbound name List.mem_cons_self
    have hinitBound : ∀ other ∈ init.bound, other ∈ plan.bound := fun other ho =>
      hbound other (List.mem_cons_of_mem _ (List.mem_append_left _ ho))
    have hbodyBound : ∀ other ∈ body.bound, other ∈ plan.bound := fun other ho =>
      hbound other (List.mem_cons_of_mem _ (List.mem_append_right _ ho))
    refine (repOf_provides plan.around ty state).bind ?_
    rintro rep _ ⟨_, rfl⟩
    refine (localName_provides state hname).bind ?_
    intro codeName claimed hclaimed
    refine (declare_provides hclaimed rep).bind ?_
    intro decl declared hdecl
    refine (stage_provides plan init hinitBound hinitSites _ declared).bind ?_
    rintro staged middle ⟨hrep, hstaged⟩
    have hdest : (Place.name codeName rep).rep = staged.rep := (hrep _ _ rfl).symm
    refine (close_provides hstaged hdest).bind ?_
    rintro initCode closed ⟨hinit, hmakes⟩
    refine (within_provides (stage_provides plan body hbodyBound hbodySites want _)).bind ?_
    rintro bodyStaged _ ⟨ended, ⟨hwant, hended⟩, rfl⟩
    have hopened := (hdecl.stored hinit).setup
    have hsplit : ∀ {acc : Access}, state.Allows acc (Term.bind name ty init body bodyTy).usage →
        state.Allows acc (init.usage ++ body.usage.hide name) := id
    refine .pure ⟨hwant, Stages.prepend (hopened.weaken fun _ hallows => (hsplit hallows).left)
      (hmakes.mono ?_) hended.exit fun acc hcov hallows =>
        (hopened.allows (hsplit hallows).right).enter (hdecl.usable_after hinit hcov)⟩
    simp [Instr.callsAll]
  | .block stmts last ty, hbound, hsites, want, state => by
    obtain ⟨hstmtsSites, hlastSites⟩ := List.append_subset.mp hsites
    have hlastBound : ∀ name ∈ last.bound, name ∈ plan.bound := fun name hn =>
      hbound name (List.mem_append_right _ hn)
    refine (stageAll_provides plan stmts (fun name hn =>
      hbound name (List.mem_append_left _ hn)) hstmtsSites state).bind ?_
    rintro code middle ⟨hcode, hmakes⟩
    refine (stage_provides plan last hlastBound hlastSites want middle).bind ?_
    rintro staged after ⟨hwant, hstaged⟩
    have hstages : Stages plan (fun acc => state.Allows acc (Term.usageAll stmts ++ last.usage))
        (Term.applicationsAll stmts ++ last.applications) state after _ :=
      Stages.prepend (hcode.weaken fun _ hallows => hallows.left) hmakes hstaged
        fun _ _ hallows => hcode.allows hallows.right
    rw [List.append_nil] at hstages
    exact .pure ⟨hwant, hstages⟩
  | .ret value ty, _, hsites, some asked, state =>
    (stageReturn_provides hsites asked.1 state).mono fun _ _ h => ⟨granted_some h.1, h.2⟩
  | .ret value ty, _, hsites, none, state =>
    (stageReturn_provides hsites _ state).mono fun _ _ h => ⟨granted_none _, h.2⟩
  | .cond test onTrue onFalse ty, hbound, hsites, want, state => by
    obtain ⟨hboth, hfalseSites⟩ := List.append_subset.mp hsites
    obtain ⟨htestSites, htrueSites⟩ := List.append_subset.mp hboth
    have hcond := fun rep => stageCond_provides htestSites
      (stage_provides plan onTrue (fun name hn => hbound name (List.mem_append_left _ hn))
        htrueSites)
      (stage_provides plan onFalse (fun name hn => hbound name (List.mem_append_right _ hn))
        hfalseSites) (Term.usage_cond test onTrue onFalse ty) rep state
    cases want with
    | some asked => exact (hcond asked.1).mono fun _ _ h => ⟨granted_some h.1, h.2⟩
    | none =>
      refine (repOf_provides plan.around ty state).bind ?_
      rintro rep _ ⟨_, rfl⟩
      exact (hcond rep).mono fun _ _ h => ⟨granted_none _, h.2⟩
  | .count var first last step direction body, hbound, hsites, want, state => by
    obtain ⟨hbounds, hbodySites⟩ := List.append_subset.mp hsites
    have hbody := stage_provides plan body (fun name hn =>
      hbound name (List.mem_cons_of_mem _ hn)) hbodySites
    refine (stageCount_provides (hbound var List.mem_cons_self) hbounds direction body.ty hbody
      state).bind fun staged after h => grant_provides (h.weaken fun _ hallows => ?_) want
    exact hallows.subset (Term.usage_count var first last step direction body)
  | .loop kind test body, hbound, hsites, want, state => by
    obtain ⟨htestSites, hbodySites⟩ := List.append_subset.mp hsites
    exact (stageLoop_provides kind
      (stage_provides plan test (fun name hn => hbound name (List.mem_append_left _ hn)) htestSites)
      body.ty
      (stage_provides plan body (fun name hn => hbound name (List.mem_append_right _ hn))
        hbodySites) state).bind fun _ _ h => grant_provides h want

theorem stageAll_provides (plan : Plan) : ∀ terms : List Term,
    (∀ name ∈ Term.boundAll terms, name ∈ plan.bound) → Term.sitesAll terms ⊆ plan.sites →
      ∀ state, Provides (stageAll plan.around terms) state fun code after => Piece plan
        (fun acc => state.Allows acc (Term.usageAll terms)) state after code [] ∧
        Instr.Makes plan.around (Term.applicationsAll terms) code
  | [], _, _, state => .pure ⟨.nil state, Instr.makes_nil _⟩
  | term :: rest, hbound, hsites, state => by
    obtain ⟨htermSites, hrestSites⟩ := List.append_subset.mp hsites
    have hterm := stage_provides plan term (fun name hn =>
      hbound name (List.mem_append_left _ hn)) htermSites
    refine (discard_provides hterm term.ty state).bind ?_
    rintro code middle ⟨hcode, hmakes⟩
    refine (stageAll_provides plan rest (fun name hn =>
      hbound name (List.mem_append_right _ hn)) hrestSites middle).bind ?_
    rintro more after ⟨hmore, hmoreMakes⟩
    refine .pure ⟨hcode.joined hmore, Instr.makes_append.mpr
      ⟨hmakes.mono ?_, hmoreMakes.mono ?_⟩⟩ <;> simp

end

end Staging

def Term.plan (term : Term) (around : Surroundings) (base : Nat) : Plan :=
  ⟨⟨base, term.bound⟩, around, term.sites⟩

theorem Staging.stagesAs_plan (around : Surroundings) (base : Nat) (term : Term) :
    StagesAs (term.plan around base) term.usage term.applications
      fun want => stage around want term :=
  stage_provides (term.plan around base) term (fun _ h => h) (List.Subset.refl _)

/-- What a staged computation promises. The storage that is live has grown by what the cleanup
releases, the last allocated one first; the value has the representation that was asked for; and
whatever the place that the value is delivered to, closing the computation leaves the storage live
that was live before. The locals in scope stay the same, also where staging fails. -/
theorem Staging.stage_keeps_contract (around : Surroundings) (want : Want) (term : Term)
    (state : StagingState) :
    match stage around want term state with
    | .ok staged final =>
      (∃ entries, final.live = entries ++ state.live ∧ staged.cleanup = releases entries) ∧
      (∀ name, final.locals.get? name = state.locals.get? name) ∧
      (∀ target context, want = some (target, context) → staged.rep = target) ∧
      ∀ dest, ∃ closed, close staged dest final = .ok (staged.into dest) closed ∧
        closed.live = state.live
    | .error _ final => ∀ name, final.locals.get? name = state.locals.get? name := by
  have hprovides := stagesAs_plan around 0 term want state
  simp only [Provides] at hprovides
  cases hrun : stage around want term state with
  | ok staged final =>
    rw [hrun] at hprovides
    obtain ⟨hscope, hgranted, hstages⟩ := hprovides
    obtain ⟨entries, hlive, hcleanup⟩ := hstages.storage
    refine ⟨⟨entries, hlive, hcleanup⟩, hscope, hgranted, fun dest =>
      ⟨final.withLive state.live, ?_, rfl⟩⟩
    unfold close
    rw [hcleanup]
    exact bind_of_ok (settle_ok hlive)
  | error cause final =>
    rw [hrun] at hprovides
    exact hprovides.1

end IsaBackend
