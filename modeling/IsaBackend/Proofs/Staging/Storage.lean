import IsaBackend.Proofs.Staging.State

/-!
# Names and storage that staging takes

Each step of staging that takes a name or storage gives a piece of code, and each cleanup that is
settled strikes exactly the storage that it releases. No step reports storage that is never
released, and the locals in scope are the same after each step, also where it fails.
-/

namespace IsaBackend

open StagingState

/-- Whether an error reports storage that is live at the end of a function. -/
def CompileError.reportsLive : CompileError → Bool
  | neverReleased _ _ => true
  | _ => false

namespace Staging

variable {α β : Type} {state : StagingState}

/-- From a state, a computation succeeds with a condition on its value and the state it leaves, or
fails with an error that does not report live storage. -/
def Yields (act : Staging α) (state : StagingState) (good : α → StagingState → Prop) : Prop :=
  match act state with
  | .ok value after => good value after
  | .error cause _ => cause.reportsLive = false

theorem Yields.of_ok {act : Staging α} {after : StagingState} {value : α}
    {good : α → StagingState → Prop} (h : Yields act state good)
    (hok : act state = .ok value after) : good value after := by
  unfold Yields at h
  rwa [hok] at h

/-- A computation yields what it should in the scope of its start: the locals are what they were,
whether it succeeds or fails. -/
def Provides (act : Staging α) (state : StagingState) (good : α → StagingState → Prop) : Prop :=
  match act state with
  | .ok value after => state.SameScope after ∧ good value after
  | .error cause after => state.SameScope after ∧ cause.reportsLive = false

namespace Provides

variable {act : Staging α} {next : α → Staging β} {good : α → StagingState → Prop}
  {after : StagingState} {value : α}

theorem of_run (hrun : act state = .ok value after) (hscope : state.SameScope after)
    (h : good value after) : Provides act state good := by
  rw [Provides, hrun]
  exact ⟨hscope, h⟩

theorem of_ok (h : Provides act state good) (hok : act state = .ok value after) :
    good value after := by
  rw [Provides, hok] at h
  exact h.2

theorem of_error {cause : CompileError} (h : Provides act state good)
    (herror : act state = .error cause after) :
    state.SameScope after ∧ cause.reportsLive = false := by
  rwa [Provides, herror] at h

protected theorem pure (h : good value state) : Provides (pure value) state good :=
  of_run rfl (fun _ => rfl) h

protected theorem throw {cause : CompileError} (h : cause.reportsLive = false) :
    Provides (throw cause) state good :=
  ⟨fun _ => rfl, h⟩

protected theorem bind {middle : α → StagingState → Prop} {good : β → StagingState → Prop}
    (h : Provides act state middle)
    (hnext : ∀ value after, middle value after → Provides (next value) after good) :
    Provides (act >>= next) state good := by
  unfold Provides at h
  cases hact : act state with
  | ok value after =>
    rw [hact] at h
    have hrest := hnext value after h.2
    unfold Provides at hrest ⊢
    rw [bind_of_ok hact]
    cases hresult : next value after with
    | ok result final =>
      rw [hresult] at hrest
      exact ⟨h.1.trans hrest.1, hrest.2⟩
    | error cause final =>
      rw [hresult] at hrest
      exact ⟨h.1.trans hrest.1, hrest.2⟩
  | error cause after =>
    rw [hact] at h
    unfold Provides
    rw [bind_of_error hact]
    exact h

theorem mono {better : α → StagingState → Prop} (h : Provides act state better)
    (himp : ∀ value after, better value after → good value after) : Provides act state good := by
  unfold Provides at h ⊢
  cases hact : act state with
  | ok value after =>
    rw [hact] at h
    exact ⟨h.1, himp value after h.2⟩
  | error cause after =>
    rw [hact] at h
    exact h

/-- The state is changed at the end, on success and failure, to one with the scope of the start. -/
protected theorem ensuring {outer : Staging α} {start : StagingState}
    {change : StagingState → StagingState} (h : Provides act state good)
    (hrun : outer start = ensuring act change state)
    (hscope : ∀ inner, state.SameScope inner → start.SameScope (change inner)) :
    Provides outer start fun value final => ∃ inner, good value inner ∧ final = change inner := by
  unfold Provides at h ⊢
  rw [hrun, IsaBackend.ensuring]
  cases hact : act state with
  | ok value inner =>
    rw [hact] at h
    exact ⟨hscope inner h.1, inner, h.2, rfl⟩
  | error cause inner =>
    rw [hact] at h
    exact ⟨hscope inner h.1, h.2⟩

protected theorem get : Provides get state fun value after => state = value ∧ state = after :=
  of_run rfl (fun _ => rfl) ⟨rfl, rfl⟩

protected theorem lift {result : Except CompileError α}
    (h : ∀ cause, result = .error cause → cause.reportsLive = false) :
    Provides (lift result) state fun value after => result = .ok value ∧ state = after := by
  cases result with
  | ok value => exact of_run rfl (fun _ => rfl) ⟨rfl, rfl⟩
  | error cause => exact ⟨fun _ => rfl, h cause rfl⟩

end Provides

variable {plan : Plan} {naming : Naming} {before : StagingState}

theorem settle_ok {entries rest : List (String × Rep)} (hlive : state.live = entries ++ rest) :
    settle (releases entries) state = .ok () (state.withLive rest) := by
  have hstrike : ∀ entries : List (String × Rep),
      (releases entries).foldl strike (entries ++ rest) = rest := by
    intro entries
    induction entries with
    | nil => rfl
    | cons entry entries ih =>
      change (releases entries).foldl strike
        (List.eraseP (fun other => other.1 = entry.1) (entry :: (entries ++ rest))) = rest
      rw [List.eraseP_cons_of_pos (by simp), ih]
  refine congrArg (EStateM.Result.ok ()) ?_
  change { state with live := (releases entries).foldl strike state.live } = _
  rw [hlive, hstrike]
  rfl

theorem settle_piece {needs : Access → Prop} {setup cleanup : List Instr}
    (h : Piece plan needs before state setup cleanup) :
    Provides (settle cleanup) state fun _ after => after = state.withLive before.live := by
  obtain ⟨entries, hlive, rfl, _⟩ := h.storage
  exact .of_run (settle_ok hlive) (fun _ => rfl) rfl

/-- A name that was not taken, and is from now on. -/
structure Claims (naming : Naming) (before after : StagingState) (name : String) : Prop where
  leads : before.Leads after
  live : after.live = before.live
  unclaimed : before.Unclaimed name
  new : before.Ready naming → ¬before.Taken naming name ∧ after.Taken naming name

theorem Claims.ready {name : String} (h : Claims naming before state name)
    (hready : before.Ready naming) : state.Ready naming where
  below := hready.below
  base_le := Nat.le_trans hready.base_le h.leads.next
  taken := by
    intro other ho
    rw [stack, h.live] at ho
    exact (hready.taken other ho).mono h.leads

theorem fresh_provides (naming : Naming) (state : StagingState) :
    Provides fresh state fun name after => Claims naming state after name := by
  refine .of_run rfl (fun _ => rfl) ⟨⟨Nat.le_succ _, fun _ h => h, fun _ => rfl⟩, rfl,
    .inr ⟨_, Nat.le_refl _, rfl⟩, fun hready => ⟨?_, ?_⟩⟩
  · exact hready.not_taken_next
  · exact .inl ⟨state.names.next, hready.base_le, Nat.lt_succ_self _, rfl⟩

theorem claim_provides {name : String} (h : Claims naming before state name) :
    Provides (claim name) state fun _ after => Claims naming before after name := by
  have hleads : state.Leads { state with declared := state.declared.insert name } :=
    ⟨Nat.le_refl _, fun _ hn => List.mem_insert_iff.mpr (.inr hn), fun _ => rfl⟩
  exact .of_run rfl (fun _ => rfl) ⟨h.leads.trans hleads, h.live, h.unclaimed, fun hready =>
    ⟨(h.new hready).1, (h.new hready).2.mono hleads⟩⟩

theorem localName_provides (state : StagingState) {name : String} (hbound : name ∈ naming.bound) :
    Provides (localName name) state fun codeName after => Claims naming state after codeName := by
  refine Provides.get.bind ?_
  rintro _ _ ⟨rfl, rfl⟩
  split
  · refine (fresh_provides naming state).bind fun other after hother => ?_
    exact (claim_provides hother).bind fun _ after hafter => .pure hafter
  · rename_i hdeclared
    have hnot : name ∉ state.declared := by simpa using hdeclared
    have hclaim : Provides (claim name) state fun _ after => Claims naming state after name := by
      refine .of_run rfl (fun _ => rfl)
        ⟨⟨Nat.le_refl _, ?_, fun _ => rfl⟩, rfl, .inl hnot, fun hready => ⟨?_, ?_⟩⟩
      · exact fun _ hn => List.mem_insert_iff.mpr (.inr hn)
      · rintro (⟨number, hbase, _, hname⟩ | ⟨hmem, _⟩)
        · exact absurd (hready.below name hbound number hname) (by omega)
        · exact hnot hmem
      · exact .inr ⟨List.mem_insert_iff.mpr (.inl rfl), hbound⟩
    exact hclaim.bind fun _ after hafter => .pure hafter

/-- The declaration of a local, with storage if it needs any. -/
structure Declares (plan : Plan) (needs : Access → Prop) (before after : StagingState)
    (name : String) (rep : Rep) (decl : Instr) : Prop where
  piece : Piece plan needs before after [decl] (Instr.releaseOf name rep)
  usable : ∀ acc : Access, acc.Covers decl.introduced → (acc.after [decl]).MayUse after.stack name
  plain : rep.isStack = true → decl = .decl rep name

theorem Claims.declares {needs : Access → Prop} {name : String}
    (h : Claims plan before state name) {rep : Rep} (hstack : rep.isStack = true) :
    Declares plan needs before state name rep (.decl rep name) where
  piece := by
    refine ⟨h.leads, h.ready, fun hready => ?_, ?_, ?_, fun _ => ⟨.decl hstack, trivial⟩, [],
      h.live, ?_, nofun⟩
    · refine ⟨List.nodup_cons.mpr ⟨List.not_mem_nil, List.nodup_nil⟩, fun entry he => ?_⟩
      rw [List.mem_singleton.mp he]
      exact h.new hready
    · exact fun entry he => List.mem_singleton.mp he ▸ h.unclaimed
    · intro acc _ hcov _ entry post hpost
      rw [stack, h.live] at hpost
      exact Access.accepts_decl hcov hpost
    · simp [Instr.releaseOf, hstack, releases]
  usable := fun _ hcov => Access.keeps_declared rep (List.mem_singleton_self _) hcov _
  plain := fun _ => rfl

theorem Declares.balanced {needs : Access → Prop} {name : String} {rep : Rep} {decl : Instr}
    (h : Declares plan needs before state name rep decl) (hstack : rep.isStack = true) :
    Piece plan needs before state [decl] [] := by
  have hrelease : Instr.releaseOf name rep = [] := by simp [Instr.releaseOf, hstack]
  exact hrelease ▸ h.piece

/-- Storage that comes to life, whichever instruction brings it there. -/
theorem Claims.allocates {needs : Access → Prop} {name : String}
    (h : Claims plan before state name) {rep : Rep} (hheap : rep.isStack = false) {instr : Instr}
    (hnames : instr.introduced = [(name, true)]) (hexposed : instr.exposed = [name])
    (hemitted : instr.Everywhere (Instr.Emitted plan.around plan.sites))
    (haccepts : ∀ acc, needs acc → acc.Covers [(name, true)] →
      acc.IfLifetime (name ∉ before.stack) → ∀ entry post, post (name :: before.stack) →
        acc.Accepts entry before.stack [instr] post) :
    Declares plan needs before (state.withLive ((name, rep) :: state.live)) name rep instr := by
  have hmem : name ∈ Instr.exposedAll [instr] := by simp [hexposed]
  have hstack : (state.withLive ((name, rep) :: state.live)).stack = name :: before.stack := by
    simp [stack, withLive, h.live]
  have hlive : name ∈ (state.withLive ((name, rep) :: state.live)).stack :=
    hstack ▸ List.mem_cons_self
  refine ⟨⟨h.leads.trans (state.leads_withLive _), fun hready => ?_, fun hready => ?_, ?_, ?_,
    fun _ => ⟨hemitted, trivial⟩, [(name, rep)], ?_, ?_, ?_⟩, fun acc _ => ?_, fun hstack => ?_⟩
  · refine (h.ready hready).withLive
      (List.forall_mem_cons.mpr ⟨(h.new hready).2, fun entry he => ?_⟩)
    exact (h.ready hready).taken entry.1 (List.mem_map.mpr ⟨entry, he, rfl⟩)
  · rw [Instr.introducedAll_singleton, hnames]
    refine ⟨by simp, fun entry he => ?_⟩
    rw [List.mem_singleton.mp he]
    exact ⟨(h.new hready).1, (h.new hready).2.mono (state.leads_withLive _)⟩
  · rw [Instr.introducedAll_singleton, hnames]
    exact fun entry he => List.mem_singleton.mp he ▸ h.unclaimed
  · intro acc hready hcov hneeds entry post hpost
    rw [Instr.introducedAll_singleton, hnames] at hcov
    rw [hstack] at hpost
    exact haccepts acc hneeds hcov (hready.imp fun hready hm =>
      (h.new hready).1 (hready.taken name hm)) entry post hpost
  · simp [withLive, h.live]
  · simp [Instr.releaseOf, hheap, releases]
  · exact List.forall_mem_singleton.mpr ⟨hmem, hheap⟩
  · exact ⟨Access.mayRead_exposed hmem hlive, Access.mayWrite_exposed hmem hlive⟩
  · exact absurd hstack (by simp [hheap])

private theorem pushLive_provides (name : String) (rep : Rep) :
    Provides (pushLive name rep) state fun _ after =>
      after = state.withLive ((name, rep) :: state.live) :=
  .of_run rfl (fun _ => rfl) rfl

theorem declare_provides {name : String} (h : Claims plan before state name) (rep : Rep) :
    Provides (declare name rep) state fun decl after =>
      Declares plan (fun _ => True) before after name rep decl := by
  unfold declare
  split
  · exact .pure (h.declares ‹_›)
  · rename_i hheap
    have hheap : rep.isStack = false := by simpa using hheap
    refine (pushLive_provides name rep).bind ?_
    rintro _ _ rfl
    exact .pure (h.allocates hheap rfl rfl (.alloc hheap)
      fun _ _ hcov hnew _ _ => Access.accepts_alloc hcov hnew)

theorem temp_provides (plan : Plan) (state : StagingState) (rep : Rep) :
    Provides (temp rep) state fun (name, decl) after =>
      Declares plan (fun _ => True) state after name rep decl := by
  refine (fresh_provides plan state).bind fun name claimed hname => ?_
  refine (claim_provides hname).bind fun _ claimed hname => ?_
  exact (declare_provides hname rep).bind fun decl after hdecl => .pure hdecl

theorem tempFrom_provides (plan : Plan) (state : StagingState) {rep : Rep}
    (hheap : rep.isStack = false) {value : Operand}
    (hinit : ∀ name, Instr.Emitted plan.around plan.sites (.init rep name value)) :
    Provides (tempFrom rep value) state fun (name, init) after =>
      Declares plan (fun acc => acc.Reads state.stack value) state after name rep init := by
  refine (fresh_provides plan state).bind fun name claimed hname => ?_
  refine (claim_provides hname).bind fun _ claimed hname => ?_
  refine (pushLive_provides name rep).bind ?_
  rintro _ _ rfl
  exact .pure (hname.allocates hheap rfl rfl (hinit name)
    fun _ hreads hcov hnew _ _ => Access.accepts_init hreads hcov hnew)

end Staging

namespace StagingState

def enter (state : StagingState) (name : String) (entry : Local) : StagingState :=
  { state with locals := state.locals.set name entry }

def exit (state : StagingState) (name : String) (previous : Option Local) : StagingState :=
  { state with locals := state.locals.put name previous }

private theorem SameScope.exit {before inner : StagingState} {name : String} {entry : Local}
    (h : (before.enter name entry).SameScope inner) :
    before.SameScope (inner.exit name (before.locals.get? name)) := by
  intro other
  change (inner.locals.put name _).get? other = _
  rw [NameTable.get?_put, h other]
  change (if other = name then _ else (before.locals.set name entry).get? other) = _
  rw [NameTable.get?_set]
  by_cases ho : other = name
  · simp [ho]
  · simp [ho]

theorem Leads.exit {before inner : StagingState} {name : String} {entry : Local}
    (h : (before.enter name entry).Leads inner) :
    before.Leads (inner.exit name (before.locals.get? name)) :=
  ⟨h.next, h.declared, SameScope.exit h.locals⟩

private theorem codeName_enter_self (state : StagingState) (name : String) (entry : Local) :
    (state.enter name entry).codeName (.source name) = entry.name := by
  simp [codeName, StagingState.enter]

private theorem codeName_enter {state : StagingState} {name : String} (entry : Local)
    {use : Mention}
    (hne : use ≠ .source name) : (state.enter name entry).codeName use = state.codeName use := by
  cases use with
  | source other =>
    have hother : other ≠ name := fun heq => hne (heq ▸ rfl)
    simp [codeName, StagingState.enter, hother]
  | verbatim other => rfl

/-- A name that enters the scope is used under its name in the code, and the others as before. -/
theorem Allows.enter {acc : Access} {state : StagingState} {usage : Usage} {name : String}
    {entry : Local} (h : state.Allows acc (usage.hide name))
    (hentry : acc.MayUse state.stack entry.name) :
    (state.enter name entry).Allows acc usage := by
  refine ⟨?_, h.live, h.result⟩
  have huses := h.uses
  -- What holds of the codes of hidden uses and of the new local holds of all.
  have hall : ∀ {good : String → Prop} {uses : List Mention}, good entry.name →
      (∀ use ∈ uses.filter (· ≠ .source name), good (state.codeName use)) →
      ∀ use ∈ uses, good ((state.enter name entry).codeName use) := by
    intro good uses hself hrest use hu
    by_cases hname : use = .source name
    · rw [hname, codeName_enter_self]
      exact hself
    · rw [codeName_enter entry hname]
      exact hrest use (List.mem_filter.mpr ⟨hu, decide_eq_true hname⟩)
  cases acc with
  | lifetime disc => exact hall hentry.1 huses
  | scope rights =>
    refine ⟨hall hentry.1 huses.1, fun target ht => ?_⟩
    by_cases hname : target = name
    · rw [hname, codeName_enter_self]
      exact hentry.2
    · rw [codeName_enter entry fun heq => hname (Mention.source.inj heq)]
      exact huses.2 target (List.mem_filter.mpr ⟨ht, decide_eq_true hname⟩)

end StagingState

theorem Piece.exit {plan : Plan} {needs : Access → Prop} {before inner : StagingState}
    {name : String} {entry : Local} {setup cleanup : List Instr}
    (h : Piece plan needs (before.enter name entry) inner setup cleanup) :
    Piece plan needs before (inner.exit name (before.locals.get? name)) setup cleanup := by
  have hentered : before.Ready plan → (before.enter name entry).Ready plan :=
    fun hready => ⟨hready.below, hready.base_le, hready.taken⟩
  refine ⟨h.leads.exit, fun hready => ?_, fun hready => h.introduces (hentered hready), h.news,
    fun acc hready => h.accepts acc (hready.imp hentered), h.emitted, h.storage⟩
  have hinner := h.ready (hentered hready)
  exact ⟨hinner.below, hinner.base_le, hinner.taken⟩

theorem Staging.within_provides {α : Type} {act : Staging α} {state : StagingState} {name : String}
    {entry : Local} {good : α → StagingState → Prop}
    (h : Provides act (state.enter name entry) good) :
    Provides (within name entry act) state fun value after =>
      ∃ inner, good value inner ∧ after = inner.exit name (state.locals.get? name) :=
  h.ensuring rfl fun _ hscope => hscope.exit

end IsaBackend
