import IsaBackend.Proofs.Staging.Terms

/-!
# The code of a function

A function is staged from an empty stack to an empty stack. Its code introduces every name once,
keeps to the lifetime discipline and to the scopes of names on every path, and always returns.
Everything in it, at any nesting, is an instruction that staging emits, and every application of its
body becomes a call that suits the callee. Staging never finds storage that is left over at the end.
-/

namespace IsaBackend

open StagingState

/-- The state in which the body of a function is staged. -/
def StagingState.ofFunction (names : FreshNames) (params : List (String × Rep)) (result : Rep) :
    StagingState where
  names := names
  locals := params.foldl (fun locals (name, rep) => locals.set name ⟨name, rep⟩) ∅
  declared := params.foldl (fun declared (name, _) => declared.insert name) [Routine.resultParam]
  result := some result

namespace StagingState

theorem codeName_ofFunction (names : FreshNames) (params : List (String × Rep)) (result : Rep)
    (use : Mention) : (ofFunction names params result).codeName use = use.name := by
  have hown : ∀ (params : List (String × Rep)) (locals : NameTable Local),
      (∀ name entry, locals.get? name = some entry → entry.name = name) →
      ∀ name entry, (params.foldl (fun locals (name, rep) => locals.set name ⟨name, rep⟩)
        locals).get? name = some entry → entry.name = name := by
    intro params
    induction params with
    | nil => exact fun _ h => h
    | cons param params ih =>
      intro locals h
      refine ih _ fun name entry hentry => ?_
      rw [NameTable.get?_set] at hentry
      split at hentry
      · rename_i hname
        cases hentry
        exact hname.symm
      · exact h name entry hentry
  cases use with
  | verbatim name => rfl
  | source name =>
    simp only [codeName, Mention.name]
    split
    · rename_i entry hentry
      exact hown params ∅ (fun _ _ h => by cases h) name entry hentry
    · rfl

theorem declared_ofFunction (names : FreshNames) (params : List (String × Rep)) (result : Rep)
    {name : String} (h : name ∈ Routine.resultParam :: params.map Prod.fst) :
    name ∈ (ofFunction names params result).declared := by
  have hkept : ∀ (params : List (String × Rep)) (declared : List String),
      (name ∈ declared ∨ name ∈ params.map Prod.fst) →
      name ∈ params.foldl (fun declared (name, _) => declared.insert name) declared := by
    intro params
    induction params with
    | nil => simp
    | cons param params ih =>
      intro declared h
      refine ih _ ?_
      rw [List.map_cons, List.mem_cons] at h
      rcases h with h | rfl | h
      · exact .inl (List.mem_insert_iff.mpr (.inr h))
      · exact .inl (List.mem_insert_iff.mpr (.inl rfl))
      · exact .inr h
  refine hkept params _ ?_
  rcases List.mem_cons.mp h with rfl | h
  · exact .inl List.mem_cons_self
  · exact .inr h

private theorem ready_ofFunction {names : FreshNames} {bound : List String}
    (hbound : ∀ name ∈ bound, ∀ number, name = FreshNames.name number → number < names.next)
    (params : List (String × Rep)) (result : Rep) :
    (ofFunction names params result).Ready ⟨names.next, bound⟩ where
  below := hbound
  base_le := Nat.le_refl _
  taken := fun _ h => by cases h

end StagingState

/-- The code of a function whose names are generated from a number on or bound by its body. -/
structure Routine.Stages (routine : Routine) (base : Nat) (body : Term) : Prop where
  /-- Every name is introduced once. -/
  distinct : ((Instr.introducedAll routine.body).map Prod.fst).Nodup
  /-- It is a generated name, or one that the body binds and that is no parameter. -/
  origin : ∀ entry ∈ Instr.introducedAll routine.body,
    (∃ number, base ≤ number ∧ entry.1 = FreshNames.name number) ∨
    entry.1 ∈ body.bound ∧ entry.1 ∉ Routine.resultParam :: routine.params.map Prod.fst
  /-- The code is accepted where the body may use its names, and returns on every path. -/
  accepts : ∀ acc : Access, acc.Covers (Instr.introducedAll routine.body) →
    ({} : StagingState).Allows acc body.usage → acc.Accepts none [] routine.body fun _ => False

theorem Routine.Stages.tidy {routine : Routine} {base : Nat} {body : Term}
    (h : routine.Stages base body) (disc : Discipline)
    (hcov : disc.Covers (Instr.introducedAll routine.body))
    (huses : ∀ use ∈ body.uses, disc.Usable [] use.name) :
    Instr.TidyAll disc none [] routine.body fun _ => False := by
  refine h.accepts (.lifetime disc) hcov ⟨fun use hu => ?_, nofun, ?_⟩
  · cases use with
    | source name => exact huses _ (List.mem_cons_of_mem _ hu)
    | verbatim name => exact huses _ (List.mem_cons_of_mem _ hu)
  · exact huses (.verbatim Routine.resultParam) List.mem_cons_self

section Bodies

variable {around : Surroundings} {names : FreshNames} {params : List (String × Rep)} {result : Rep}
  {body : Term} {middle : StagingState} {staged : Staged}

/-- The parameters keep their names in the code. -/
private theorem allows_ofFunction {acc : Access} {usage : Usage}
    (h : ({} : StagingState).Allows acc usage) :
    (ofFunction names params result).Allows acc usage := by
  have hname : ∀ use : Mention,
      (ofFunction names params result).codeName use = ({} : StagingState).codeName use := by
    intro use
    rw [codeName_ofFunction]
    cases use <;> rfl
  refine ⟨?_, nofun, h.result⟩
  have huses := h.uses
  cases acc with
  | lifetime disc => exact fun use hu => hname use ▸ huses use hu
  | scope rights =>
    exact ⟨fun use hu => hname use ▸ huses.1 use hu, fun target ht => hname _ ▸ huses.2 target ht⟩

private theorem origin_of_introduces {after : StagingState} {entries : List (String × Bool)}
    (h : Introduces ⟨names.next, body.bound⟩ (ofFunction names params result) after entries) :
    ∀ entry ∈ entries, (∃ number, names.next ≤ number ∧ entry.1 = FreshNames.name number) ∨
      entry.1 ∈ body.bound ∧ entry.1 ∉ Routine.resultParam :: params.map Prod.fst := by
  intro entry he
  obtain ⟨hnew, htaken⟩ := h.2 entry he
  rcases htaken with ⟨number, hbase, _, hname⟩ | ⟨_, hbound⟩
  · exact .inl ⟨number, hbase, hname⟩
  · exact .inr ⟨hbound, fun hparam =>
      hnew (.inr ⟨declared_ofFunction names params result hparam, hbound⟩)⟩

private theorem liveOnHeap_ofFunction : (ofFunction names params result).LiveOnHeap :=
  fun _ hnil => absurd hnil List.not_mem_nil

variable (hstaged : IsaBackend.Stages (body.plan around names.next)
    (fun acc => (ofFunction names params result).Allows acc body.usage) body.applications
    (ofFunction names params result) middle staged) (hrep : staged.rep = result)

include hstaged hrep

private theorem emits_byReference :
    Instr.EmittedAll around body.sites
      (staged.into (.deref Routine.resultParam result) ++ [.ret .unit]) ∧
    Instr.Makes around body.applications
      (staged.into (.deref Routine.resultParam result) ++ [.ret .unit]) := by
  obtain ⟨hinto, hmakes⟩ := hstaged.into (.deref Routine.resultParam result) hrep.symm
  refine ⟨Instr.emittedAll_append.mpr ⟨hinto.emitted liveOnHeap_ofFunction, .ret, trivial⟩,
    hmakes.mono ?_⟩
  simp

private theorem emits_byValue (hstack : result.isStack = true) (slot : String) :
    Instr.EmittedAll around body.sites
      (.decl result slot :: staged.into (.name slot result) ++ [.ret (.name slot result)]) ∧
    Instr.Makes around body.applications
      (.decl result slot :: staged.into (.name slot result) ++ [.ret (.name slot result)]) := by
  obtain ⟨hinto, hmakes⟩ := hstaged.into (.name slot result) hrep.symm
  refine ⟨Instr.emittedAll_append.mpr
    ⟨⟨.decl hstack, hinto.emitted liveOnHeap_ofFunction⟩, .ret, trivial⟩, hmakes.mono ?_⟩
  simp [Instr.callsAll]

variable (hbound : ∀ name ∈ body.bound, ∀ number, name = FreshNames.name number →
    number < names.next)

include hbound

private theorem stages_byReference (name : String) :
    Routine.Stages ⟨name, params, result,
      staged.into (.deref Routine.resultParam result) ++ [.ret .unit]⟩ names.next body := by
  have hready := ready_ofFunction hbound params result
  have hinto := (hstaged.into (.deref Routine.resultParam result) hrep.symm).1
  have hnames : Instr.introducedAll
      (staged.into (.deref Routine.resultParam result) ++ [.ret .unit]) =
      Instr.introducedAll (staged.into (.deref Routine.resultParam result)) := by
    rw [Instr.introducedAll_append]
    exact List.append_nil _
  refine ⟨?_, ?_, ?_⟩
  · rw [hnames]
    exact (hinto.introduces hready).1
  · rw [hnames]
    exact origin_of_introduces (hinto.introduces hready)
  · intro acc hcov hallows
    rw [hnames] at hcov
    exact .append (hinto.accepts acc (Access.ifLifetime hready) hcov
      ⟨allows_ofFunction hallows, hallows.result⟩ none)
      (Access.accepts_ret (Access.reads_constant rfl rfl _))

private theorem stages_byValue (name : String) :
    Routine.Stages ⟨name, params, result,
      .decl result (FreshNames.name middle.names.next) ::
        staged.into (.name (FreshNames.name middle.names.next) result) ++
        [.ret (.name (FreshNames.name middle.names.next) result)]⟩ names.next body := by
  have hready := ready_ofFunction hbound params result
  have hinto := (hstaged.into (.name (FreshNames.name middle.names.next) result) hrep.symm).1
  have hmiddle := hinto.ready hready
  have hnames : Instr.introducedAll (.decl result (FreshNames.name middle.names.next) ::
        staged.into (.name (FreshNames.name middle.names.next) result) ++
        [.ret (.name (FreshNames.name middle.names.next) result)]) =
      (FreshNames.name middle.names.next, false) :: Instr.introducedAll
        (staged.into (.name (FreshNames.name middle.names.next) result)) := by
    rw [Instr.introducedAll_append, Instr.introducedAll]
    exact List.append_nil _
  refine ⟨?_, ?_, ?_⟩
  · rw [hnames, List.map_cons, List.nodup_cons]
    refine ⟨fun hm => ?_, (hinto.introduces hready).1⟩
    obtain ⟨entry, he, hname⟩ := List.mem_map.mp hm
    have htaken := ((hinto.introduces hready).2 entry he).2
    rw [hname] at htaken
    exact hmiddle.not_taken_next htaken
  · rw [hnames]
    intro entry he
    rcases List.mem_cons.mp he with rfl | he
    · exact .inl ⟨middle.names.next, hmiddle.base_le, rfl⟩
    · exact origin_of_introduces (hinto.introduces hready) entry he
  · intro acc hcov hallows
    rw [hnames, ← List.singleton_append, Access.covers_append] at hcov
    have hslot := Access.keeps_declared result (List.mem_singleton_self _) hcov.1
    change acc.Accepts none [] ([_] ++ (_ ++ [_])) _
    refine .append (fun _ hnext => Access.accepts_decl hcov.1 hnext) (.append
      (hinto.accepts _ (Access.ifLifetime hready) ((Access.covers_after _).mpr hcov.2)
        ⟨(allows_ofFunction hallows).later (acc.le_after _), (hslot _).2⟩ none)
      (Access.accepts_ret (Access.reads_name ?_ _)))
    exact (hslot.mono (Access.le_after _ _) _).1

end Bodies

namespace Staging

/-- Closing a computation that has allocated everything that is live leaves nothing live. -/
theorem close_last {staged : Staged} {entries : List (String × Rep)}
    {state : StagingState} (hlive : state.live = entries ++ [])
    (hcleanup : staged.cleanup = releases entries) (dest : Place) :
    Provides (close staged dest) state fun code after =>
      code = staged.into dest ∧ after.live = [] := by
  unfold close
  rw [hcleanup]
  exact .of_run (bind_of_ok (settle_ok hlive)) (fun _ => rfl) ⟨rfl, rfl⟩

/-- A computation may enter another scope first. -/
private theorem yields_of_enter {α β : Type} {act : Staging α} {next : α → Staging β}
    {state entered : StagingState} {value : α} {good : β → StagingState → Prop}
    (henter : act state = .ok value entered) (h : Provides (next value) entered good) :
    Yields (act >>= next) state good := by
  unfold Yields
  rw [bind_of_ok henter]
  cases hrun : next value entered with
  | ok result final => exact h.of_ok hrun
  | error cause final => exact (h.of_error hrun).2

/-- Staging a function gives code that staging emits and that keeps to the lifetime discipline, or
fails for another reason than storage that is never released. -/
theorem stageFunction_yields_emitted (around : Surroundings) (name : String)
    (params : List (String × Rep)) (result : Rep) (body : Term) (state : StagingState) :
    Yields (stageFunction around name params result body) state fun routine _ =>
      (routine.params = params ∧
        ((∀ name ∈ body.bound, ∀ number, name = FreshNames.name number →
          number < state.names.next) → routine.Stages state.names.next body)) ∧
      Instr.EmittedAll around body.sites routine.body ∧
      Instr.Makes around body.applications routine.body := by
  have henter : enterFunction params result state =
      .ok () (ofFunction state.names params result) := rfl
  refine yields_of_enter henter ?_
  have hstage := stagesAs_plan around state.names.next body
    (some (result, "result of " ++ name)) (ofFunction state.names params result)
  refine Provides.bind (hstage.ensuring rfl fun _ hscope => hscope) ?_
  rintro staged _ ⟨middle, ⟨hrep, hstaged⟩, rfl⟩
  have hrep : staged.rep = result := hrep _ _ rfl
  obtain ⟨entries, hlive, hcleanup⟩ := hstaged.storage
  have hended : ({ middle with result := none } : StagingState).live = entries ++ [] := hlive
  simp only [pure_bind]
  split
  · rename_i hstack
    have hfresh : Provides fresh { middle with result := none } fun slot after =>
        slot = FreshNames.name middle.names.next ∧ after.live = entries ++ [] :=
      .of_run rfl (fun _ => rfl) ⟨rfl, hended⟩
    refine hfresh.bind ?_
    rintro _ after ⟨rfl, hafter⟩
    refine (close_last hafter hcleanup _).bind ?_
    rintro _ final ⟨rfl, hfinal⟩
    refine Provides.get.bind ?_
    rintro _ _ ⟨rfl, rfl⟩
    rw [hfinal]
    exact .pure ⟨⟨rfl, fun hbound => stages_byValue hstaged hrep hbound name⟩,
      emits_byValue hstaged hrep hstack _⟩
  · refine (close_last hended hcleanup _).bind ?_
    rintro _ final ⟨rfl, hfinal⟩
    refine Provides.get.bind ?_
    rintro _ _ ⟨rfl, rfl⟩
    rw [hfinal]
    exact .pure ⟨⟨rfl, fun hbound => stages_byReference hstaged hrep hbound name⟩,
      emits_byReference hstaged hrep⟩

theorem stageFunction_yields (around : Surroundings) (name : String)
    (params : List (String × Rep)) (result : Rep) (body : Term) (state : StagingState) :
    Yields (stageFunction around name params result body) state fun routine _ =>
      routine.params = params ∧
      ((∀ name ∈ body.bound, ∀ number, name = FreshNames.name number →
        number < state.names.next) → routine.Stages state.names.next body) := by
  have hyields := stageFunction_yields_emitted around name params result body state
  unfold Yields at hyields ⊢
  cases hrun : stageFunction around name params result body state with
  | ok routine final =>
    rw [hrun] at hyields
    exact hyields.1
  | error cause final =>
    rw [hrun] at hyields
    exact hyields

end Staging

end IsaBackend
