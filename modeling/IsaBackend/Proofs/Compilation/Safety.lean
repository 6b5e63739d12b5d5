import IsaBackend.Compilation
import IsaBackend.Proofs.Lifetime.Compliance
import IsaBackend.Proofs.Machine.Safety
import IsaBackend.Proofs.Term.Flattening
import IsaBackend.Proofs.Term.Fusing

/-!
# Compiled programs keep to the lifetime discipline

A machine with a compiled program never reports a breach of the lifetime discipline, whatever it
is asked to do, with or without the lifetime check. All that is asked of the source is that no
function hides a global that it uses, and that its names could not have been generated.
-/

namespace IsaBackend

namespace Function

/-- The names that a function binds: its parameters, and what its body binds. -/
def binders (function : Function) : List String := function.params ++ function.body.bound

/-- The names that a function uses as globals. -/
def globals (function : Function) : List String :=
  function.body.free.filter (· ∉ function.params)

/-- No name that a function binds is a global that it uses, and no name has the character that
marks generated ones. -/
def Hygienic (function : Function) : Prop :=
  (∀ name ∈ function.binders, name ∉ function.globals) ∧
    ∀ name ∈ function.binders ++ function.body.free, '#' ∉ name.toList

instance (function : Function) : Decidable function.Hygienic :=
  inferInstanceAs (Decidable (_ ∧ _))

end Function

/-- Staged code that uses nothing it allocates by a source name runs without a breach of the
discipline. -/
theorem Routine.Stages.sound {routine : Routine} {base : Nat} {body : Term}
    (h : routine.Stages base body)
    (huses : ∀ use ∈ body.uses, (routine.discipline True).Usable [] use.name) :
    routine.Sound (·.isLifetime = false) (routine.discipline True) fun _ => False where
  admitted := by
    rintro cause (hcalm | ⟨hwatch, _⟩)
    · exact hcalm
    · exact absurd trivial hwatch
  tidy := h.tidy _ (h.separates.covers True) huses
  result := huses _ List.mem_cons_self
  missing := fun _ hfalse => hfalse.elim

namespace Function

variable {options : CompileOptions} {around : Surroundings} {function : Function}
  {names final : FreshNames} {routine : Routine}

theorem partReps_names {pos : Position} {parts : List (String × Ty)}
    {reps : List (String × Rep)} (h : partReps around pos parts = .ok reps) :
    reps.map Prod.fst = parts.map Prod.fst := by
  induction parts generalizing reps with
  | nil =>
    cases h
    rfl
  | cons part rest ih =>
    obtain ⟨rep, _, h⟩ := except_bind_eq_ok.mp h
    obtain ⟨more, hmore, h⟩ := except_bind_eq_ok.mp h
    cases h
    simp only [List.map_cons, ih hmore]

private theorem flatten_eq_ok {interface : Interface} {params : List (String × Ty)} {body : Expr}
    {term : Term} (h : flatten interface params body names = .ok term final) :
    ∃ (scope : Scope) (flat : FlatState),
      Term.ofExpr interface body { scope, names } = .ok term flat ∧ final = flat.names := by
  simp only [flatten] at h
  split at h
  · rename_i flat hflat
    cases h
    exact ⟨_, flat, hflat, rfl⟩
  · cases h

theorem emit_eq_ok {name : String} {params : List (String × Rep)} {result : Rep}
    {body : Term} (h : emit around name params result body names = .ok routine final) :
    ∃ last : StagingState, Staging.stageFunction around name params result body { names } =
      .ok routine last ∧ final = last.names := by
  unfold emit at h
  split at h
  · rename_i last hstage
    cases h
    exact ⟨last, hstage, rfl⟩
  · cases h

/-- What a compiled function went through: its body was flattened and perhaps fused, and the
result staged with the names that were left. -/
theorem compile_eq_ok (h : function.compile options around names = .ok routine final) :
    ∃ (params : List (String × Rep)) (result : Rep) (term staged : Term) (scope : Scope)
      (flat : FlatState) (last : StagingState),
      params.map Prod.fst = function.params ∧
      Term.ofExpr around.interface function.body { scope, names } = .ok term flat ∧
      (staged = term.fuse around ∨ staged = term) ∧
      Staging.stageFunction around function.name params result staged { names := flat.names } =
        .ok routine last := by
  cases hsignature : around.interface.signature function.name with
  | none =>
    simp only [compile, hsignature] at h
    cases h
  | some signature =>
    simp only [compile, hsignature] at h
    split at h
    · cases h
    · rename_i hlength
      obtain ⟨params, hparams, h⟩ := lift_bind_eq_ok.mp h
      obtain ⟨result, _, h⟩ := lift_bind_eq_ok.mp h
      obtain ⟨term, middle, hterm, h⟩ := bind_eq_ok.mp h
      obtain ⟨emitted, after, hemit, h⟩ := bind_eq_ok.mp h
      obtain ⟨scope, flat, hflat, rfl⟩ := flatten_eq_ok hterm
      obtain ⟨last, hstage, rfl⟩ := emit_eq_ok hemit
      have hzip : (function.params.zip signature.params).map Prod.fst = function.params :=
        List.map_fst_zip (by omega)
      have hsame : emitted = routine := by
        split at h
        · cases hcheck : emitted.checkLifetimes with
          | error cause =>
            simp only [hcheck] at h
            cases h
          | ok _ =>
            simp only [hcheck] at h
            cases h
            rfl
        · cases h
          rfl
      subst hsame
      refine ⟨params, result, term, _, scope, flat, last, (partReps_names hparams).trans hzip,
        hflat, ?_, hstage⟩
      split
      · exact .inl rfl
      · exact .inr rfl

private theorem Hygienic.stages (hygienic : function.Hygienic) {params : List (String × Rep)}
    {result : Rep} {term staged : Term} {start flat : FlatState} {last : StagingState}
    (hparams : params.map Prod.fst = function.params)
    (hflat : Term.ofExpr around.interface function.body start = .ok term flat)
    (hstaged : staged = term.fuse around ∨ staged = term)
    (hstage : Staging.stageFunction around function.name params result staged
      { names := flat.names } = .ok routine last) :
    routine.Stages flat.names.next staged ∧
      ∀ use ∈ staged.uses, (routine.discipline True).Usable [] use.name := by
  have hnames := Term.ofExpr_flattens function.body hflat
  have hfused : staged.bound = term.bound ∧ staged.mentions ⊆ term.mentions := by
    rcases hstaged with rfl | rfl
    · exact Term.fuse_names around term
    · exact ⟨rfl, List.Subset.refl _⟩
  obtain ⟨hroutine, hstages⟩ := (Staging.stageFunction_yields around function.name params result
    staged { names := flat.names }).of_ok hstage
  obtain ⟨hglobals, hplain⟩ := hygienic
  have hbinder : ∀ name ∈ function.body.bound, name ∈ function.binders := fun name hn =>
    List.mem_append_right _ hn
  -- The binders of the term are source names or were generated while it was flattened.
  have hbound : ∀ name ∈ staged.bound, ∀ number, name = FreshNames.name number →
      number < flat.names.next := by
    rintro name hn number rfl
    rw [hfused.1] at hn
    rcases hnames.binders _ hn with hsource | ⟨other, hlt, heq⟩
    · have hhash := hplain _ (List.mem_append_left _ (hbinder _ hsource))
      exact absurd (FreshNames.hash_mem_name number) hhash
    · rw [FreshNames.name_inj.mp heq]
      exact hlt
  refine ⟨hstages hbound, (hstages hbound).usable fun use hu => ?_⟩
  obtain ⟨name, hname, rfl⟩ | ⟨_, hnil, _⟩ := hnames.uses use (hfused.2 hu)
  · have hhash := hplain name (List.mem_append_right _ hname)
    refine ⟨fun number heq => absurd heq (FreshNames.ne_name_of_no_hash hhash number),
      fun hn => List.mem_cons_of_mem _ ?_⟩
    rw [hroutine, hparams]
    rw [hfused.1] at hn
    rcases hnames.binders _ hn with hsource | ⟨other, _, heq⟩
    · -- A name that is both bound and used is a parameter, since it is no global.
      have hlocal := hglobals name (hbinder name hsource)
      simp only [globals, List.mem_filter, hname, true_and, decide_eq_true_eq,
        Decidable.not_not] at hlocal
      exact hlocal
    · exact absurd heq (FreshNames.ne_name_of_no_hash hhash other)
  · exact absurd hnil List.not_mem_nil

/-- A hygienic function compiles to a routine that runs without a breach of the discipline. -/
theorem Hygienic.compile_sound (hygienic : function.Hygienic)
    (h : function.compile options around names = .ok routine final) :
    routine.Sound (·.isLifetime = false) (routine.discipline True) fun _ => False := by
  obtain ⟨params, result, term, staged, scope, flat, last, hparams, hflat, hstaged, hstage⟩ :=
    compile_eq_ok h
  obtain ⟨hstages, huses⟩ := hygienic.stages hparams hflat hstaged hstage
  exact hstages.sound huses

/-- The lifetime check has no objection to a hygienic function: it compiles if its body can be
flattened and staged. -/
theorem Hygienic.compile_ok (hygienic : function.Hygienic) {signature : Signature}
    {params : List (String × Rep)} {result : Rep} {term : Term} {middle : FreshNames}
    {last : StagingState}
    (hsignature : around.interface.signature function.name = some signature)
    (hlength : signature.params.length = function.params.length)
    (hparams : partReps around function.pos (function.params.zip signature.params) = .ok params)
    (hresult : Rep.ofTy around function.pos signature.result = .ok result)
    (hflatten : flatten around.interface (function.params.zip signature.params) function.body
      names = .ok term middle)
    (hstage : Staging.stageFunction around function.name params result
      (if options.fuse then term.fuse around else term) { names := middle } = .ok routine last) :
    function.compile options around names = .ok routine last.names := by
  obtain ⟨scope, flat, hflat, rfl⟩ := flatten_eq_ok hflatten
  have hzip : (function.params.zip signature.params).map Prod.fst = function.params :=
    List.map_fst_zip (by omega)
  have hfused : (if options.fuse then term.fuse around else term) = term.fuse around ∨
      (if options.fuse then term.fuse around else term) = term := by
    split
    · exact .inl rfl
    · exact .inr rfl
  obtain ⟨hstages, huses⟩ := hygienic.stages ((partReps_names hparams).trans hzip) hflat hfused
    hstage
  have hcheck : routine.checkLifetimes = .ok () := by
    rcases hstages.check_passes True huses with ⟨_, hcheck, _⟩ | ⟨hwatch, _⟩
    · exact hcheck
    · exact absurd trivial hwatch
  have hemit : emit around function.name params result
      (if options.fuse then term.fuse around else term) flat.names = .ok routine last.names := by
    simp only [emit, hstage]
  simp only [compile, hsignature, hlength, ne_eq, not_true_eq_false, if_false, hparams,
    hresult]
  refine (bind_of_ok (lift_apply_ok _ _)).trans ?_
  refine (bind_of_ok (lift_apply_ok _ _)).trans ?_
  refine (bind_of_ok hflatten).trans ?_
  refine (bind_of_ok hemit).trans ?_
  rw [hcheck]
  split
  · rfl
  · rfl

end Function

theorem Definition.compile_eq_routine {options : CompileOptions} {interface : Interface}
    {definition : Definition} {progress final : Progress} {routine : Routine}
    (h : definition.compile options interface progress = .ok (.routine routine) final) :
    ∃ function names last, definition = .function function ∧
      function.compile options ⟨progress.layouts, interface⟩ names = .ok routine last := by
  have henrol : ∀ {layouts : Layouts} {name : String} {progress : Progress},
      enrol layouts name progress ≠ .ok (.routine routine) final := by
    intro layouts name progress h
    obtain ⟨_, _, _, h⟩ := bind_eq_ok.mp h
    obtain ⟨h, _⟩ := lift_eq_ok.mp h
    unfold registered at h
    split at h <;> cases h
  cases definition with
  | function function =>
    simp only [compile] at h
    split at h
    · rename_i compiled names hcompile
      cases h
      exact ⟨function, progress.names, names, rfl, hcompile⟩
    · cases h
  | register name ty =>
    obtain ⟨_, _, _, h⟩ := bind_eq_ok.mp h
    obtain ⟨_, _, h⟩ := lift_bind_eq_ok.mp h
    cases h
  | struct name fields =>
    obtain ⟨_, _, _, h⟩ := bind_eq_ok.mp h
    obtain ⟨_, _, h⟩ := lift_bind_eq_ok.mp h
    exact absurd h henrol
  | enum name members =>
    obtain ⟨_, _, _, h⟩ := bind_eq_ok.mp h
    exact absurd h henrol
  | union name ctors =>
    obtain ⟨_, _, _, h⟩ := bind_eq_ok.mp h
    obtain ⟨_, _, h⟩ := lift_bind_eq_ok.mp h
    exact absurd h henrol

namespace Compilation

variable {options : CompileOptions} {interface : Interface} {routine : Routine}

private theorem exists_function_from {definitions : List Definition} {progress : Progress}
    (h : .routine routine ∈ (compileFrom options interface progress definitions).1) :
    ∃ function around names final, .function function ∈ definitions ∧
      function.compile options around names = .ok routine final := by
  induction definitions generalizing progress with
  | nil => cases h
  | cons definition rest ih =>
    have hlater : ∀ {progress : Progress},
        .routine routine ∈ (compileFrom options interface progress rest).1 →
        ∃ function around names final, .function function ∈ definition :: rest ∧
          function.compile options around names = .ok routine final := by
      intro progress hrest
      obtain ⟨function, around, names, final, hmem, hcompile⟩ := ih hrest
      exact ⟨function, around, names, final, List.mem_cons_of_mem _ hmem, hcompile⟩
    simp only [compileFrom] at h
    split at h
    · rename_i item next hitem
      rcases List.mem_cons.mp h with rfl | hrest
      · obtain ⟨function, names, final, rfl, hcompile⟩ := Definition.compile_eq_routine hitem
        exact ⟨function, _, names, final, List.mem_cons_self, hcompile⟩
      · exact hlater hrest
    · exact hlater h

theorem exists_function {definitions : List Definition}
    (h : routine ∈ (ofDefinitions options interface definitions).program.routines) :
    ∃ function around names final, .function function ∈ definitions ∧
      function.compile options around names = .ok routine final := by
  obtain ⟨item, hitem, heq⟩ := List.mem_filterMap.mp h
  cases item with
  | routine compiled =>
    cases heq
    exact exists_function_from hitem
  | register name rep => cases heq
  | layout rep => cases heq

end Compilation

/-- What the user of a machine can ask for. -/
inductive Request where
  | setRegister (name : String) (value : Value)
  | call (name : String) (args : List Value)

namespace Machine

/-- The answer to one request. A register that cannot take a value keeps the one it has. -/
def answer (machine : Machine) : Request → Except RunError Value × Machine
  | .setRegister name value =>
    match machine.setRegister name value with
    | .ok next => (.ok .unit, next)
    | .error cause => (.error cause, machine)
  | .call name args => machine.call name args

def answers : Machine → List Request → List (Except RunError Value)
  | _, [] => []
  | machine, request :: rest =>
    let (answer, next) := machine.answer request
    answer :: next.answers rest

variable {machine : Machine}

private theorem setRegister_program {next : Machine} {name : String} {value : Value}
    (h : machine.setRegister name value = .ok next) : next.program = machine.program := by
  unfold setRegister at h
  split at h
  · cases h
  · obtain ⟨_, _, h⟩ := except_bind_eq_ok.mp h
    cases h
    rfl

private theorem answer_program (request : Request) :
    (machine.answer request).2.program = machine.program := by
  cases request with
  | setRegister name value =>
    simp only [answer]
    split
    · rename_i hset
      exact setRegister_program hset
    · rfl
  | call name args =>
    simp only [answer, call]
    split <;> rfl

private theorem setRegister_calm (name : String) (value : Value) :
    Calm (machine.setRegister name value) := by
  unfold setRegister
  split
  · exact .error rfl
  · exact (Rep.conform_calm _ _).bind fun _ => .ok _

private theorem answer_calm
    (h : ∀ routine ∈ machine.program.routines,
      ∃ disc post, routine.Sound (·.isLifetime = false) disc post) (request : Request) :
    Calm (machine.answer request).1 := by
  cases request with
  | setRegister name value =>
    intro cause hcause
    simp only [answer] at hcause
    split at hcause
    · cases hcause
    · rename_i hset
      cases hcause
      exact setRegister_calm name value cause hset
  | call name args => exact fun cause hcause => call_admit (fun _ hc => hc) h hcause

private theorem answers_calm
    (h : ∀ routine ∈ machine.program.routines,
      ∃ disc post, routine.Sound (·.isLifetime = false) disc post) (requests : List Request) :
    ∀ answer ∈ machine.answers requests, Calm answer := by
  induction requests generalizing machine with
  | nil => exact fun _ hnil => absurd hnil List.not_mem_nil
  | cons request rest ih =>
    have hnext : ∀ routine ∈ (machine.answer request).2.program.routines,
        ∃ disc post, routine.Sound (·.isLifetime = false) disc post := by
      rw [answer_program]
      exact h
    exact List.forall_mem_cons.mpr ⟨answer_calm h request, ih hnext⟩

end Machine

/-- A machine with a compiled program of hygienic functions never answers a request with a breach
of the lifetime discipline. -/
theorem Compilation.answers_keep_lifetimes (options : CompileOptions) (interface : Interface)
    (definitions : List Definition)
    (hygienic : ∀ function, .function function ∈ definitions → function.Hygienic) (fuel : Nat)
    (requests : List Request) (cause : RunError)
    (hanswer : .error cause ∈ (Machine.ofProgram
      (ofDefinitions options interface definitions).program fuel).answers requests) :
    cause.isLifetime = false := by
  have hsound : ∀ routine ∈ (ofDefinitions options interface definitions).program.routines,
      ∃ disc post, routine.Sound (·.isLifetime = false) disc post := by
    intro routine hr
    obtain ⟨function, around, names, final, hmem, hcompile⟩ := exists_function hr
    exact ⟨_, _, (hygienic function hmem).compile_sound hcompile⟩
  exact Machine.answers_calm hsound requests _ hanswer cause rfl

/-- A loop that keeps the old value of a register, sets it to the number of the round, and may
return from inside. -/
def Definition.counting : List Definition :=
  [.register "total" .int,
    .function {
      name := "rounds"
      params := ["limit", "done"]
      body := .block ⟨.int, .generated⟩
        [.count ⟨.unit, .generated⟩ "round" (.lit ⟨.int, .generated⟩ (.num 1))
          (.name ⟨.int, .generated⟩ "limit") (.lit ⟨.int, .generated⟩ (.num 1)) .inc
          (.bind ⟨.unit, .generated⟩ (.name "old") (.name ⟨.int, .generated⟩ "total")
            (.block ⟨.unit, .generated⟩
              [.assign ⟨.unit, .generated⟩ (.name "total") (.name ⟨.int, .generated⟩ "round"),
                .cond ⟨.unit, .generated⟩ (.name ⟨.bool, .generated⟩ "done")
                  (.ret ⟨.unit, .generated⟩ (.name ⟨.int, .generated⟩ "old"))
                  (.lit ⟨.unit, .generated⟩ .unit)])),
          .name ⟨.int, .generated⟩ "total"] }]

def Declarations.counting : Declarations :=
  (({} : Declarations).addRegister "total" .int).addFunction "rounds" [.int, .bool] .int

theorem Compilation.counting_keeps_lifetimes :
    (Compilation.ofDefinitions {} Declarations.counting.interface Definition.counting).isSuccess ∧
    (∀ function, .function function ∈ Definition.counting → function.Hygienic) ∧
    ∀ fuel requests cause, .error cause ∈ (Machine.ofProgram (Compilation.ofDefinitions {}
      Declarations.counting.interface Definition.counting).program fuel).answers requests →
        cause.isLifetime = false := by
  have hygienic : ∀ function, .function function ∈ Definition.counting → function.Hygienic := by
    intro function hf
    rcases List.mem_cons.mp hf with hf | hf
    · cases hf
    · cases List.mem_singleton.mp hf
      decide
  exact ⟨by decide +kernel, hygienic, Compilation.answers_keep_lifetimes {} _ _ hygienic⟩

end IsaBackend
