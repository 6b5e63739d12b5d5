import IsaBackend.Proofs.Compilation.Safety
import IsaBackend.Proofs.Renaming.Flattening
import IsaBackend.Proofs.Renaming.Staging

/-!
# Definitions compile independently

A definition sees what was compiled before it in two ways only: the named types that were registered,
and the number of names that were generated. The first are given by the type definitions that compiled,
since a definition that fails leaves no layout behind. The second moves the numbers of generated names
in the outcome by a constant, unless a variable of the definition is itself such a name.
-/

namespace IsaBackend

open FreshNames (shift IsGenerated shift_injective shift_of_not_generated)
open Movable (move)

namespace Function

variable {around : Surroundings} {names : FreshNames}

/-- No parameter and no variable of the body is a name that could be generated. -/
def Plain (function : Function) : Prop :=
  (∀ name ∈ function.params, ¬IsGenerated name) ∧ ∀ name ∈ function.body.vars, ¬IsGenerated name

private theorem rename_params (offset : Nat) (params : List (String × Ty)) (scope : Scope)
    (h : ∀ param ∈ params, ¬IsGenerated param.1) :
    (params.foldl (fun scope (name, ty) => scope.declare name ty false) scope).rename
        (shift offset) =
      params.foldl (fun scope (name, ty) => scope.declare name ty false)
        (scope.rename (shift offset)) := by
  induction params generalizing scope with
  | nil => rfl
  | cons param rest ih =>
    obtain ⟨hparam, hrest⟩ := List.forall_mem_cons.mp h
    simp only [List.foldl_cons, ih _ hrest, Scope.rename_declare (shift_injective offset),
      shift_of_not_generated hparam]

private theorem flatten_uniform {interface : Interface} {params : List (String × Ty)} {body : Expr}
    (hparams : ∀ param ∈ params, ¬IsGenerated param.1)
    (hbody : ∀ name ∈ body.vars, ¬IsGenerated name) :
    Uniform (fun _ => flatten interface params body) names fun values _ => TermMoves values := by
  let start : FlatState :=
    ⟨params.foldl (fun scope (name, ty) => scope.declare name ty false) ({} : Scope), names⟩
  have hstart : ∀ offset, move offset start = { start with names := move offset names } :=
    fun offset => congrArg (fun scope => FlatState.mk scope (move offset names))
      (rename_params offset params {} hparams)
  have hterm : Uniform (fun _ => Term.ofExpr interface body) start fun values _ =>
      TermMoves values := Term.ofExpr_uniform body start hbody
  apply hterm.embed FlatState.names fun _ _ => rfl
  · intro offset term after h
    rw [hstart offset] at h
    simp only [start] at h
    simp only [flatten, h]
  · intro offset cause after h
    rw [hstart offset] at h
    simp only [start] at h
    simp only [flatten, h]

private theorem emit_uniform (name : String) {params : List (String × Rep)}
    (hparams : ∀ param ∈ params, ¬IsGenerated param.1) (result : Rep) (body : Term)
    (hbody : body.Proper) :
    Uniform (fun offset => emit around name params result (body.rename (shift offset))) names
      fun values _ => ∃ routine : Routine, values = fun offset => routine.rename (shift offset) := by
  have hstage : Uniform (fun offset => Staging.stageFunction around name params result
      (body.rename (shift offset))) { names } _ :=
    Staging.stageFunction_uniform name hparams result body hbody
  apply hstage.embed StagingState.names fun _ _ => rfl
  · intro offset routine after h
    have h : Staging.stageFunction _ _ _ _ _ { names := move offset names } = _ := h
    simp only [emit, h]
  · intro offset cause after h
    have h : Staging.stageFunction _ _ _ _ _ { names := move offset names } = _ := h
    simp only [emit, h]

/-- The check of lifetimes gives the same answer for every start of the supply. -/
private theorem check_uniform (name : String) (routine : Routine) :
    Uniform (fun offset => (match (routine.rename (shift offset)).checkLifetimes with
      | .error cause => throw (.lifetime name cause)
      | .ok () => return routine.rename (shift offset) :
        EStateM CompileError FreshNames Routine)) names
      fun values _ => ∃ routine : Routine, values = fun offset => routine.rename (shift offset) := by
  simp only [fun offset => Routine.checkLifetimes_rename (shift_injective offset) routine]
  cases routine.checkLifetimes with
  | ok _ => exact Uniform.pure ⟨routine, rfl⟩
  | error cause => exact Uniform.throw (.lifetime name cause)

/-- A function without generated names compiles to one routine, up to the numbers of generated
names, or fails with one cause. -/
theorem Plain.compile_uniform {function : Function} (plain : function.Plain)
    (options : CompileOptions) :
    Uniform (fun _ => function.compile options around) names fun values _ =>
      ∃ routine : Routine, values = fun offset => routine.rename (shift offset) := by
  unfold compile
  cases around.interface.signature function.name with
  | none => exact Uniform.throw (.same _)
  | some signature =>
    have hzip : ∀ param ∈ function.params.zip signature.params, ¬IsGenerated param.1 :=
      fun param hmem => plain.1 param.1 (List.of_mem_zip hmem).1
    simp only
    split
    · exact Uniform.throw (.same _)
    · refine (Uniform.lift (partReps around function.pos _)).bind ?_
      rintro _ _ ⟨⟨reps, hreps, rfl⟩, rfl⟩
      have hparams : ∀ param ∈ reps, ¬IsGenerated param.1 := by
        intro param hmem
        have hfst : param.1 ∈ reps.map Prod.fst := List.mem_map_of_mem hmem
        rw [partReps_names hreps] at hfst
        obtain ⟨part, hpart, heq⟩ := List.mem_map.mp hfst
        exact heq ▸ hzip part hpart
      refine (Uniform.lift (Rep.ofTy around function.pos signature.result)).bind ?_
      rintro _ _ ⟨⟨result, _, rfl⟩, rfl⟩
      refine (flatten_uniform hzip plain.2).bind ?_
      rintro _ second ⟨term, hproper, rfl⟩
      have hfused : ∃ fused : Term, fused.Proper ∧ ∀ offset,
          (if options.fuse then (term.rename (shift offset)).fuse around
            else term.rename (shift offset)) = fused.rename (shift offset) := by
        by_cases hfuse : options.fuse
        · refine ⟨term.fuse around, Term.fuseIn_proper around _ term hproper, fun offset => ?_⟩
          simp only [hfuse, if_true, Term.fuse_rename (shift_injective offset)]
        · refine ⟨term, hproper, fun offset => ?_⟩
          simp only [hfuse]
          rfl
      obtain ⟨fused, hfusedProper, heq⟩ := hfused
      simp only [heq]
      refine (emit_uniform function.name hparams result fused hfusedProper).bind ?_
      rintro _ third ⟨routine, rfl⟩
      split
      · exact check_uniform function.name routine
      · exact Uniform.pure ⟨routine, rfl⟩

end Function

/-- The outcomes of a definition for every start of the supply: one item up to the numbers of
generated names, or one cause. -/
inductive OutcomeMoves : (Nat → Except CompileError Item) → Prop where
  | item (item : Item) : OutcomeMoves fun offset => .ok (item.rename (shift offset))
  | cause {causes : Nat → CompileError} : ErrorMoves causes →
      OutcomeMoves fun offset => .error (causes offset)

namespace Definition

variable {options : CompileOptions} {interface : Interface}

/-- No variable of the definition is a name that could be generated. -/
def Plain : Definition → Prop
  | function definition => definition.Plain
  | _ => True

def isType : Definition → Bool
  | register _ _ => false
  | function _ => false
  | _ => true

def step (options : CompileOptions) (interface : Interface) (progress : Progress)
    (definition : Definition) : Except CompileError Item × Progress :=
  match definition.compile options interface progress with
  | .ok item after => (.ok item, after)
  | .error cause after => (.error cause, after)

private theorem enrol_eq {layouts extended : Layouts} {name : String} {rep : Rep}
    (h : extended.lookup? name = some rep) (names : FreshNames) :
    enrol extended name ⟨layouts, names⟩ = .ok (.layout rep) ⟨extended, names⟩ := by
  have hregistered : registered extended name = .ok (.layout rep) := by
    simp only [registered, h]
  have hlift : (lift (registered extended name) : EStateM CompileError Progress Item)
      ⟨extended, names⟩ = .ok (.layout rep) ⟨extended, names⟩ := lift_eq_ok.mpr ⟨hregistered, rfl⟩
  exact hlift

private theorem lookup?_addStruct (layouts : Layouts) (name : String) (fields : List (String × Rep)) :
    ∃ rep, (layouts.addStruct name fields).lookup? name = some rep := by
  refine ⟨.struct name fields, ?_⟩
  simp only [Layouts.lookup?, Layouts.addStruct, NameTable.get?_set, if_true]

private theorem lookup?_addEnum (layouts : Layouts) (name : String) (members : List String) :
    ∃ rep, (layouts.addEnum name members).lookup? name = some rep := by
  simp only [Layouts.lookup?, Layouts.addEnum, NameTable.get?_set, if_true]
  cases layouts.structs.get? name with
  | some fields => exact ⟨_, rfl⟩
  | none => exact ⟨_, rfl⟩

private theorem lookup?_addUnion (layouts : Layouts) (name : String) (ctors : List (String × Rep)) :
    ∃ rep, (layouts.addUnion name ctors).lookup? name = some rep := by
  simp only [Layouts.lookup?, Layouts.addUnion, NameTable.get?_set, if_true]
  cases layouts.structs.get? name with
  | some fields => exact ⟨_, rfl⟩
  | none =>
    cases layouts.enums.get? name with
    | some members => exact ⟨_, rfl⟩
    | none => exact ⟨_, rfl⟩

private theorem step_of_ok {definition : Definition} {progress after : Progress} {item : Item}
    (h : definition.compile options interface progress = .ok item after) :
    definition.step options interface progress = (.ok item, after) := by
  simp only [step, h]

private theorem step_of_error {definition : Definition} {progress after : Progress}
    {cause : CompileError}
    (h : definition.compile options interface progress = .error cause after) :
    definition.step options interface progress = (.error cause, after) := by
  simp only [step, h]

private theorem step_parts {definition : Definition} {layouts : Layouts} {name : String}
    {parts : List (String × Ty)} {extend : List (String × Rep) → Layouts}
    (hcompile : ∀ names, definition.compile options interface ⟨layouts, names⟩ = (do
      let reps ← lift (Function.partReps ⟨layouts, interface⟩ .generated parts)
      enrol (extend reps) name : EStateM CompileError Progress Item) ⟨layouts, names⟩)
    (hfound : ∀ reps, ∃ rep, (extend reps).lookup? name = some rep) :
    (∃ rep extended, ∀ names,
      definition.step options interface ⟨layouts, names⟩ = (.ok (.layout rep), ⟨extended, names⟩)) ∨
    ∃ cause, ∀ names,
      definition.step options interface ⟨layouts, names⟩ = (.error cause, ⟨layouts, names⟩) := by
  cases hreps : Function.partReps ⟨layouts, interface⟩ .generated parts with
  | ok reps =>
    obtain ⟨rep, hrep⟩ := hfound reps
    refine .inl ⟨rep, extend reps, fun names => step_of_ok ?_⟩
    rw [hcompile names, bind_of_ok (lift_eq_ok.mpr ⟨hreps, rfl⟩)]
    exact enrol_eq hrep names
  | error cause =>
    refine .inr ⟨cause, fun names => step_of_error ?_⟩
    rw [hcompile names, bind_of_error (lift_eq_error.mpr ⟨hreps, rfl⟩)]

private theorem step_register (options : CompileOptions) (interface : Interface) (name : String)
    (ty : Ty) (layouts : Layouts) :
    (∃ rep, ∀ names, (register name ty).step options interface ⟨layouts, names⟩ =
      (.ok (.register name rep), ⟨layouts, names⟩)) ∨
    ∃ cause, ∀ names, (register name ty).step options interface ⟨layouts, names⟩ =
      (.error cause, ⟨layouts, names⟩) := by
  cases hrep : Rep.ofTy ⟨layouts, interface⟩ .generated ty with
  | ok rep =>
    refine .inl ⟨rep, fun names => step_of_ok ?_⟩
    have hlift : (lift (Rep.ofTy ⟨layouts, interface⟩ .generated ty) :
        EStateM CompileError Progress Rep) ⟨layouts, names⟩ = .ok rep ⟨layouts, names⟩ :=
      lift_eq_ok.mpr ⟨hrep, rfl⟩
    exact (bind_of_ok (get_apply _)).trans (bind_of_ok hlift)
  | error cause =>
    refine .inr ⟨cause, fun names => step_of_error ?_⟩
    have hlift : (lift (Rep.ofTy ⟨layouts, interface⟩ .generated ty) :
        EStateM CompileError Progress Rep) ⟨layouts, names⟩ = .error cause ⟨layouts, names⟩ :=
      lift_eq_error.mpr ⟨hrep, rfl⟩
    exact (bind_of_ok (get_apply _)).trans (bind_of_error hlift)

theorem step_function_ok {definition : Function} {layouts : Layouts} {names after : FreshNames}
    {routine : Routine}
    (h : definition.compile options ⟨layouts, interface⟩ names = .ok routine after) :
    (function definition).step options interface ⟨layouts, names⟩ =
      (.ok (.routine routine), ⟨layouts, after⟩) := by
  simp only [step, compile, h]

theorem step_function_error {definition : Function} {layouts : Layouts}
    {names after : FreshNames} {cause : CompileError}
    (h : definition.compile options ⟨layouts, interface⟩ names = .error cause after) :
    (function definition).step options interface ⟨layouts, names⟩ =
      (.error cause, ⟨layouts, after⟩) := by
  simp only [step, compile, h]

/-- Only a type definition that compiles changes the layouts. What a type definition compiles to
depends on the layouts alone. -/
theorem step_cases (options : CompileOptions) (interface : Interface) (definition : Definition)
    (layouts : Layouts) :
    (definition.isType = false ∧
      ∀ names, (definition.step options interface ⟨layouts, names⟩).2.layouts = layouts) ∨
    definition.isType = true ∧ ((∃ rep extended, ∀ names,
      definition.step options interface ⟨layouts, names⟩ = (.ok (.layout rep), ⟨extended, names⟩)) ∨
      ∃ cause, ∀ names,
        definition.step options interface ⟨layouts, names⟩ = (.error cause, ⟨layouts, names⟩)) := by
  cases definition with
  | register name ty =>
    refine .inl ⟨rfl, fun names => ?_⟩
    obtain ⟨rep, hstep⟩ | ⟨cause, hstep⟩ := step_register options interface name ty layouts
    · rw [hstep names]
    · rw [hstep names]
  | function definition =>
    refine .inl ⟨rfl, fun names => ?_⟩
    cases hcompile : definition.compile options ⟨layouts, interface⟩ names with
    | ok routine after => rw [step_function_ok hcompile]
    | error cause after => rw [step_function_error hcompile]
  | struct name fields =>
    exact .inr ⟨rfl, step_parts (fun _ => rfl) (lookup?_addStruct layouts name)⟩
  | enum name members =>
    obtain ⟨rep, hrep⟩ := lookup?_addEnum layouts name members
    exact .inr ⟨rfl, .inl ⟨rep, _, fun names => step_of_ok (enrol_eq hrep names)⟩⟩
  | union name ctors =>
    exact .inr ⟨rfl, step_parts (fun _ => rfl) (lookup?_addUnion layouts name)⟩

theorem step_layouts_congr (options : CompileOptions) (interface : Interface)
    {progress other : Progress} (h : progress.layouts = other.layouts) (definition : Definition) :
    (definition.step options interface progress).2.layouts =
      (definition.step options interface other).2.layouts := by
  obtain ⟨layouts, names⟩ := progress
  obtain ⟨_, names'⟩ := other
  cases h
  obtain ⟨_, hkeep⟩ | ⟨_, ⟨rep, extended, hstep⟩ | ⟨cause, hstep⟩⟩ :=
    step_cases options interface definition layouts
  · rw [hkeep, hkeep]
  · rw [hstep, hstep]
  · rw [hstep, hstep]

/-- Only the outcomes of functions depend on the names that were generated. -/
theorem step_outcome_congr (options : CompileOptions) (interface : Interface)
    {progress other : Progress} (h : progress.layouts = other.layouts) {definition : Definition}
    (hdefinition : ∀ definition', definition ≠ function definition') :
    (definition.step options interface progress).1 =
      (definition.step options interface other).1 := by
  obtain ⟨layouts, names⟩ := progress
  obtain ⟨_, names'⟩ := other
  cases h
  obtain ⟨htype, _⟩ | ⟨_, ⟨rep, extended, hstep⟩ | ⟨cause, hstep⟩⟩ :=
    step_cases options interface definition layouts
  · cases definition with
    | register name ty =>
      obtain ⟨rep, hstep⟩ | ⟨cause, hstep⟩ := step_register options interface name ty layouts
      · rw [hstep, hstep]
      · rw [hstep, hstep]
    | function definition => exact absurd rfl (hdefinition definition)
    | _ => cases htype
  · rw [hstep, hstep]
  · rw [hstep, hstep]

/-- A definition that fails or is none of a type leaves the layouts alone. -/
theorem step_keeps_layouts {progress : Progress} {definition : Definition}
    (h : (definition.isType && (definition.step options interface progress).1.isOk) = false) :
    (definition.step options interface progress).2.layouts = progress.layouts := by
  obtain ⟨layouts, names⟩ := progress
  obtain ⟨_, hkeep⟩ | ⟨htype, ⟨rep, extended, hstep⟩ | ⟨cause, hstep⟩⟩ :=
    step_cases options interface definition layouts
  · exact hkeep names
  · rw [htype, hstep] at h
    cases h
  · rw [hstep]

/-- What a definition without generated names compiles to moves along with the supply. -/
theorem Plain.outcome_moves {definition : Definition} (plain : definition.Plain)
    (options : CompileOptions) (interface : Interface) (layouts : Layouts) :
    ∃ outcomes, OutcomeMoves outcomes ∧ ∀ names : FreshNames,
      (definition.step options interface ⟨layouts, names⟩).1 = outcomes names.next := by
  have hfixed : ∀ {item : Item}, (∀ change, item.rename change = item) →
      OutcomeMoves fun _ => .ok item := by
    intro item hitem
    have hmoves := OutcomeMoves.item item
    simp only [hitem] at hmoves
    exact hmoves
  obtain ⟨htype, _⟩ | ⟨_, ⟨rep, extended, hstep⟩ | ⟨cause, hstep⟩⟩ :=
    step_cases options interface definition layouts
  · cases definition with
    | register name ty =>
      obtain ⟨rep, hstep⟩ | ⟨cause, hstep⟩ := step_register options interface name ty layouts
      · exact ⟨_, hfixed fun _ => rfl, fun names => congrArg Prod.fst (hstep names)⟩
      · exact ⟨_, .cause (.same cause), fun names => congrArg Prod.fst (hstep names)⟩
    | function definition =>
      have huniform : Uniform (fun _ => definition.compile options ⟨layouts, interface⟩) ⟨0⟩ _ :=
        Function.Plain.compile_uniform plain options
      have hmove : ∀ names : FreshNames, move names.next (⟨0⟩ : FreshNames) = names :=
        fun names => congrArg FreshNames.mk (Nat.zero_add names.next)
      obtain ⟨_, after, hcompile, routine, rfl⟩ | ⟨causes, after, hcompile, hcauses⟩ := huniform
      · refine ⟨_, .item (.routine routine), fun names => ?_⟩
        have h := hcompile names.next
        rw [hmove names] at h
        rw [step_function_ok h]
        rfl
      · refine ⟨_, .cause hcauses, fun names => ?_⟩
        have h := hcompile names.next
        rw [hmove names] at h
        rw [step_function_error h]
    | _ => cases htype
  · exact ⟨_, hfixed fun _ => rfl, fun names => congrArg Prod.fst (hstep names)⟩
  · exact ⟨_, .cause (.same cause), fun names => congrArg Prod.fst (hstep names)⟩

end Definition

namespace Compilation

variable (options : CompileOptions) (interface : Interface)

/-- What each definition compiles to, in order. -/
def outcomes : Progress → List Definition → List (Except CompileError Item)
  | _, [] => []
  | progress, definition :: rest =>
    (definition.step options interface progress).1 ::
      outcomes (definition.step options interface progress).2 rest

/-- What definitions leave to the next one. -/
def progressAfter : Progress → List Definition → Progress
  | progress, [] => progress
  | progress, definition :: rest =>
    progressAfter (definition.step options interface progress).2 rest

def types : Progress → List Definition → List Definition
  | _, [] => []
  | progress, definition :: rest =>
    let others := types (definition.step options interface progress).2 rest
    if definition.isType && (definition.step options interface progress).1.isOk then
      definition :: others
    else others

/-- Why a definition does not compile. -/
def cause? : Except CompileError Item → Option CompileError
  | .ok _ => none
  | .error cause => some cause

private theorem eq_error_of_cause? {outcome : Except CompileError Item} {cause : CompileError}
    (h : cause? outcome = some cause) : outcome = .error cause := by
  cases outcome with
  | ok item => cases h
  | error found => exact congrArg Except.error (Option.some.inj h)

/-- A definition gives the same outcome at its places in two lists, up to the difference between the
numbers of names that were generated before it. -/
def SameOutcome (definition : Definition) (before after before' after' : List Definition) : Prop :=
  ∃ family, OutcomeMoves family ∧
    (outcomes options interface {} (before ++ definition :: after))[before.length]? =
      some (family (progressAfter options interface {} before).names.next) ∧
    (outcomes options interface {} (before' ++ definition :: after'))[before'.length]? =
      some (family (progressAfter options interface {} before').names.next)

variable {options : CompileOptions} {interface : Interface}

private theorem length_outcomes (progress : Progress) (definitions : List Definition) :
    (outcomes options interface progress definitions).length = definitions.length := by
  induction definitions generalizing progress with
  | nil => rfl
  | cons definition rest ih => simp only [outcomes, List.length_cons, ih]

private theorem outcomes_append (progress : Progress) (before after : List Definition) :
    outcomes options interface progress (before ++ after) =
      outcomes options interface progress before ++
        outcomes options interface (progressAfter options interface progress before) after := by
  induction before generalizing progress with
  | nil => rfl
  | cons definition rest ih => simp only [List.cons_append, outcomes, progressAfter, ih]

private theorem outcomes_at (definition : Definition) (before after : List Definition) :
    (outcomes options interface {} (before ++ definition :: after))[before.length]? =
      some (definition.step options interface (progressAfter options interface {} before)).1 := by
  rw [outcomes_append, ← length_outcomes {} before, List.getElem?_append_right (Nat.le_refl _),
    Nat.sub_self]
  rfl

private theorem types_append (progress : Progress) (before after : List Definition) :
    types options interface progress (before ++ after) =
      types options interface progress before ++
        types options interface (progressAfter options interface progress before) after := by
  induction before generalizing progress with
  | nil => rfl
  | cons definition rest ih =>
    simp only [List.cons_append, types, progressAfter, ih]
    split <;> rfl

private theorem layouts_congr {progress other : Progress} (h : progress.layouts = other.layouts)
    (definitions : List Definition) :
    (progressAfter options interface progress definitions).layouts =
      (progressAfter options interface other definitions).layouts := by
  induction definitions generalizing progress other with
  | nil => exact h
  | cons definition rest ih => exact ih (Definition.step_layouts_congr options interface h definition)

private theorem types_congr {progress other : Progress} (h : progress.layouts = other.layouts)
    (definitions : List Definition) :
    types options interface progress definitions = types options interface other definitions := by
  induction definitions generalizing progress other with
  | nil => rfl
  | cons definition rest ih =>
    have hrest := ih (Definition.step_layouts_congr options interface h definition)
    cases htype : definition.isType with
    | true =>
      have hdefinition : ∀ definition', definition ≠ .function definition' := by
        rintro definition' rfl
        cases htype
      have houtcome := Definition.step_outcome_congr options interface h hdefinition
      simp only [types, hrest, houtcome]
    | false => simp only [types, hrest, htype, Bool.false_and]

/-- Only the type definitions that compile matter for the layouts. -/
theorem layouts_types (progress : Progress) (definitions : List Definition) :
    (progressAfter options interface progress definitions).layouts =
      (progressAfter options interface progress
        (types options interface progress definitions)).layouts := by
  induction definitions generalizing progress with
  | nil => rfl
  | cons definition rest ih =>
    simp only [types]
    split
    · exact ih _
    · rename_i hskip
      have hkeep := Definition.step_keeps_layouts (Bool.eq_false_iff.mpr hskip)
      exact (ih _).trans (layouts_congr hkeep _)

/-- A definition that fails or is none of a type can be left out of those before another. -/
theorem types_skip {progress : Progress} {definition : Definition}
    (h : (definition.isType && (definition.step options interface progress).1.isOk) = false)
    (rest : List Definition) :
    types options interface progress (definition :: rest) =
      types options interface progress rest := by
  simp only [types, h]
  exact types_congr (Definition.step_keeps_layouts h) rest

private theorem types_filter (progress : Progress) (definitions : List Definition) :
    types options interface progress definitions =
      types options interface progress (definitions.filter Definition.isType) := by
  induction definitions generalizing progress with
  | nil => rfl
  | cons definition rest ih =>
    cases htype : definition.isType with
    | true =>
      rw [List.filter_cons_of_pos htype]
      simp only [types, ← ih]
    | false =>
      rw [List.filter_cons_of_neg (by simp [htype]), ← ih]
      exact types_skip (by rw [htype, Bool.false_and]) rest

/-- The same types before a definition without generated names give the same outcome. -/
theorem sameOutcome_of_types {definition : Definition} (plain : definition.Plain)
    {before before' : List Definition}
    (h : types options interface {} before = types options interface {} before')
    (after after' : List Definition) :
    SameOutcome options interface definition before after before' after' := by
  have hlayouts : (progressAfter options interface {} before).layouts =
      (progressAfter options interface {} before').layouts := by
    rw [layouts_types, layouts_types {} before', h]
  obtain ⟨family, hfamily, hstep⟩ := plain.outcome_moves options interface
    (progressAfter options interface {} before).layouts
  refine ⟨family, hfamily, ?_, ?_⟩
  · rw [outcomes_at, ← hstep]
  · rw [outcomes_at, ← hstep, hlayouts]

/-- The items of a compilation are what compiled, in order, and its errors are why the rest did not. -/
theorem compileFrom_eq (progress : Progress) (definitions : List Definition) :
    compileFrom options interface progress definitions =
      ((outcomes options interface progress definitions).filterMap Except.toOption,
        (outcomes options interface progress definitions).filterMap cause?) := by
  induction definitions generalizing progress with
  | nil => rfl
  | cons definition rest ih =>
    cases hcompile : definition.compile options interface progress with
    | ok item after =>
      simp only [compileFrom, outcomes, hcompile, Definition.step_of_ok hcompile, ih,
        List.filterMap_cons, Except.toOption, cause?]
    | error cause after =>
      simp only [compileFrom, outcomes, hcompile, Definition.step_of_error hcompile, ih,
        List.filterMap_cons, Except.toOption, cause?]

/-- Definitions without generated names compile independently.

- What one compiles to depends on the type definitions before it that compile, and it moves along with
  the supply of fresh names.
- Leaving out a definition that fails changes no other outcome.
- Nor does any change to the registers and functions before or after it.
- Every definition has one outcome; the compilation lists those that are items, in order, and those
  that are errors. -/
theorem definitions_compile_independently (options : CompileOptions) (interface : Interface) :
    (∀ (definition : Definition) (before after before' after' : List Definition),
      definition.Plain →
      types options interface {} before = types options interface {} before' →
      SameOutcome options interface definition before after before' after') ∧
    (∀ (definition failing : Definition) (before middle after : List Definition)
      (cause : CompileError), definition.Plain →
      (outcomes options interface {} (before ++ failing :: (middle ++ definition :: after)))[
        before.length]? = some (.error cause) →
      SameOutcome options interface definition (before ++ failing :: middle) after
        (before ++ middle) after) ∧
    (∀ (definition : Definition) (before after before' after' : List Definition),
      definition.Plain →
      before.filter Definition.isType = before'.filter Definition.isType →
      SameOutcome options interface definition before after before' after') ∧
    ∀ definitions : List Definition,
      (outcomes options interface {} definitions).length = definitions.length ∧
      (ofDefinitions options interface definitions).program.items =
        (outcomes options interface {} definitions).filterMap Except.toOption ∧
      (ofDefinitions options interface definitions).errors =
        (outcomes options interface {} definitions).filterMap cause? := by
  refine ⟨fun definition before after before' after' plain h =>
    sameOutcome_of_types plain h after after', ?_, ?_, ?_⟩
  · intro definition failing before middle after cause plain hfails
    rw [outcomes_at, Option.some.injEq] at hfails
    apply sameOutcome_of_types plain
    rw [types_append, types_append, types_skip]
    rw [hfails]
    exact Bool.and_false _
  · intro definition before after before' after' plain h
    apply sameOutcome_of_types plain
    rw [types_filter, types_filter {} before', h]
  · intro definitions
    refine ⟨length_outcomes {} definitions, ?_, ?_⟩
    · simp only [ofDefinitions, compileFrom_eq]
    · simp only [ofDefinitions, compileFrom_eq]

end Compilation

/-- A function that keeps a large number in a variable. -/
def Definition.keeping (name var : String) : Definition :=
  .function {
    name
    params := []
    body := .bind ⟨.int, .generated⟩ (.name var)
      (.lit ⟨.int, .generated⟩ (.num 99999999999999999999)) (.name ⟨.int, .generated⟩ var) }

def Declarations.keeping : Declarations :=
  (({} : Declarations).addFunction "first" [] .int).addFunction "second" [] .int

namespace Compilation

/-- A function keeps its outcome after one that compiles and after one that fails late, although
both use a fresh name. -/
theorem keeping_compiles_independently :
    let interface := Declarations.keeping.interface
    let definition := Definition.keeping "second" "value"
    definition.Plain ∧
    types {} interface {} [] = types {} interface {} [.keeping "first" "value"] ∧
    SameOutcome {} interface definition [] [] [.keeping "first" "value"] [] ∧
    (outcomes {} interface {} [.keeping "first" "gs#0", definition])[0]? =
      some (.error (.lifetime "first" (.doubleAlloc "gs#0"))) ∧
    SameOutcome {} interface definition [.keeping "first" "gs#0"] [] [] [] := by
  intro interface definition
  have plain : definition.Plain := by
    refine ⟨fun _ h => absurd h List.not_mem_nil, fun name h => ?_⟩
    have hname : name = "value" := by simpa [Expr.vars, Expr.patternName] using h
    exact hname ▸ FreshNames.not_isGenerated (by decide)
  have hcause : cause? ((Definition.keeping "first" "gs#0").step {} interface {}).1 =
      some (.lifetime "first" (.doubleAlloc "gs#0")) := by decide +kernel
  have hfails : (outcomes {} interface {} [.keeping "first" "gs#0", definition])[0]? =
      some (.error (.lifetime "first" (.doubleAlloc "gs#0"))) :=
    (outcomes_at _ [] [definition]).trans (congrArg some (eq_error_of_cause? hcause))
  have hindependent := definitions_compile_independently {} interface
  exact ⟨plain, rfl, hindependent.1 definition [] [] _ [] plain rfl, hfails,
    hindependent.2.1 definition _ [] [] [] _ plain hfails⟩

/-- A variable with the name that the supply gives next is taken for a local that is live. -/
theorem generated_variable_depends :
    let interface := Declarations.keeping.interface
    let definition := Definition.keeping "second" "gs#1"
    types {} interface {} [] = types {} interface {} [.keeping "first" "value"] ∧
    ¬SameOutcome {} interface definition [] [] [.keeping "first" "value"] [] := by
  intro interface definition
  refine ⟨rfl, ?_⟩
  let before := [Definition.keeping "first" "value"]
  have hcompiles : ((outcomes {} interface {} [definition])[0]?).map Except.isOk = some true := by
    decide +kernel
  have hfails : ((outcomes {} interface {} (before ++ [definition]))[1]?).map Except.isOk =
      some false := by decide +kernel
  rintro ⟨family, hfamily, hfirst, hsecond⟩
  cases hfamily with
  | item item =>
    cases hfails.symm.trans (congrArg (Option.map Except.isOk) hsecond)
  | cause hcauses =>
    cases hcompiles.symm.trans (congrArg (Option.map Except.isOk) hfirst)

end Compilation

end IsaBackend
