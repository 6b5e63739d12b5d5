import IsaBackend.Proofs.Compilation.Safety
import IsaBackend.Proofs.Meaning.Exprs

/-!
# The meaning of compiled functions

A hygienic function whose result is an unbounded integer compiles if its body has a meaning in
which the parameters are in scope. A call of the routine then returns what the body means for the
arguments, whether the body comes to its end or returns early. The lifetime discipline, which the
routine is known to keep, excludes every other ending.
-/

namespace IsaBackend

open Staging StagingState

def returned {α : Type} : Except α α → α
  | .ok value => value
  | .error value => value

/-- The representations of parameters. The last one of a name counts. -/
def LocalReps.ofParams (params : List (String × Rep)) : LocalReps :=
  params.foldl (fun reps (name, rep) => reps.set name rep) fun _ => none

def Frame.valuation (frame : Frame) : Valuation := fun name =>
  match frame.get? name with
  | some slot => slot.value
  | none => .unit

section Params

variable {params : List (String × Rep)}

private theorem get?_foldl_params (locals : NameTable Local) (reps : LocalReps)
    (h : ∀ name rep, reps name = some rep → locals.get? name = some ⟨name, rep⟩) (name : String)
    (rep : Rep)
    (hrep : params.foldl (fun reps (name, rep) => LocalReps.set reps name rep) reps name =
      some rep) :
    (params.foldl (fun locals (name, rep) => locals.set name ⟨name, rep⟩) locals).get? name =
      some ⟨name, rep⟩ := by
  induction params generalizing locals reps with
  | nil => exact h name rep hrep
  | cons param params ih =>
    refine ih _ _ (fun key keyRep hkey => ?_) hrep
    rw [NameTable.get?_set]
    rcases LocalReps.set_eq_some.mp hkey with ⟨rfl, rfl⟩ | ⟨hne, hkey⟩
    · exact if_pos rfl
    · rw [if_neg hne]
      exact h key keyRep hkey

private theorem mem_of_foldl_params (reps : LocalReps) {name : String} {rep : Rep}
    (hrep : params.foldl (fun reps (name, rep) => LocalReps.set reps name rep) reps name =
      some rep) : reps name = some rep ∨ name ∈ params.map Prod.fst := by
  induction params generalizing reps with
  | nil => exact .inl hrep
  | cons param params ih =>
    rcases ih _ hrep with hset | hmem
    · rcases LocalReps.set_eq_some.mp hset with ⟨rfl, _⟩ | ⟨_, hkept⟩
      · exact .inr List.mem_cons_self
      · exact .inl hkept
    · exact .inr (List.mem_cons_of_mem _ hmem)

private theorem LocalReps.mem_of_ofParams {name : String} {rep : Rep}
    (h : LocalReps.ofParams params name = some rep) : name ∈ params.map Prod.fst := by
  rcases mem_of_foldl_params _ h with hnone | hmem
  · cases hnone
  · exact hmem

private theorem mem_of_foldl_insert (declared : List String) {name : String}
    (h : name ∈ params.foldl (fun declared (name, _) => declared.insert name) declared) :
    name ∈ declared ∨ name ∈ params.map Prod.fst := by
  induction params generalizing declared with
  | nil => exact .inl h
  | cons param params ih =>
    rcases ih _ h with hinsert | hmem
    · rcases List.mem_insert_iff.mp hinsert with rfl | hmem
      · exact .inr List.mem_cons_self
      · exact .inl hmem
    · exact .inr (List.mem_cons_of_mem _ hmem)

private theorem StagingState.hosts_ofFunction (names : FreshNames)
    (hplain : ∀ name ∈ params.map Prod.fst, ∀ number, FreshNames.name number ≠ name) :
    (ofFunction names params .bigInt).Hosts names.next (LocalReps.ofParams params) where
  base_le := Nat.le_refl _
  fresh := by
    intro number _ hmem
    rcases mem_of_foldl_insert _ hmem with hresult | hparam
    · have heq := List.mem_singleton.mp hresult
      exact FreshNames.ne_name_of_no_hash (by decide) number heq.symm
    · exact hplain _ hparam number rfl
  result := rfl
  resultParam := declared_ofFunction names params .bigInt List.mem_cons_self
  live := fun _ hnil => absurd hnil List.not_mem_nil
  locals := by
    intro name rep hrep
    refine ⟨name, get?_foldl_params ∅ _ (fun _ _ h => by cases h) name rep hrep, ?_⟩
    exact declared_ofFunction names params .bigInt
      (List.mem_cons_of_mem _ (LocalReps.mem_of_ofParams hrep))

private theorem isSome_bindParams {frame next : Frame} {args : List Value} (reps : LocalReps)
    (h : ∀ name rep, reps name = some rep → (frame.get? name).isSome)
    (hargs : args.length = params.length) (hbind : Routine.bindParams frame params args = .ok next)
    (name : String) (rep : Rep)
    (hrep : params.foldl (fun reps (name, rep) => LocalReps.set reps name rep) reps name =
      some rep) : (next.get? name).isSome := by
  induction params generalizing frame reps args with
  | nil =>
    cases hbind
    exact h name rep hrep
  | cons param params ih =>
    cases args with
    | nil => cases hargs
    | cons arg args =>
      obtain ⟨value, _, hbind⟩ := except_bind_eq_ok.mp hbind
      refine ih _ (fun key keyRep hkey => ?_) (Nat.succ.inj hargs) hbind hrep
      rw [Frame.bind, NameTable.get?_set]
      rcases LocalReps.set_eq_some.mp hkey with ⟨rfl, _⟩ | ⟨hne, hkey⟩
      · rw [if_pos rfl]
        rfl
      · rw [if_neg hne]
        exact h key keyRep hkey

private theorem Frame.agrees_bindParams {frame : Frame} {args : List Value} (names : FreshNames)
    (hargs : args.length = params.length) (hbind : Routine.bindParams ∅ params args = .ok frame)
    (hresult : Routine.resultParam ∉ params.map Prod.fst) (slot : Slot) :
    Frame.Agrees (frame.set Routine.resultParam slot) (ofFunction names params .bigInt)
      (LocalReps.ofParams params) frame.valuation where
  locals := by
    intro name rep hrep entry hentry
    have hlocal := get?_foldl_params ∅ _ (fun _ _ h => by cases h) name rep hrep
    cases hlocal.symm.trans hentry
    have hne : name ≠ Routine.resultParam := by
      rintro rfl
      exact hresult (LocalReps.mem_of_ofParams hrep)
    have hbound := isSome_bindParams _ (fun _ _ h => by cases h) hargs hbind name rep hrep
    obtain ⟨found, hfound⟩ := Option.isSome_iff_exists.mp hbound
    refine ⟨found, ?_, ?_⟩
    · rw [NameTable.get?_set, if_neg hne]
      exact hfound
    · simp only [Frame.valuation, hfound]
  result := ⟨slot.value, (frame.updated_set Routine.resultParam slot).holds⟩

end Params

/-- A routine with a result of unbounded integers computes what its body means for the arguments. -/
structure Routine.Computes (good : Callees → Prop) (routine : Routine)
    (meaning : Valuation → Except Value Value) : Prop where
  result : routine.result = .bigInt
  runs : ∀ (args : List Value) (frame : Frame), args.length = routine.params.length →
    bindParams ∅ routine.params args = .ok frame →
    frame.valuation.Fits (LocalReps.ofParams routine.params) →
    Instr.Runs good routine.body
      (frame.bind resultParam .bigInt Rep.bigInt.initial false) fun flow last =>
        (∃ value, flow = .ret value) ∧
          last.Holds resultParam (returned (meaning frame.valuation))

section Functions

variable {around : Surroundings} {good : Callees → Prop} {params : List (String × Rep)}
  {meaning : Valuation → Except Value Value}

/-- Staging a function succeeds: nothing is left over at the end that is never released. -/
theorem Staging.stageFunction_gives {body : Term} {names : FreshNames}
    (hplain : ∀ name ∈ params.map Prod.fst, ∀ number, FreshNames.name number ≠ name)
    (hresult : Routine.resultParam ∉ params.map Prod.fst)
    (hbody : body.Means around good names.next (LocalReps.ofParams params) .bigInt meaning)
    (name : String) :
    Gives (stageFunction around name params .bigInt body) { names } fun routine _ =>
      routine.name = name ∧ routine.params = params ∧ routine.Computes good meaning := by
  have hhosts := hosts_ofFunction names hplain
  obtain ⟨staged, middle, hstage, _, _, hruns⟩ :=
    hbody.stages _ ("result of " ++ name) hhosts
  have hensured : ensuring (stage around (some (.bigInt, "result of " ++ name)) body)
      (fun state => { state with result := none }) (ofFunction names params .bigInt) =
        .ok staged { middle with result := none } :=
    ensuring_eq_ok.mpr ⟨middle, hstage, rfl⟩
  -- All that is live when the body ends was allocated by it, and is released after it.
  obtain ⟨entries, hlive, hcleanup⟩ := ((stagesAs_plan around names.next body
    (some (.bigInt, "result of " ++ name)) (ofFunction names params .bigInt)).of_ok hstage).2.storage
  have hended : ({ middle with result := none } : StagingState).live = entries ++ [] := hlive
  have hclosed : Gives (close staged (.deref Routine.resultParam .bigInt))
      { middle with result := none } fun code after =>
        code = staged.into (.deref Routine.resultParam .bigInt) ∧ after.live = [] :=
    ⟨_, _, rfl, (close_last hended hcleanup _).of_ok rfl⟩
  have hentered : enterFunction params .bigInt { names } =
      .ok () (ofFunction names params .bigInt) := rfl
  simp only [Gives, stageFunction, bind_of_ok hentered, bind_of_ok hensured, pure_bind]
  refine hclosed.bind ?_
  rintro _ final ⟨rfl, hfinal⟩
  refine Gives.get.bind ?_
  rintro _ _ ⟨rfl, rfl⟩
  rw [hfinal]
  refine .pure ⟨rfl, rfl, rfl, fun args frame hargs hbind hfits => ?_⟩
  have hrun := hruns frame.valuation
    (frame.bind Routine.resultParam .bigInt Rep.bigInt.initial false) _ _ _ hfits
    (Frame.agrees_bindParams names hargs hbind hresult _) (.inr rfl) hhosts.resultParam
    (frame.updated_set Routine.resultParam _).holds
  cases hmeaning : meaning frame.valuation with
  | ok value =>
    rw [hmeaning] at hrun
    refine hrun.append (fun last hends => ?_) fun flow last hflow hends => absurd hends.1 hflow
    have hunit : last.Reads .unit .unit := .inl fun _ _ => rfl
    exact Instr.Runs.ret hunit ⟨⟨_, rfl⟩, hends.2.1⟩
  | error value =>
    rw [hmeaning] at hrun
    refine hrun.append (fun last hends => ?_) fun flow last _ hends => hends
    obtain ⟨⟨_, hnext⟩, _⟩ := hends
    cases hnext

/-- An expression with a meaning can be flattened as the body of a function. -/
private theorem flatten_gives {body : Expr} {reps : LocalReps} {rep : Rep}
    (hbody : body.Means around good reps rep meaning) (params : List (String × Ty))
    (names : FreshNames) :
    Gives (Function.flatten around.interface params body) names fun term after =>
      term.Serves around good after.next reps rep meaning := by
  simp only [Gives, Function.flatten]
  generalize List.foldl _ _ params = scope
  obtain ⟨term, flat, hflat, _, hserves⟩ := hbody.flattens { scope, names }
  rw [hflat]
  exact ⟨term, flat.names, rfl, hserves⟩

/-- A hygienic function compiles to a routine that computes what its body means. -/
theorem Function.Hygienic.compile_gives {function : Function} (hygienic : function.Hygienic)
    {signature : Signature} {rep : Rep}
    (hsignature : around.interface.signature function.name = some signature)
    (hlength : signature.params.length = function.params.length)
    (hparams : Function.partReps around function.pos (function.params.zip signature.params) =
      .ok params)
    (hresult : Rep.ofTy around function.pos signature.result = .ok .bigInt)
    (hreturn : Routine.resultParam ∉ function.params)
    (hbody : function.body.Means around good (LocalReps.ofParams params) rep meaning)
    (hwide : rep.Widens .bigInt) (options : CompileOptions) (names : FreshNames) :
    Gives (function.compile options around) names fun routine _ =>
      routine.name = function.name ∧ routine.params = params ∧
        routine.Computes good meaning := by
  have hnames : params.map Prod.fst = function.params := by
    rw [Function.partReps_names hparams]
    exact List.map_fst_zip (by omega)
  obtain ⟨term, middle, hflatten, hserves⟩ :=
    flatten_gives hbody (function.params.zip signature.params) names
  have hmeans := hserves.means middle.next .bigInt (Nat.le_refl _) hwide
  have hterm : (if options.fuse then term.fuse around else term) = term := by
    split
    · exact hmeans.unfused ∅
    · rfl
  have hplain : ∀ name ∈ params.map Prod.fst, ∀ number, FreshNames.name number ≠ name := by
    intro name hname number heq
    rw [hnames] at hname
    have hhash := hygienic.2 name (List.mem_append_left _ (List.mem_append_left _ hname))
    exact FreshNames.ne_name_of_no_hash hhash number heq.symm
  obtain ⟨routine, last, hstage, hroutine⟩ := Staging.stageFunction_gives hplain
    (hnames ▸ hreturn) hmeans function.name
  rw [← hterm] at hstage
  have hcompile := hygienic.compile_ok hsignature hlength hparams hresult hflatten hstage
  exact ⟨routine, last.names, hcompile, hroutine⟩

end Functions

namespace Routine.Computes

variable {good : Callees → Prop} {routine : Routine} {meaning : Valuation → Except Value Value}

private theorem byReference (h : routine.Computes good meaning) :
    routine.returnsByReference = true := by
  simp only [returnsByReference, h.result]
  rfl

private theorem exitValue_cases (h : routine.Computes good meaning) {last : Frame} {value : Value}
    (hholds : last.Holds resultParam value) (given : Value) :
    routine.exitValue last (.ret given) = .ok value ∨
      ∃ cause : RunError, cause.isLifetime = true ∧
        routine.exitValue last (.ret given) = .error cause := by
  obtain ⟨slot, hslot, rfl⟩ := hholds
  simp only [exitValue, h.byReference, if_true, Frame.read, hslot]
  cases last.firstLeak? with
  | some leaked => exact .inr ⟨_, rfl, rfl⟩
  | none =>
    cases slot.released with
    | true => exact .inr ⟨_, rfl, rfl⟩
    | false => exact .inl rfl

private theorem run_cases (h : routine.Computes good meaning) {args : List Value} {frame : Frame}
    (hargs : args.length = routine.params.length)
    (hbind : bindParams ∅ routine.params args = .ok frame)
    (hfits : frame.valuation.Fits (LocalReps.ofParams routine.params)) :
    ∃ cost, ∀ program callees registers fuel, good callees →
      (∃ store, routine.run program callees args ⟨registers, fuel + cost⟩ =
        .ok (returned (meaning frame.valuation)) store) ∨
      ∃ cause store, cause.isLifetime = true ∧
        routine.run program callees args ⟨registers, fuel + cost⟩ = .error cause store := by
  have hentry : routine.entryFrame args =
      .ok (frame.bind resultParam .bigInt Rep.bigInt.initial false) := by
    simp only [entryFrame, hargs, ne_eq, not_true_eq_false, if_false, hbind, except_ok_bind,
      h.byReference, if_true, h.result]
    rfl
  obtain ⟨cost, ⟨_, last, ⟨⟨given, rfl⟩, hholds⟩, hrun⟩ | ⟨cause, hlife, hfail⟩⟩ :=
    h.runs args frame hargs hbind hfits
  · refine ⟨cost, fun program callees registers fuel hgood => ?_⟩
    have hbody := hrun program callees registers fuel hgood
    unfold run
    simp only [hentry, hbody]
    rcases h.exitValue_cases hholds given with hexit | ⟨cause, hlife, hexit⟩
    · simp only [hexit]
      exact .inl ⟨_, rfl⟩
    · simp only [hexit]
      exact .inr ⟨cause, _, hlife, rfl⟩
  · refine ⟨cost, fun program callees registers fuel hgood => ?_⟩
    obtain ⟨final, hbody⟩ := hfail program callees registers fuel hgood
    unfold run
    simp only [hentry, hbody]
    exact .inr ⟨cause, _, hlife, rfl⟩

end Routine.Computes

/-- A machine of sound routines returns the result of a call, with fuel enough. -/
theorem Machine.call_eq_ok {good : Callees → Prop} {program : Program} {name : String}
    {routine : Routine} {meaning : Valuation → Except Value Value} {args : List Value}
    {frame : Frame} (hroutine : program.routine? name = some routine)
    (hsound : ∀ routine ∈ program.routines,
      ∃ disc post, routine.Sound (·.isLifetime = false) disc post)
    (hgood : ∀ depth, good (program.invoke (depth + 1))) (h : routine.Computes good meaning)
    (hargs : args.length = routine.params.length)
    (hbind : Routine.bindParams ∅ routine.params args = .ok frame)
    (hfits : frame.valuation.Fits (LocalReps.ofParams routine.params)) :
    ∃ enough, ∀ fuel, enough ≤ fuel → ((Machine.ofProgram program fuel).call name args).1 =
      .ok (returned (meaning frame.valuation)) := by
  obtain ⟨cost, hrun⟩ := h.run_cases hargs hbind hfits
  refine ⟨cost + 1, fun fuel hfuel => ?_⟩
  obtain ⟨rest, rfl⟩ : ∃ rest, fuel = rest + 1 + cost := ⟨fuel - (cost + 1), by omega⟩
  have hcall : program.call name args ⟨program.initialRegisters, rest + 1 + cost⟩ =
      routine.run program (program.invoke (rest + 1 + cost)) args
        ⟨program.initialRegisters, rest + 1 + cost⟩ := by
    simp only [Program.call, Program.invoke, hroutine]
  have hcallees : good (program.invoke (rest + 1 + cost)) := by
    rw [Nat.add_right_comm]
    exact hgood (rest + cost)
  rcases hrun program _ program.initialRegisters (rest + 1) hcallees with
    ⟨store, hok⟩ | ⟨cause, store, hlife, herror⟩
  · simp only [Machine.call, Machine.ofProgram, hcall, hok]
  · -- A breach is excluded, since all routines are sound.
    have hanswer : ((Machine.ofProgram program (rest + 1 + cost)).call name args).1 =
        .error cause := by
      simp only [Machine.call, Machine.ofProgram, hcall, herror]
    have hcalm := Machine.call_admit (fun _ hcause => hcause) hsound hanswer
    rw [hlife] at hcalm
    cases hcalm

end IsaBackend
