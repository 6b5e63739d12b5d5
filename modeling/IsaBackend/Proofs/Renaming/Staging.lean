import IsaBackend.Proofs.Renaming.Operands
import IsaBackend.Staging.Term

/-!
# Staging for every start of the supply

Every form of a term is staged uniformly. What its context asks for is the same for every start of the
supply, up to the names in the description of the context. A whole function therefore gives one routine
up to the numbers of generated names, or fails with one cause.
-/

namespace IsaBackend

open FreshNames (shift IsGenerated shift_injective shift_of_not_generated)
open Movable (move)

/-- Requests for every start of the supply that differ in the description of the context only. -/
inductive WantMoves : (Nat → Want) → Prop where
  | nothing : WantMoves fun _ => none
  | rep (target : Rep) {context : Nat → String} : TextMoves context →
      WantMoves fun offset => some (target, context offset)

/-- Stage terms uniformly, whatever is asked for. -/
def StagesUniformly (stages : Nat → Want → Staging Staged) : Prop :=
  ∀ (wants : Nat → Want) (state : StagingState), WantMoves wants →
    Uniform (fun offset => stages offset (wants offset)) state fun values _ => StagedMoves values

namespace Staging

variable {around : Surroundings} {state : StagingState}

private theorem repsOf_uniform (tys : List Ty) (state : StagingState) :
    Uniform (fun _ => repsOf around tys) state fun values _ => ∃ reps, values = fun _ => reps := by
  induction tys generalizing state with
  | nil => exact Uniform.pure ⟨[], rfl⟩
  | cons ty rest ih =>
    refine (repOf_uniform ty).bind ?_
    rintro _ middle ⟨⟨rep, rfl⟩, _⟩
    refine (ih middle).bind ?_
    rintro _ _ ⟨reps, rfl⟩
    exact Uniform.pure ⟨rep :: reps, rfl⟩

private theorem signature_uniform (callee : String) (args : List Atom) (ty : Ty) :
    Uniform (fun offset => signature around callee (Atom.renameAll (shift offset) args) ty) state
      fun values _ => ∃ reps, values = fun _ => reps := by
  have hgiven : ∀ (params : List Ty) (result : Ty), Uniform (fun _ => do
      let params ← repsOf around params
      return (params, ← repOf around result)) state fun values _ => ∃ reps, values = fun _ => reps := by
    intro params result
    refine (repsOf_uniform params state).bind ?_
    rintro _ middle ⟨reps, rfl⟩
    refine (repOf_uniform result).bind ?_
    rintro _ _ ⟨⟨rep, rfl⟩, _⟩
    exact Uniform.pure ⟨(reps, rep), rfl⟩
  unfold signature
  cases around.layouts.ctor? callee with
  | some found => exact Uniform.pure ⟨([found.2], found.1), rfl⟩
  | none =>
    cases around.interface.signature callee with
    | some signature => exact hgiven signature.params signature.result
    | none =>
      simp only [Atom.tys_renameAll]
      split
      · exact hgiven (Atom.tys args) ty
      · exact Uniform.throw (.same _)

private theorem loadArg_uniform (callee : String) (index : Nat) (arg : Atom) (h : arg.Proper)
    (param : Rep) :
    Uniform (fun offset => loadArg around callee index (arg.rename (shift offset)) param) state
      fun values _ => LoadedMoves values := by
  refine (load_uniform arg state h).bind ?_
  rintro _ middle ⟨loaded, rfl⟩
  have hrep : ∀ offset, (loaded.rename (shift offset)).value.rep = loaded.value.rep := fun offset =>
    Operand.rep_rename (shift offset) loaded.value
  simp only [hrep]
  cases loaded.value.rep.bridge? param with
  | none => exact Uniform.throw (.same _)
  | some bridge =>
    cases bridge with
    | identity => exact Uniform.pure ⟨loaded, rfl⟩
    | promote =>
      refine (tempFrom_uniform param loaded.value).bind ?_
      rintro _ _ ⟨name, init, rfl⟩
      refine Uniform.pure ⟨{
        setup := loaded.setup ++ [init]
        value := .name name param
        cleanup := Instr.releaseOf name param ++ loaded.cleanup }, funext fun offset => ?_⟩
      simp only [Loaded.rename, Instr.renameAll_append, Instr.renameAll, Operand.rename,
        Instr.renameAll_releaseOf]
    | _ =>
      refine (temp_uniform param).bind ?_
      rintro _ _ ⟨name, decl, rfl⟩
      refine Uniform.pure ⟨{
        setup := loaded.setup ++ [decl, .convert (.name name param) loaded.value]
        value := .name name param
        cleanup := loaded.cleanup }, funext fun offset => ?_⟩
      simp only [Loaded.rename, Instr.renameAll_append, Instr.renameAll, Instr.rename, Place.rename,
        Operand.rename]

private theorem loadArgs_uniform (callee : String) : ∀ (index : Nat) (args : List Atom)
    (params : List Rep) (state : StagingState), Atom.ProperAll args →
    Uniform (fun offset => loadArgs around callee index (Atom.renameAll (shift offset) args) params)
      state fun results _ => ∃ (setup : List Instr) (values : List Operand) (cleanup : List Instr),
        results = fun offset => (Instr.renameAll (shift offset) setup,
          values.map (Operand.rename (shift offset)), Instr.renameAll (shift offset) cleanup)
  | index, arg :: args, param :: params, state, ⟨harg, hargs⟩ => by
    refine (loadArg_uniform callee index arg harg param).bind ?_
    rintro _ middle ⟨loaded, rfl⟩
    refine (loadArgs_uniform callee (index + 1) args params middle hargs).bind ?_
    rintro _ _ ⟨setup, values, cleanup, rfl⟩
    refine Uniform.pure ⟨loaded.setup ++ setup, loaded.value :: values, cleanup ++ loaded.cleanup,
      funext fun offset => ?_⟩
    simp only [Loaded.rename, Instr.renameAll_append, List.map_cons]
  | _, [], _, _, _ => Uniform.pure ⟨[], [], [], rfl⟩
  | _, _ :: _, [], _, _ => Uniform.pure ⟨[], [], [], rfl⟩

private theorem stageCall_uniform (callee : String) (args : List Atom) (h : Atom.ProperAll args)
    (ty : Ty) :
    Uniform (fun offset => stageCall around callee (Atom.renameAll (shift offset) args) ty) state
      fun values _ => StagedMoves values := by
  refine (signature_uniform callee args ty).bind ?_
  rintro _ middle ⟨⟨params, result⟩, rfl⟩
  simp only [Atom.length_renameAll]
  split
  · exact Uniform.throw (.same _)
  · refine (loadArgs_uniform callee 0 args params middle h).bind ?_
    rintro _ _ ⟨setup, values, cleanup, rfl⟩
    refine Uniform.pure ⟨{
      setup, rep := result, deliver := fun dest => .call dest callee values, cleanup }, fun offset => ?_⟩
    exact { setup := rfl, rep := rfl, deliver := fun _ => rfl, cleanup := rfl }

private theorem grant_uniform {wants : Nat → Want} (hwants : WantMoves wants)
    {values : Nat → Staged} (h : StagedMoves values) :
    Uniform (fun offset => grant (wants offset) (values offset)) state fun values _ =>
      StagedMoves values := by
  cases hwants with
  | nothing => exact Uniform.pure h
  | rep target hcontext => exact coerce_uniform h target hcontext

private theorem stageField_uniform (record : Atom) (h : record.Proper) (field : String) (ty : Ty) :
    Uniform (fun offset => stageField around (record.rename (shift offset)) field ty) state
      fun values _ => StagedMoves values := by
  refine (load_uniform record state h).bind ?_
  rintro _ middle ⟨loaded, rfl⟩
  have hrep : ∀ offset, (loaded.rename (shift offset)).value.rep = loaded.value.rep := fun offset =>
    Operand.rep_rename (shift offset) loaded.value
  simp only [hrep]
  refine (Uniform.lift (fieldRep loaded.value.rep field)).bind ?_
  rintro _ _ ⟨⟨rep, _, rfl⟩, rfl⟩
  refine (repOf_uniform ty).bind ?_
  rintro _ _ ⟨⟨target, rfl⟩, rfl⟩
  refine coerce_uniform ⟨.ofLoaded { loaded with
    value := .inline (.field loaded.value.toInline field) rep }, fun offset => ?_⟩ target (.same _)
  have hvalue : (loaded.rename (shift offset)).value.toInline =
      loaded.value.toInline.rename (shift offset) := Operand.toInline_rename _ _
  rw [hvalue]
  exact Loaded.renames_ofLoaded (shift offset) _

private theorem storeFields_uniform (record : Place) : ∀ (fields : List (String × Atom))
    (state : StagingState), Atom.ProperFields fields →
    Uniform (fun offset => storeFields around (record.rename (shift offset))
      (Atom.renameFields (shift offset) fields)) state fun values _ => CodeMoves values
  | [], _, _ => Uniform.pure ⟨[], rfl⟩
  | (field, value) :: rest, state, ⟨hvalue, hrest⟩ => by
    simp only [Atom.renameFields, storeFields, Place.rep_rename]
    refine (Uniform.lift (fieldRep record.rep field)).bind ?_
    rintro _ _ ⟨⟨rep, _, rfl⟩, rfl⟩
    refine (storeAtom_uniform (.field record field rep) value hvalue (.same _)).bind ?_
    rintro _ middle ⟨store, rfl⟩
    refine (storeFields_uniform record rest middle hrest).bind ?_
    rintro _ _ ⟨stores, rfl⟩
    refine Uniform.pure ⟨store ++ stores, funext fun offset => ?_⟩
    simp only [Instr.renameAll_append]

private theorem stageUpdate_uniform (record : Atom) (hrecord : record.Proper)
    (fields : List (String × Atom)) (hfields : Atom.ProperFields fields) (ty : Ty) :
    Uniform (fun offset => stageUpdate around (record.rename (shift offset))
      (Atom.renameFields (shift offset) fields) ty) state fun values _ => StagedMoves values := by
  refine (repOf_uniform ty).bind ?_
  rintro _ _ ⟨⟨rep, rfl⟩, rfl⟩
  refine (temp_uniform rep).bind ?_
  rintro _ second ⟨name, decl, rfl⟩
  refine (storeAtom_uniform (.name name rep) record hrecord (.same _)).bind ?_
  rintro _ third ⟨copy, rfl⟩
  refine (storeFields_uniform (.name name rep) fields third hfields).bind ?_
  rintro _ _ ⟨stores, rfl⟩
  refine Uniform.pure ⟨.ofLoaded {
    setup := decl :: copy ++ stores
    value := .name name rep
    cleanup := Instr.releaseOf name rep }, fun offset => ?_⟩
  have hloaded := Loaded.renames_ofLoaded (shift offset) {
    setup := decl :: copy ++ stores
    value := .name name rep
    cleanup := Instr.releaseOf name rep }
  simp only [Loaded.rename, List.cons_append, Instr.renameAll, Instr.renameAll_append, Operand.rename,
    Instr.renameAll_releaseOf] at hloaded
  exact hloaded

/-- The result parameter is no name that could have been generated. -/
theorem shift_resultParam (offset : Nat) : shift offset Routine.resultParam = Routine.resultParam := by
  apply shift_of_not_generated
  apply FreshNames.not_isGenerated
  decide

private theorem leave_uniform (loaded : Loaded) (stores : List Instr) (returned : Operand) (rep : Rep)
    (state : StagingState) :
    Uniform (fun offset => (do
      settle (loaded.rename (shift offset)).cleanup
      let releases := (← get).live.map fun (name, rep) => Instr.release rep name
      return {
        setup := (loaded.rename (shift offset)).setup ++ Instr.renameAll (shift offset) stores ++
          (loaded.rename (shift offset)).cleanup ++ releases ++ [.ret (returned.rename (shift offset))]
        rep
        deliver := fun _ => .comment "unreachable"
        cleanup := [] } : Staging Staged)) state fun values _ => StagedMoves values := by
  refine (settle_uniform loaded.cleanup).bind fun _ second _ => ?_
  refine Uniform.get.bind ?_
  rintro _ last ⟨rfl, rfl⟩
  refine Uniform.pure ⟨{
    setup := loaded.setup ++ stores ++ loaded.cleanup ++
      (last.live.map fun (name, rep) => Instr.release rep name) ++ [.ret returned]
    rep
    deliver := fun _ => .comment "unreachable"
    cleanup := [] }, fun offset => ?_⟩
  have hlive : ∀ live : List (String × Rep), Instr.renameAll (shift offset)
      (live.map fun (name, rep) => Instr.release rep name) =
      (live.map fun entry => (shift offset entry.1, entry.2)).map fun (name, rep) =>
        Instr.release rep name := by
    intro live
    induction live with
    | nil => rfl
    | cons entry rest ih => exact congrArg (List.cons _) ih
  exact {
    setup := by
      simp only [Loaded.rename, Instr.renameAll_append, hlive]
      rfl
    rep := rfl
    deliver := fun _ => rfl
    cleanup := rfl }

private theorem stageReturn_uniform (value : Atom) (h : value.Proper) (rep : Rep) :
    Uniform (fun offset => stageReturn around (value.rename (shift offset)) rep) state
      fun values _ => StagedMoves values := by
  refine Uniform.get.bind ?_
  rintro _ here ⟨rfl, rfl⟩
  have hresult : ∀ offset, (move offset here).result = here.result := fun _ => rfl
  simp only [hresult]
  cases here.result with
  | none => exact Uniform.throw (.same _)
  | some result =>
    refine (load_uniform value here h).bind ?_
    rintro _ second ⟨loaded, rfl⟩
    by_cases hstack : result.isStack
    · simp only [hstack, if_true]
      refine (temp_uniform result).bind ?_
      rintro _ third ⟨slot, decl, rfl⟩
      refine (transfer_uniform (.name slot result) loaded.value (.same _)).bind ?_
      rintro _ fourth ⟨⟨store, rfl⟩, _⟩
      exact leave_uniform loaded [decl, store] (.name slot result) rep fourth
    · simp only [hstack]
      have htransfer := fun state => @transfer_uniform state (.deref Routine.resultParam result)
        loaded.value _ (.same "return")
      simp only [Place.rename, shift_resultParam] at htransfer
      refine (htransfer second).bind ?_
      rintro _ third ⟨⟨store, rfl⟩, _⟩
      exact leave_uniform loaded [store] .unit rep third

private theorem assigned_uniform (target : String) (htarget : ¬IsGenerated target) (ty : Ty) :
    Uniform (fun _ => assigned around target ty) state fun values _ =>
      ∃ dest : Place, values = fun offset => dest.rename (shift offset) := by
  refine Uniform.get.bind ?_
  rintro _ here ⟨rfl, rfl⟩
  have hget : ∀ offset, (move offset here).locals.get? target =
      (here.locals.get? target).map (Local.rename (shift offset)) := by
    intro offset
    have hrenamed : (move offset here).locals.get? (shift offset target) = _ :=
      NameTable.get?_mapNames (shift_injective offset) here.locals target
    rwa [shift_of_not_generated htarget] at hrenamed
  simp only [hget]
  cases here.locals.get? target with
  | some entry => exact Uniform.pure ⟨.name entry.name entry.rep, rfl⟩
  | none =>
    refine (repOf_uniform ty).bind ?_
    rintro _ _ ⟨⟨rep, rfl⟩, _⟩
    refine Uniform.pure ⟨.name target rep, funext fun offset => ?_⟩
    simp only [Place.rename, shift_of_not_generated htarget]

private theorem discard_uniform (ty : Ty) {stages : Nat → Want → Staging Staged}
    (h : StagesUniformly stages) (state : StagingState) :
    Uniform (fun offset => discard around ty (stages offset)) state fun values _ =>
      CodeMoves values := by
  refine (repOf_uniform ty).bind ?_
  rintro _ _ ⟨⟨rep, rfl⟩, rfl⟩
  refine (temp_uniform rep).bind ?_
  rintro _ second ⟨name, decl, rfl⟩
  refine (h _ second (.rep rep (.same _))).bind fun staged third hstaged => ?_
  refine (close_uniform hstaged (.name name rep)).bind ?_
  rintro _ fourth ⟨code, rfl⟩
  have hsettle := @settle_uniform fourth (Instr.releaseOf name rep)
  simp only [Instr.renameAll_releaseOf] at hsettle
  refine hsettle.bind fun _ _ _ => ?_
  refine Uniform.pure ⟨decl :: code ++ Instr.releaseOf name rep, funext fun offset => ?_⟩
  simp only [List.cons_append, Instr.renameAll, Instr.renameAll_append, Instr.renameAll_releaseOf]

private theorem stageCond_uniform (test : Atom) (htest : test.Proper)
    {onTrue onFalse : Nat → Want → Staging Staged} (htrue : StagesUniformly onTrue)
    (hfalse : StagesUniformly onFalse) (rep : Rep) (state : StagingState) :
    Uniform (fun offset => stageCond around (test.rename (shift offset)) (onTrue offset)
      (onFalse offset) rep) state fun values _ => StagedMoves values := by
  refine (load_uniform test state htest).bind ?_
  rintro _ second ⟨loaded, rfl⟩
  refine (temp_uniform .bool).bind ?_
  rintro _ third ⟨flag, decl, rfl⟩
  refine (transfer_uniform (.name flag .bool) loaded.value (.same _)).bind ?_
  rintro _ _ ⟨⟨store, rfl⟩, rfl⟩
  refine (settle_uniform loaded.cleanup).bind fun _ fourth _ => ?_
  refine (htrue _ fourth (.rep rep (.same _))).bind fun trueArms fifth htrueArms => ?_
  refine (settleStaged_uniform htrueArms).bind fun _ sixth _ => ?_
  refine (hfalse _ sixth (.rep rep (.same _))).bind fun falseArms seventh hfalseArms => ?_
  refine (settleStaged_uniform hfalseArms).bind fun _ _ _ => ?_
  obtain ⟨trueArm, htrueArm⟩ := htrueArms
  obtain ⟨falseArm, hfalseArm⟩ := hfalseArms
  refine Uniform.pure ⟨{
    setup := loaded.setup ++ [decl, store] ++ loaded.cleanup
    rep
    deliver := fun dest => .branch (.name flag .bool) (trueArm.into dest) (falseArm.into dest) rep
    cleanup := [] }, fun offset => ?_⟩
  exact {
    setup := by simp only [Loaded.rename, Instr.renameAll_append, Instr.renameAll]
    rep := rfl
    deliver := fun dest => by
      simp only [(htrueArm offset).into, (hfalseArm offset).into]
      rfl
    cleanup := rfl }

private theorem stageLoop_uniform (kind : LoopTest) {tests bodies : Nat → Want → Staging Staged}
    (htests : StagesUniformly tests) (bodyTy : Ty) (hbodies : StagesUniformly bodies)
    (state : StagingState) :
    Uniform (fun offset => stageLoop around kind (tests offset) bodyTy (bodies offset)) state
      fun values _ => StagedMoves values := by
  refine (temp_uniform .bool).bind ?_
  rintro _ second ⟨flag, decl, rfl⟩
  refine (htests _ second (.rep .bool (.same _))).bind fun staged third hstaged => ?_
  refine (close_uniform hstaged (.name flag .bool)).bind ?_
  rintro _ fourth ⟨testCode, rfl⟩
  refine (discard_uniform bodyTy hbodies fourth).bind ?_
  rintro _ _ ⟨bodyCode, rfl⟩
  cases kind with
  | whileTrue =>
    refine Uniform.pure ⟨.effect [decl, .loop (testCode ++
      [leaveIf (.inline (.not (.name flag)) .bool)] ++ bodyCode)], fun offset => ?_⟩
    have heffect := Staged.renames_effect (shift offset) [decl, .loop (testCode ++
      [leaveIf (.inline (.not (.name flag)) .bool)] ++ bodyCode)]
    simp only [Instr.renameAll, Instr.rename, Instr.renameAll_append] at heffect
    exact heffect
  | untilTrue =>
    refine Uniform.pure ⟨.effect [decl, .loop (bodyCode ++ testCode ++
      [leaveIf (.name flag .bool)])], fun offset => ?_⟩
    have heffect := Staged.renames_effect (shift offset) [decl, .loop (bodyCode ++ testCode ++
      [leaveIf (.name flag .bool)])]
    simp only [Instr.renameAll, Instr.rename, Instr.renameAll_append] at heffect
    exact heffect

private theorem stageCount_uniform (var : String) (first last step : Atom) (hfirst : first.Proper)
    (hlast : last.Proper) (hstep : step.Proper) (direction : Direction) (bodyTy : Ty)
    {bodies : Nat → Want → Staging Staged} (hbodies : StagesUniformly bodies)
    (state : StagingState) :
    Uniform (fun offset => stageCount around (shift offset var) (first.rename (shift offset))
      (last.rename (shift offset)) (step.rename (shift offset)) direction bodyTy (bodies offset)) state
      fun values _ => StagedMoves values := by
  refine (localName_uniform var).bind ?_
  rintro _ _ ⟨counter, rfl⟩
  refine (storeAtom_uniform (.name counter .machInt) first hfirst (.same _)).bind ?_
  rintro _ _ ⟨start, rfl⟩
  refine (temp_uniform .machInt).bind ?_
  rintro _ _ ⟨limit, limitDecl, rfl⟩
  refine (storeAtom_uniform (.name limit .machInt) last hlast (.same _)).bind ?_
  rintro _ _ ⟨setLimit, rfl⟩
  refine (temp_uniform .machInt).bind ?_
  rintro _ _ ⟨stride, strideDecl, rfl⟩
  refine (storeAtom_uniform (.name stride .machInt) step hstep (.same _)).bind ?_
  rintro _ inner ⟨setStride, rfl⟩
  refine (within_uniform inner var ⟨counter, .machInt⟩ (discard_uniform bodyTy hbodies)).bind ?_
  rintro _ _ ⟨bodyCode, rfl⟩
  have heffect : ∀ (past advance : Operator), StagedMoves fun offset => .effect
      (.decl .machInt (shift offset counter) :: Instr.renameAll (shift offset) start ++
        limitDecl.rename (shift offset) :: Instr.renameAll (shift offset) setLimit ++
        strideDecl.rename (shift offset) :: Instr.renameAll (shift offset) setStride ++
        [.loop (leaveIf (.inline (.binary past (.name (shift offset counter))
            (.name (shift offset limit))) .bool) :: Instr.renameAll (shift offset) bodyCode ++
          [.assign (.name (shift offset counter) .machInt) (.inline (.binary advance
            (.name (shift offset counter)) (.name (shift offset stride))) .machInt)])]) := by
    intro past advance
    refine ⟨.effect (.decl .machInt counter :: start ++ limitDecl :: setLimit ++
      strideDecl :: setStride ++ [.loop (leaveIf (.inline (.binary past (.name counter)
        (.name limit)) .bool) :: bodyCode ++ [.assign (.name counter .machInt)
        (.inline (.binary advance (.name counter) (.name stride)) .machInt)])]), fun offset => ?_⟩
    have hrenames := Staged.renames_effect (shift offset) (.decl .machInt counter :: start ++
      limitDecl :: setLimit ++ strideDecl :: setStride ++ [.loop (leaveIf (.inline (.binary past
        (.name counter) (.name limit)) .bool) :: bodyCode ++ [.assign (.name counter .machInt)
        (.inline (.binary advance (.name counter) (.name stride)) .machInt)])])
    simp only [List.cons_append, Instr.renameAll, Instr.rename, Instr.renameAll_append] at hrenames
    exact hrenames
  cases direction with
  | inc => exact Uniform.pure (heffect .gt .add)
  | dec => exact Uniform.pure (heffect .lt .sub)

private theorem staged_after {values : Nat → Staged} (h : StagedMoves values) (code : List Instr)
    (cleanup : List Instr) :
    StagedMoves fun offset => { values offset with
      setup := Instr.renameAll (shift offset) code ++ (values offset).setup
      cleanup := (values offset).cleanup ++ Instr.renameAll (shift offset) cleanup } := by
  obtain ⟨staged, hstaged⟩ := h
  refine ⟨{ staged with
    setup := code ++ staged.setup
    cleanup := staged.cleanup ++ cleanup }, fun offset => ?_⟩
  exact { hstaged offset with
    setup := by simp only [(hstaged offset).setup, Instr.renameAll_append]
    cleanup := by simp only [(hstaged offset).cleanup, Instr.renameAll_append] }

mutual

private theorem stage_uniform : ∀ (term : Term), term.Proper →
    StagesUniformly fun offset want => stage around want (term.rename (shift offset))
  | .atom value, h => by
    intro wants state hwants
    refine (load_uniform value state h).bind ?_
    rintro _ _ ⟨loaded, rfl⟩
    exact grant_uniform hwants ⟨.ofLoaded loaded, fun offset => loaded.renames_ofLoaded (shift offset)⟩
  | .call callee args ty, h => by
    intro wants state hwants
    refine (stageCall_uniform callee args h ty).bind fun values _ hvalues => ?_
    exact grant_uniform hwants hvalues
  | .cast inner ty, h => by
    intro wants state hwants
    cases hwants with
    | nothing =>
      refine (repOf_uniform ty).bind ?_
      rintro _ middle ⟨⟨rep, rfl⟩, _⟩
      exact stage_uniform inner h _ middle (.rep rep (.same _))
    | rep target hcontext => exact stage_uniform inner h _ state (.rep target hcontext)
  | .assign target ty value, ⟨htarget, hvalue⟩ => by
    intro wants state hwants
    simp only [Term.rename, shift_of_not_generated htarget, stage]
    refine (assigned_uniform target htarget ty).bind ?_
    rintro _ second ⟨dest, rfl⟩
    simp only [Place.rep_rename]
    refine (stage_uniform value hvalue _ second (.rep dest.rep (.same _))).bind fun staged third
      hstaged => ?_
    refine (close_uniform hstaged dest).bind ?_
    rintro _ _ ⟨code, rfl⟩
    exact grant_uniform hwants ⟨.effect code, fun offset => Staged.renames_effect (shift offset) code⟩
  | .bind name ty init body _, ⟨hinit, hbody⟩ => by
    intro wants state hwants
    refine (repOf_uniform ty).bind ?_
    rintro _ _ ⟨⟨rep, rfl⟩, _⟩
    refine (localName_uniform name).bind ?_
    rintro _ third ⟨codeName, rfl⟩
    refine (declare_uniform codeName rep).bind ?_
    rintro _ fourth ⟨decl, rfl⟩
    have hcontext := ((TextMoves.shift name).between "binding of '" "'")
    refine (stage_uniform init hinit _ fourth (.rep rep hcontext)).bind fun inits fifth hinits => ?_
    refine (close_uniform hinits (.name codeName rep)).bind ?_
    rintro _ sixth ⟨initCode, rfl⟩
    refine (within_uniform sixth name ⟨codeName, rep⟩ fun state =>
      stage_uniform body hbody wants state hwants).bind fun bodies _ hbodies => ?_
    have hstaged := staged_after hbodies (decl :: initCode) (Instr.releaseOf codeName rep)
    simp only [Instr.renameAll, Instr.renameAll_releaseOf] at hstaged
    exact Uniform.pure hstaged
  | .block stmts last _, ⟨hstmts, hlast⟩ => by
    intro wants state hwants
    refine (stageAll_uniform stmts hstmts state).bind ?_
    rintro _ middle ⟨code, rfl⟩
    refine (stage_uniform last hlast wants middle hwants).bind fun values _ hvalues => ?_
    have hstaged := staged_after hvalues code []
    simp only [Instr.renameAll, List.append_nil] at hstaged
    exact Uniform.pure hstaged
  | .ret value ty, h => by
    intro wants state hwants
    cases hwants with
    | nothing => exact stageReturn_uniform value h (claimedRep around ty)
    | rep target _ => exact stageReturn_uniform value h target
  | .cond test onTrue onFalse ty, ⟨htest, htrue, hfalse⟩ => by
    intro wants state hwants
    have htrues := stage_uniform onTrue htrue
    have hfalses := stage_uniform onFalse hfalse
    cases hwants with
    | nothing =>
      refine (repOf_uniform ty).bind ?_
      rintro _ middle ⟨⟨rep, rfl⟩, _⟩
      exact stageCond_uniform test htest htrues hfalses rep middle
    | rep target _ => exact stageCond_uniform test htest htrues hfalses target state
  | .field record key ty, h => by
    intro wants state hwants
    refine (stageField_uniform record h key ty).bind fun values _ hvalues => ?_
    exact grant_uniform hwants hvalues
  | .update record fields ty, ⟨hrecord, hfields⟩ => by
    intro wants state hwants
    refine (stageUpdate_uniform record hrecord fields hfields ty).bind fun values _ hvalues => ?_
    exact grant_uniform hwants hvalues
  | .count var first last step direction body, ⟨hfirst, hlast, hstep, hbody⟩ => by
    intro wants state hwants
    simp only [Term.rename, stage, Term.ty_rename]
    refine (stageCount_uniform var first last step hfirst hlast hstep direction body.ty
      (stage_uniform body hbody) state).bind fun values _ hvalues => ?_
    exact grant_uniform hwants hvalues
  | .loop kind test body, ⟨htest, hbody⟩ => by
    intro wants state hwants
    simp only [Term.rename, stage, Term.ty_rename]
    refine (stageLoop_uniform kind (stage_uniform test htest) body.ty (stage_uniform body hbody)
      state).bind fun values _ hvalues => ?_
    exact grant_uniform hwants hvalues

theorem stageAll_uniform : ∀ (stmts : List Term), Term.ProperAll stmts → ∀ state : StagingState,
    Uniform (fun offset => stageAll around (Term.renameAll (shift offset) stmts)) state
      fun values _ => CodeMoves values
  | [], _ => fun _ => Uniform.pure ⟨[], rfl⟩
  | stmt :: rest, ⟨hstmt, hrest⟩ => by
    intro state
    simp only [Term.renameAll, stageAll, Term.ty_rename]
    refine (discard_uniform stmt.ty (stage_uniform stmt hstmt) state).bind ?_
    rintro _ middle ⟨code, rfl⟩
    refine (stageAll_uniform rest hrest middle).bind ?_
    rintro _ _ ⟨others, rfl⟩
    exact Uniform.pure ⟨code ++ others, funext fun offset =>
      (Instr.renameAll_append (shift offset) code others).symm⟩

end

private theorem map_params {α : Type} (offset : Nat) {params : List (String × α)}
    (h : ∀ param ∈ params, ¬IsGenerated param.1) :
    (params.map fun param => (shift offset param.1, param.2)) = params := by
  induction params with
  | nil => rfl
  | cons param rest ih =>
    obtain ⟨hparam, hrest⟩ := List.forall_mem_cons.mp h
    simp only [List.map_cons, shift_of_not_generated hparam, ih hrest]

/-- Parameters keep their names, so a function is entered uniformly. -/
theorem enterFunction_uniform {params : List (String × Rep)}
    (hparams : ∀ param ∈ params, ¬IsGenerated param.1) (result : Rep) :
    Uniform (fun _ => enterFunction params result) state fun _ _ => True := by
  have hlocals : ∀ (offset : Nat) (params : List (String × Rep)) (table : NameTable Local),
      (∀ param ∈ params, ¬IsGenerated param.1) →
      (params.foldl (fun locals (name, rep) => locals.set name ⟨name, rep⟩) table).mapNames
        (shift offset) (Local.rename (shift offset)) =
      params.foldl (fun locals (name, rep) => locals.set name ⟨name, rep⟩)
        (table.mapNames (shift offset) (Local.rename (shift offset))) := by
    intro offset params
    induction params with
    | nil => exact fun _ _ => rfl
    | cons param rest ih =>
      intro table h
      obtain ⟨hparam, hrest⟩ := List.forall_mem_cons.mp h
      simp only [List.foldl_cons, ih _ hrest, NameTable.mapNames_set (shift_injective offset),
        Local.rename, shift_of_not_generated hparam]
  have hdeclared : ∀ (offset : Nat) (params : List (String × Rep)) (names : List String),
      (∀ param ∈ params, ¬IsGenerated param.1) →
      (params.foldl (fun declared (name, _) => declared.insert name) names).map (shift offset) =
      params.foldl (fun declared (name, _) => declared.insert name) (names.map (shift offset)) := by
    intro offset params
    induction params with
    | nil => exact fun _ _ => rfl
    | cons param rest ih =>
      intro names h
      obtain ⟨hparam, hrest⟩ := List.forall_mem_cons.mp h
      simp only [List.foldl_cons, ih _ hrest, map_insert (shift_injective offset),
        shift_of_not_generated hparam]
  refine (Uniform.modify {
    names := state.names
    locals := params.foldl (fun locals (name, rep) => locals.set name ⟨name, rep⟩) ∅
    declared := params.foldl (fun declared (name, _) => declared.insert name) [Routine.resultParam]
    live := []
    result := some result } fun offset => ?_).mono fun _ _ _ => trivial
  have hl := hlocals offset params ∅ hparams
  have hd := hdeclared offset params [Routine.resultParam] hparams
  simp only [List.map_cons, List.map_nil, shift_resultParam] at hd
  simp only [move, hl, hd]
  rfl

private theorem finish_uniform (name : String) {params : List (String × Rep)}
    (hparams : ∀ param ∈ params, ¬IsGenerated param.1) (result : Rep) (code : List Instr)
    (state : StagingState) :
    Uniform (fun offset => (do
      match (← get).live with
      | (leaked, _) :: _ => throw (.neverReleased leaked name)
      | [] => return { name, params, result, body := Instr.renameAll (shift offset) code } :
        Staging Routine)) state
      fun values _ => ∃ routine : Routine, values = fun offset => routine.rename (shift offset) := by
  refine Uniform.get.bind ?_
  rintro _ here ⟨rfl, rfl⟩
  have hlive : ∀ offset, (move offset here).live =
      here.live.map fun entry => (shift offset entry.1, entry.2) := fun _ => rfl
  simp only [hlive]
  cases here.live with
  | nil =>
    refine Uniform.pure ⟨{ name, params, result, body := code }, funext fun offset => ?_⟩
    simp only [Routine.rename, map_params offset hparams]
  | cons entry rest => exact Uniform.throw (.neverReleased entry.1 name)

/-- The code of a function is the same for every start of the supply, up to the numbers of generated
names. -/
theorem stageFunction_uniform (name : String) {params : List (String × Rep)}
    (hparams : ∀ param ∈ params, ¬IsGenerated param.1) (result : Rep) (body : Term)
    (hbody : body.Proper) :
    Uniform (fun offset => stageFunction around name params result (body.rename (shift offset))) state
      fun values _ => ∃ routine : Routine, values = fun offset => routine.rename (shift offset) := by
  refine (enterFunction_uniform hparams result).bind fun _ entered _ => ?_
  have hstage : Uniform (fun offset => stage around (some (result, "result of " ++ name))
      (body.rename (shift offset))) entered fun values _ => StagedMoves values :=
    stage_uniform body hbody _ entered (.rep result (.same _))
  refine (hstage.ensuring (fun state => { state with result := none }) fun _ _ => rfl).bind ?_
  rintro staged left ⟨_, hstaged, _⟩
  by_cases hstack : result.isStack
  · simp only [hstack, if_true]
    refine fresh_uniform.bind ?_
    rintro _ second ⟨slot, rfl⟩
    refine (close_uniform hstaged (.name slot result)).bind ?_
    rintro _ third ⟨code, rfl⟩
    have hfinish := finish_uniform name hparams result
      (.decl result slot :: code ++ [.ret (.name slot result)]) third
    simp only [List.cons_append, Instr.renameAll, Instr.renameAll_append] at hfinish
    exact hfinish
  · simp only [hstack]
    have hclose := @close_uniform left staged hstaged (.deref Routine.resultParam result)
    simp only [Place.rename, shift_resultParam] at hclose
    refine hclose.bind ?_
    rintro _ second ⟨code, rfl⟩
    have hfinish := finish_uniform name hparams result (code ++ [.ret .unit]) second
    simp only [Instr.renameAll, Instr.renameAll_append] at hfinish
    exact hfinish

end Staging

end IsaBackend
