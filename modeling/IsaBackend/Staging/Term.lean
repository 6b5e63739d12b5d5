import IsaBackend.Staging.Call

/-!
# Staging terms

A term is staged in its own representation, or in one that its context asks for. Branches,
bindings and blocks pass the request on to what gives their value, so nothing is ever converted
around a branch that may return early.
-/

namespace IsaBackend

/-- The representation that a context asks for, and a description of the context. -/
abbrev Want := Option (Rep × String)

namespace Staging

def grant (want : Want) (staged : Staged) : Staging Staged :=
  match want with
  | some (target, context) => coerce staged target context
  | none => return staged

def fieldRep (record : Rep) (field : String) : Except CompileError Rep :=
  match record.fields.lookup field with
  | some rep => .ok rep
  | none => .error (.unknownField record field)

def stageField (around : Surroundings) (record : Atom) (field : String) (ty : Ty) :
    Staging Staged := do
  let loaded ← load around record
  let rep ← lift (fieldRep loaded.value.rep field)
  let value := Operand.inline (.field loaded.value.toInline field) rep
  let target ← repOf around ty
  coerce (.ofLoaded { loaded with value }) target "field access"

def storeFields (around : Surroundings) (record : Place) :
    List (String × Atom) → Staging (List Instr)
  | [] => return []
  | (field, value) :: rest => do
    let rep ← lift (fieldRep record.rep field)
    let store ← storeAtom around (.field record field rep) value ("field '" ++ field ++ "'")
    return store ++ (← storeFields around record rest)

/-- A copy of a record with some fields replaced, in the order given. -/
def stageUpdate (around : Surroundings) (record : Atom) (fields : List (String × Atom))
    (ty : Ty) : Staging Staged := do
  let rep ← repOf around ty
  let (name, decl) ← temp rep
  let dest := Place.name name rep
  let copy ← storeAtom around dest record "record update"
  let stores ← storeFields around dest fields
  return .ofLoaded {
    setup := decl :: copy ++ stores
    value := .name name rep
    cleanup := Instr.releaseOf name rep }

/-- A return: store the result, release everything that is live and leave. It gives no value, so
it takes any representation. -/
def stageReturn (around : Surroundings) (value : Atom) (rep : Rep) : Staging Staged := do
  match (← get).result with
  | none => throw .returnOutsideFunction
  | some result =>
    let loaded ← load around value
    let (stores, returned) ←
      if result.isStack then
        let (slot, decl) ← temp result
        let store ← lift (Instr.transfer (.name slot result) loaded.value "return")
        pure ([decl, store], Operand.name slot result)
      else
        let dest := Place.deref Routine.resultParam result
        let store ← lift (Instr.transfer dest loaded.value "return")
        pure ([store], Operand.unit)
    settle loaded.cleanup
    let releases := (← get).live.map fun (name, rep) => Instr.release rep name
    return {
      setup := loaded.setup ++ stores ++ loaded.cleanup ++ releases ++ [.ret returned]
      rep
      deliver := fun _ => .comment "unreachable"
      cleanup := [] }

/-- The place that an assignment writes: a local, or else a register of a type. -/
def assigned (around : Surroundings) (target : String) (ty : Ty) : Staging Place := do
  match (← get).locals.get? target with
  | some entry => return .name entry.name entry.rep
  | none => return .name target (← repOf around ty)

/-- Run a computation for its effect: its value goes to a local that is released at once. -/
def discard (around : Surroundings) (ty : Ty) (stage : Want → Staging Staged) :
    Staging (List Instr) := do
  let rep ← repOf around ty
  let (name, decl) ← temp rep
  let staged ← stage (some (rep, "statement"))
  let code ← close staged (.name name rep)
  let cleanup := Instr.releaseOf name rep
  settle cleanup
  return decl :: code ++ cleanup

/-- A branch whose arms write the same place. -/
def stageCond (around : Surroundings) (test : Atom) (onTrue onFalse : Want → Staging Staged)
    (rep : Rep) : Staging Staged := do
  let loaded ← load around test
  let (flag, decl) ← temp .bool
  let store ← lift (Instr.transfer (.name flag .bool) loaded.value "condition")
  settle loaded.cleanup
  let trueArm ← onTrue (some (rep, "then branch"))
  settle trueArm.cleanup
  let falseArm ← onFalse (some (rep, "else branch"))
  settle falseArm.cleanup
  return {
    setup := loaded.setup ++ [decl, store] ++ loaded.cleanup
    rep
    deliver := fun dest => .branch (.name flag .bool) (trueArm.into dest) (falseArm.into dest) rep
    cleanup := [] }

/-- Leave a loop if a test holds. -/
def leaveIf (test : Operand) : Instr := .branch test [.leave] [] .unit

/-- A conditional loop. The condition is evaluated and released before it is tested. -/
def stageLoop (around : Surroundings) (kind : LoopTest) (test : Want → Staging Staged)
    (bodyTy : Ty) (body : Want → Staging Staged) : Staging Staged := do
  let (flag, decl) ← temp .bool
  let testCode ← close (← test (some (.bool, "loop condition"))) (.name flag .bool)
  let bodyCode ← discard around bodyTy body
  let rounds := match kind with
    | .whileTrue => testCode ++ [leaveIf (.inline (.not (.name flag)) .bool)] ++ bodyCode
    | .untilTrue => bodyCode ++ testCode ++ [leaveIf (.name flag .bool)]
  return .effect [decl, .loop rounds]

/-- A loop over machine integers. The counter moves after each round and is tested before. -/
def stageCount (around : Surroundings) (var : String) (first last step : Atom)
    (direction : Direction) (bodyTy : Ty) (body : Want → Staging Staged) : Staging Staged := do
  let counter ← localName var
  let start ← storeAtom around (.name counter .machInt) first "loop start"
  let (limit, limitDecl) ← temp .machInt
  let setLimit ← storeAtom around (.name limit .machInt) last "loop end"
  let (stride, strideDecl) ← temp .machInt
  let setStride ← storeAtom around (.name stride .machInt) step "loop step"
  let (past, advance) := match direction with
    | .inc => (Operator.gt, Operator.add)
    | .dec => (Operator.lt, Operator.sub)
  let stop := Inline.binary past (.name counter) (.name limit)
  let next := Inline.binary advance (.name counter) (.name stride)
  let bodyCode ← within var ⟨counter, .machInt⟩ (discard around bodyTy body)
  let rounds := leaveIf (.inline stop .bool) :: bodyCode ++
    [.assign (.name counter .machInt) (.inline next .machInt)]
  return .effect (.decl .machInt counter :: start ++ limitDecl :: setLimit ++
    strideDecl :: setStride ++ [.loop rounds])

/-- The representation that a return claims when nothing is asked for. -/
def claimedRep (around : Surroundings) (ty : Ty) : Rep :=
  match Rep.ofTy around .generated ty with
  | .ok rep => rep
  | .error _ => .unit

mutual

/-- Stage a term, in its own representation or in the one that is asked for. -/
def stage (around : Surroundings) (want : Want) : Term → Staging Staged
  | .atom value => do grant want (.ofLoaded (← load around value))
  | .call callee args ty => do grant want (← stageCall around callee args ty)
  | .cast inner ty =>
    match want with
    | some _ => stage around want inner
    | none => do stage around (some (← repOf around ty, "cast")) inner
  | .assign target ty value => do
    let dest ← assigned around target ty
    let staged ← stage around (some (dest.rep, "assignment to '" ++ target ++ "'")) value
    grant want (.effect (← close staged dest))
  | .bind name ty init body _ => do
    let rep ← repOf around ty
    let codeName ← localName name
    let decl ← declare codeName rep
    let init ← stage around (some (rep, "binding of '" ++ name ++ "'")) init
    let initCode ← close init (.name codeName rep)
    let body ← within name ⟨codeName, rep⟩ (stage around want body)
    return { body with
      setup := decl :: initCode ++ body.setup
      cleanup := body.cleanup ++ Instr.releaseOf codeName rep }
  | .block stmts last _ => do
    let code ← stageAll around stmts
    let last ← stage around want last
    return { last with setup := code ++ last.setup }
  | .ret value ty =>
    match want with
    | some (target, _) => stageReturn around value target
    | none => stageReturn around value (claimedRep around ty)
  | .cond test onTrue onFalse ty => do
    let rep ← match want with
      | some (target, _) => pure target
      | none => repOf around ty
    stageCond around test (fun want => stage around want onTrue)
      (fun want => stage around want onFalse) rep
  | .field record key ty => do grant want (← stageField around record key ty)
  | .update record fields ty => do grant want (← stageUpdate around record fields ty)
  | .count var first last step direction body => do
    grant want (← stageCount around var first last step direction body.ty
      fun want => stage around want body)
  | .loop kind test body => do
    grant want (← stageLoop around kind (fun want => stage around want test) body.ty
      fun want => stage around want body)

def stageAll (around : Surroundings) : List Term → Staging (List Instr)
  | [] => return []
  | stmt :: rest => do
    let code ← discard around stmt.ty fun want => stage around want stmt
    return code ++ (← stageAll around rest)

end

/-- Forget everything but the fresh names, and declare parameters. -/
def enterFunction (params : List (String × Rep)) (result : Rep) : Staging Unit :=
  modify fun state => {
    names := state.names
    locals := params.foldl (fun locals (name, rep) => locals.set name ⟨name, rep⟩) ∅
    declared := params.foldl (fun declared (name, _) => declared.insert name) [Routine.resultParam]
    live := []
    result := some result }

/-- The code of a function. A stack result is collected in a local that the code returns; a heap
result is written to the result parameter, and the code returns unit. -/
def stageFunction (around : Surroundings) (name : String) (params : List (String × Rep))
    (result : Rep) (body : Term) : Staging Routine := do
  enterFunction params result
  let staged ← ensuring (stage around (some (result, "result of " ++ name)) body)
    fun state => { state with result := none }
  let code ←
    if result.isStack then
      let slot ← fresh
      let code ← close staged (.name slot result)
      pure (.decl result slot :: code ++ [.ret (.name slot result)])
    else
      let code ← close staged (.deref Routine.resultParam result)
      pure (code ++ [.ret .unit])
  match (← get).live with
  | (leaked, _) :: _ => throw (.neverReleased leaked name)
  | [] => return { name, params, result, body := code }

end Staging

end IsaBackend
