import IsaBackend.Code.Basic
import IsaBackend.Lifetime.Error
import IsaBackend.Names.Ascending

/-!
# The lifetime discipline

The check follows every path through a routine. A path carries the stack of storage that is live
on it and the set of names released on it. Allocating pushes a name, and a release has to name the
top of the stack. A path that returns, reaches the end or leaves a loop must have nothing left
that it allocated. The arms of a branch are followed separately; equal states that meet again are
followed once.
-/

namespace IsaBackend

/-- What is known of one path through a routine. -/
structure PathState where
  /-- The live names, the last allocated one first. -/
  live : List String := []
  released : NameSet := ∅
  deriving DecidableEq

namespace PathState

/-- A name can be used unless it was released. -/
def use (state : PathState) (name : String) : Except LifetimeError Unit :=
  if state.released.contains name then .error (.useAfterRelease name) else .ok ()

/-- An operand can be read if its integers fit machine words and its name can be used. -/
def read (state : PathState) (operand : Operand) : Except LifetimeError Unit :=
  match operand with
  | .name key _ => state.use key
  | .inline expr _ =>
    if expr.fitsMachineWord then
      match expr.root? with
      | some key => state.use key
      | none => .ok ()
    else .error (.wideConstant expr)

def readAll (state : PathState) : List Operand → Except LifetimeError Unit
  | [] => .ok ()
  | operand :: rest => do
    state.read operand
    state.readAll rest

def write (state : PathState) (dest : Place) : Except LifetimeError Unit := state.use dest.root

def allocate (state : PathState) (name : String) : Except LifetimeError PathState :=
  if state.live.contains name then .error (.doubleAlloc name)
  else .ok { live := name :: state.live, released := state.released.erase name }

/-- Release the name on top of the stack. -/
def release (state : PathState) (name : String) : Except LifetimeError PathState :=
  match state.live with
  | top :: rest =>
    if top = name then .ok { live := rest, released := state.released.insert name }
    else if rest.contains name then .error (.outOfOrder top name)
    else if state.released.contains name then .error (.doubleRelease name)
    else .error (.releaseUnallocated name)
  | [] =>
    if state.released.contains name then .error (.doubleRelease name)
    else .error (.releaseUnallocated name)

/-- Nothing may be live any more. -/
def settled (state : PathState) (leak : String → LifetimeError) : Except LifetimeError Unit :=
  match state.live with
  | name :: _ => .error (leak name)
  | [] => .ok ()

/-- Keep the first of several equal states. -/
def distinct (states : List PathState) : List PathState :=
  (states.foldl (fun kept state => if state ∈ kept then kept else state :: kept) []).reverse

/-- Every state has the live stack of another one. -/
def balanced (entry : PathState) (states : List PathState) : Except LifetimeError Unit :=
  if states.all fun state => state.live = entry.live then .ok () else .error .unbalancedLoop

end PathState

/-- How the states that meet after an instruction are combined. -/
abbrev Meeting := List PathState → List PathState

/-- Follow several states one after the other and collect where they lead. -/
def followEach (step : PathState → Except LifetimeError (List PathState)) :
    List PathState → Except LifetimeError (List PathState)
  | [] => .ok []
  | state :: rest => do
    let ends ← step state
    return ends ++ (← followEach step rest)

mutual

/-- The states that a state can reach by falling through an instruction. Inside a loop, `entry`
is the state at its start. -/
def Instr.follow (meet : Meeting) (entry : Option PathState) (state : PathState) :
    Instr → Except LifetimeError (List PathState)
  | .alloc _ name => do return [← state.allocate name]
  | .init _ name value => do
    state.read value
    return [← state.allocate name]
  | .release _ name => do return [← state.release name]
  | .branch test onTrue onFalse _ => do
    state.read test
    let trueEnds ← Instr.followAll meet entry [state] onTrue
    return trueEnds ++ (← Instr.followAll meet entry [state] onFalse)
  | .loop body => do
    state.balanced (← Instr.followAll meet (some state) [state] body)
    return [state]
  | .leave =>
    match entry with
    | none => .error .breakOutsideLoop
    | some entry => if state.live = entry.live then .ok [] else .error .unbalancedLoop
  | .ret value => do
    state.read value
    state.settled .leakAtReturn
    return []
  | .call dest _ args => do
    state.readAll args
    state.write dest
    return [state]
  | .convert dest value => do
    state.read value
    state.write dest
    return [state]
  | .assign dest value => do
    state.read value
    state.write dest
    return [state]
  | .copy dest value => do
    state.read value
    state.write dest
    return [state]
  | .decl _ _ => .ok [state]
  | .comment _ => .ok [state]

/-- The states that several states can reach by falling through a list of instructions. Once
none is left, the rest of the list is dead code. -/
def Instr.followAll (meet : Meeting) (entry : Option PathState) (states : List PathState) :
    List Instr → Except LifetimeError (List PathState)
  | [] => .ok states
  | instr :: rest =>
    if states.isEmpty then .ok states
    else do
      let ends ← followEach (fun state => instr.follow meet entry state) states
      Instr.followAll meet entry (meet ends) rest

end

namespace Routine

/-- Follow every path of a routine, and look at the ends that do not return. -/
def checkLifetimesWith (meet : Meeting) (routine : Routine) : Except LifetimeError Unit := do
  let ends ← Instr.followAll meet none [{}] routine.body
  ends.forM fun state => state.settled .leakAtEnd

/-- Check that a routine releases what it allocates exactly once, the last allocated first, on
every path. -/
def checkLifetimes (routine : Routine) : Except LifetimeError Unit :=
  routine.checkLifetimesWith PathState.distinct

end Routine

end IsaBackend
