import IsaBackend.Builtin
import IsaBackend.Staging.Load

/-!
# Calls

Arguments are brought to the representations of the parameters one by one, from left to right.
Storage that this takes is released after the call, the last one first.
-/

namespace IsaBackend.Staging

def repsOf (around : Surroundings) : List Ty → Staging (List Rep)
  | [] => return []
  | ty :: rest => do
    let rep ← repOf around ty
    return rep :: (← repsOf around rest)

/-- The representations of a callee's parameters and of its result. Constructors come from the
layouts and everything else from its signature; a built-in callee takes what it is given. -/
def signature (around : Surroundings) (callee : String) (args : List Atom) (ty : Ty) :
    Staging (List Rep × Rep) := do
  match around.layouts.ctor? callee with
  | some (union, payload) => return ([payload], union)
  | none =>
    match around.interface.signature callee with
    | some signature =>
      let params ← repsOf around signature.params
      return (params, ← repOf around signature.result)
    | none =>
      if Builtin.isName callee then
        let params ← repsOf around (Atom.tys args)
        return (params, ← repOf around ty)
      throw (.unknownFunction callee)

/-- Bring an operand to the representation of a parameter. -/
def loadArg (around : Surroundings) (callee : String) (index : Nat) (arg : Atom) (param : Rep) :
    Staging Loaded := do
  let loaded ← load around arg
  match loaded.value.rep.bridge? param with
  | none =>
    let context := "argument " ++ toString (index + 1) ++ " of '" ++ callee ++ "'"
    throw (.mismatch loaded.value.rep param context)
  | some .identity => return loaded
  | some .promote =>
    let (name, init) ← tempFrom param loaded.value
    return {
      setup := loaded.setup ++ [init]
      value := .name name param
      cleanup := Instr.releaseOf name param ++ loaded.cleanup }
  | some _ =>
    let (name, decl) ← temp param
    return {
      setup := loaded.setup ++ [decl, .convert (.name name param) loaded.value]
      value := .name name param
      cleanup := loaded.cleanup }

/-- The arguments of a call, from an index on: the code that prepares them, the operands, and the
code that releases them. -/
def loadArgs (around : Surroundings) (callee : String) :
    Nat → List Atom → List Rep → Staging (List Instr × List Operand × List Instr)
  | index, arg :: args, param :: params => do
    let loaded ← loadArg around callee index arg param
    let (setup, values, cleanup) ← loadArgs around callee (index + 1) args params
    return (loaded.setup ++ setup, loaded.value :: values, cleanup ++ loaded.cleanup)
  | _, _, _ => return ([], [], [])

def stageCall (around : Surroundings) (callee : String) (args : List Atom) (ty : Ty) :
    Staging Staged := do
  let (params, result) ← signature around callee args ty
  if params.length ≠ args.length then
    throw (.argumentCount callee params.length args.length)
  let (setup, values, cleanup) ← loadArgs around callee 0 args params
  return { setup, rep := result, deliver := fun dest => .call dest callee values, cleanup }

end IsaBackend.Staging
