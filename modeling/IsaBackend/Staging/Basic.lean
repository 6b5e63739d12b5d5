import IsaBackend.Code.Basic
import IsaBackend.Ensuring
import IsaBackend.Names.Fresh
import IsaBackend.Rep.Bridge
import IsaBackend.Rep.OfTy

/-!
# Staged computations

A term becomes a staged computation: code that computes its value, a way to deliver the value to
a place that the user of the value chooses, and the code that releases what the computation has
allocated. While a function is staged, a record is kept of the locals in scope, the names in use
and the storage that is live, so that an early return can release it.
-/

namespace IsaBackend

/-- A local as the code names it. The name differs from the source's when that was taken. -/
structure Local where
  name : String
  rep : Rep
  deriving DecidableEq

/-- What is kept while a function is staged. -/
structure StagingState where
  names : FreshNames := {}
  /-- The locals in scope. -/
  locals : NameTable Local := ∅
  /-- The names that the function's code has introduced. -/
  declared : List String := []
  /-- The storage that is live, the last allocated one first. -/
  live : List (String × Rep) := []
  /-- The result representation of the function, inside one. -/
  result : Option Rep := none

/-- Staging fails with an error and keeps the state it had reached. -/
abbrev Staging := EStateM CompileError StagingState

/-- A staged computation. -/
structure Staged where
  /-- Computes the value. -/
  setup : List Instr
  /-- The representation of the value. -/
  rep : Rep
  /-- Stores the value at a place of that representation. -/
  deliver : Place → Instr
  /-- Releases what `setup` has allocated, the last allocated first. -/
  cleanup : List Instr

/-- An operand together with the code that prepares it and the code that releases it. -/
structure Loaded where
  setup : List Instr := []
  value : Operand
  cleanup : List Instr := []

namespace Instr

/-- Store a value at a place whose representation it fits. -/
def store (dest : Place) (value : Operand) : Instr :=
  if dest.rep.isStack then .assign dest value else .copy dest value

/-- Store a value at a place, with a conversion where one is needed. -/
def transfer (dest : Place) (value : Operand) (context : String) : Except CompileError Instr :=
  match value.rep.bridge? dest.rep with
  | some .identity => .ok (store dest value)
  | some _ => .ok (.convert dest value)
  | none => .error (.mismatch value.rep dest.rep context)

def releaseOf (name : String) (rep : Rep) : List Instr :=
  if rep.isStack then [] else [.release rep name]

end Instr

namespace Staged

def ofLoaded (loaded : Loaded) : Staged where
  setup := loaded.setup
  rep := loaded.value.rep
  deliver := fun dest => .store dest loaded.value
  cleanup := loaded.cleanup

/-- Code that is run for its effect and gives unit. -/
def effect (setup : List Instr) : Staged where
  setup := setup
  rep := .unit
  deliver := fun dest => .assign dest .unit
  cleanup := []

/-- The code that computes a value, delivers it and releases what it has allocated. -/
def into (staged : Staged) (dest : Place) : List Instr :=
  staged.setup ++ [staged.deliver dest] ++ staged.cleanup

end Staged

namespace Staging

/-- The representation of a type that occurs in generated code. -/
def repOf (around : Surroundings) (ty : Ty) : Staging Rep := lift (Rep.ofTy around .generated ty)

def fresh : Staging String := do
  let (name, names) := (← get).names.take
  modify fun state => { state with names }
  return name

def claim (name : String) : Staging Unit :=
  modify fun state => { state with declared := state.declared.insert name }

def pushLive (name : String) (rep : Rep) : Staging Unit :=
  modify fun state => { state with live := (name, rep) :: state.live }

/-- Declare a local, with storage if it needs any. -/
def declare (name : String) (rep : Rep) : Staging Instr := do
  if rep.isStack then return .decl rep name
  pushLive name rep
  return .alloc rep name

def temp (rep : Rep) : Staging (String × Instr) := do
  let name ← fresh
  claim name
  return (name, ← declare name rep)

/-- Declare a fresh local with storage and give it a value. -/
def tempFrom (rep : Rep) (value : Operand) : Staging (String × Instr) := do
  let name ← fresh
  claim name
  pushLive name rep
  return (name, .init rep name value)

def strike (live : List (String × Rep)) : Instr → List (String × Rep)
  | .release _ name => live.eraseP fun entry => entry.1 = name
  | _ => live

/-- What cleanup code releases is no longer live. -/
def settle (cleanup : List Instr) : Staging Unit :=
  modify fun state => { state with live := cleanup.foldl strike state.live }

/-- Deliver a value and release what its computation has allocated. -/
def close (staged : Staged) (dest : Place) : Staging (List Instr) := do
  settle staged.cleanup
  return staged.into dest

/-- The name of a source local in the code: its own, or a fresh one if that is taken. -/
def localName (name : String) : Staging String := do
  if (← get).declared.contains name then
    let other ← fresh
    claim other
    return other
  claim name
  return name

/-- Run with a local in scope, and restore the scope on success and failure. -/
def within {α : Type} (name : String) (entry : Local) (body : Staging α) : Staging α := do
  let previous := (← get).locals.get? name
  modify fun state => { state with locals := state.locals.set name entry }
  ensuring body fun state => { state with locals := state.locals.put name previous }

/-- Bring a staged computation to another representation. -/
def coerce (staged : Staged) (target : Rep) (context : String) : Staging Staged := do
  match staged.rep.bridge? target with
  | none => throw (.mismatch staged.rep target context)
  | some .identity => return { staged with rep := target }
  | some _ =>
    let (name, decl) ← temp staged.rep
    return {
      setup := staged.setup ++ [decl, staged.deliver (.name name staged.rep)]
      rep := target
      deliver := fun dest => .convert dest (.name name staged.rep)
      cleanup := Instr.releaseOf name staged.rep ++ staged.cleanup }

end Staging

end IsaBackend
