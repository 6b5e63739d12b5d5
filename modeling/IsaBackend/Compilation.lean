import IsaBackend.CText.Program
import IsaBackend.Lifetime.Check
import IsaBackend.Staging.Term
import IsaBackend.Term.Fuse
import IsaBackend.Term.OfExpr

/-!
# Compilation

Definitions compile one after the other. Named types see those declared before them, and fresh
names are never used twice. A definition that fails is reported and left out, and the ones after
it still compile.
-/

namespace IsaBackend

/-- What a compilation does beside the necessary. -/
structure CompileOptions where
  /-- Fuse calls of primitives on constants. -/
  fuse : Bool := true
  /-- Check the lifetimes of every routine. -/
  check : Bool := true
  emit : EmitOptions := {}
  deriving DecidableEq, Repr

namespace Function

/-- The A-normal form of a function's body. -/
def flatten (interface : Interface) (params : List (String × Ty)) (body : Expr) :
    EStateM CompileError FreshNames Term := fun names =>
  let scope := params.foldl (fun scope (name, ty) => scope.declare name ty false) ({} : Scope)
  match Term.ofExpr interface body { scope, names } with
  | .ok term state => .ok term state.names
  | .error cause state => .error cause state.names

/-- The code of a function. -/
def emit (around : Surroundings) (name : String) (params : List (String × Rep)) (result : Rep)
    (body : Term) : EStateM CompileError FreshNames Routine := fun names =>
  match Staging.stageFunction around name params result body { names } with
  | .ok routine state => .ok routine state.names
  | .error cause state => .error cause state.names

def partReps (around : Surroundings) (pos : Position) :
    List (String × Ty) → Except CompileError (List (String × Rep))
  | [] => .ok []
  | (name, ty) :: rest => do
    let rep ← Rep.ofTy around pos ty
    return (name, rep) :: (← partReps around pos rest)

def compile (options : CompileOptions) (around : Surroundings) (function : Function) :
    EStateM CompileError FreshNames Routine := do
  match around.interface.signature function.name with
  | none => throw (.unknownFunction function.name)
  | some signature =>
    if signature.params.length ≠ function.params.length then
      throw (.parameterCount function.name function.params.length signature.params.length)
    let params := function.params.zip signature.params
    let paramReps ← lift (partReps around function.pos params)
    let result ← lift (Rep.ofTy around function.pos signature.result)
    let term ← flatten around.interface params function.body
    let term := if options.fuse then term.fuse around else term
    let routine ← emit around function.name paramReps result term
    if options.check then
      match routine.checkLifetimes with
      | .error cause => throw (.lifetime function.name cause)
      | .ok () => return routine
    return routine

end Function

/-- What the definitions compiled so far leave to the next one. -/
structure Progress where
  layouts : Layouts := {}
  names : FreshNames := {}

namespace Definition

/-- The layout of a type that was just registered. -/
def registered (layouts : Layouts) (name : String) : Except CompileError Item :=
  match layouts.lookup? name with
  | some rep => .ok (.layout rep)
  | none => .error (.notRegistered name)

/-- Register a named type and give its layout. -/
def enrol (layouts : Layouts) (name : String) : EStateM CompileError Progress Item := do
  modify fun progress => { progress with layouts }
  lift (registered layouts name)

/-- Compile a definition. -/
def compile (options : CompileOptions) (interface : Interface) :
    Definition → EStateM CompileError Progress Item
  | register name ty => do
    let around := Surroundings.mk (← get).layouts interface
    return .register name (← lift (Rep.ofTy around .generated ty))
  | struct name fields => do
    let layouts := (← get).layouts
    let reps ← lift (Function.partReps ⟨layouts, interface⟩ .generated fields)
    enrol (layouts.addStruct name reps) name
  | enum name members => do
    enrol ((← get).layouts.addEnum name members) name
  | union name ctors => do
    let layouts := (← get).layouts
    let reps ← lift (Function.partReps ⟨layouts, interface⟩ .generated ctors)
    enrol (layouts.addUnion name reps) name
  | function definition => fun progress =>
    match definition.compile options ⟨progress.layouts, interface⟩ progress.names with
    | .ok routine names => .ok (.routine routine) { progress with names }
    | .error cause names => .error cause { progress with names }

end Definition

/-- The outcome of a compilation: what compiled, and why the rest did not, both in order. -/
structure Compilation where
  program : Program
  errors : List CompileError

namespace Compilation

def compileFrom (options : CompileOptions) (interface : Interface) :
    Progress → List Definition → List Item × List CompileError
  | _, [] => ([], [])
  | progress, definition :: rest =>
    match definition.compile options interface progress with
    | .ok item progress =>
      let (items, errors) := compileFrom options interface progress rest
      (item :: items, errors)
    | .error cause progress =>
      let (items, errors) := compileFrom options interface progress rest
      (items, cause :: errors)

def ofDefinitions (options : CompileOptions) (interface : Interface)
    (definitions : List Definition) : Compilation :=
  let (items, errors) := compileFrom options interface {} definitions
  { program := ⟨items⟩, errors }

def isSuccess (compilation : Compilation) : Bool := compilation.errors.isEmpty

/-- The C text, unless some definition failed. -/
def toC (compilation : Compilation) (options : EmitOptions) : Except (List CompileError) String :=
  if compilation.isSuccess then .ok (compilation.program.toC options)
  else .error compilation.errors

def failure? (compilation : Compilation) : Option String :=
  match compilation.errors with
  | [] => none
  | first :: rest =>
    some (toString (rest.length + 1) ++ " definition(s) failed to compile; first: " ++
      first.message)

end Compilation

end IsaBackend
