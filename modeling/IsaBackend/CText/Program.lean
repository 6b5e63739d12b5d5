import IsaBackend.Builtin
import IsaBackend.CText.Expression
import IsaBackend.CText.Layout
import IsaBackend.Rep.Bridge

/-!
# Programs in C

A program is one C file: layouts, registers, prototypes, functions, and the functions
that set up and tear down the registers. Values with a heap representation are passed to the
run-time library by address. A call with a heap result takes the address of its destination as
the first argument, and a stack result is assigned.
-/

namespace IsaBackend

/-- What is written beside the definitions themselves. -/
structure EmitOptions where
  /-- The comments of the code. -/
  comments : Bool := true
  /-- The functions that set up and tear down the registers. -/
  lifecycle : Bool := true
  /-- Functions are visible in their own file only. -/
  internalLinkage : Bool := false
  deriving DecidableEq, Repr

/-- Text inside a C comment must not close it. -/
def splitCommentEnd : List Char → List Char
  | '*' :: '/' :: rest => '*' :: ' ' :: '/' :: splitCommentEnd rest
  | c :: rest => c :: splitCommentEnd rest
  | [] => []

/-- The C name of a callee: names that the program defines are encoded, the built-in ones have a
mark, and all others belong to the run-time library. -/
def calleeToC (defined : List String) (callee : String) : String :=
  if defined.contains callee then CName.encode callee
  else if Builtin.isName callee then "sable_" ++ callee
  else callee

namespace Instr

def storeToC (dest : Place) (value : Operand) : String :=
  if dest.rep.isStack then dest.toC ++ " = " ++ value.toC ++ ";"
  else "set_" ++ dest.rep.suffix ++ "(" ++ dest.addressToC ++ ", " ++ value.toC ++ ");"

def convertToC (dest : Place) (value : Operand) : String :=
  if value.rep.compatible dest.rep then storeToC dest value
  else
    let conversion := "convert_" ++ dest.rep.suffix ++ "_of_" ++ value.rep.suffix
    match value.rep, dest.rep with
    | .packedBits _ _, .packedBits width _ =>
      dest.toC ++ " = (" ++ value.toC ++ " & " ++ (Inline.mask width).toC ++ ");"
    | _, rep =>
      if rep.isStack then dest.toC ++ " = " ++ conversion ++ "(" ++ value.toC ++ ");"
      else conversion ++ "(" ++ dest.addressToC ++ ", " ++ value.toC ++ ");"

def callToC (defined : List String) (dest : Place) (callee : String) (args : List Operand) :
    String :=
  let callee := calleeToC defined callee
  let args := args.map Operand.toC
  if dest.rep.isStack then
    dest.toC ++ " = " ++ callee ++ "(" ++ String.intercalate ", " args ++ ");"
  else callee ++ "(" ++ String.intercalate ", " (dest.addressToC :: args) ++ ");"

/-- The lines that declare a local and initialise its storage from a value. -/
def initLines (depth : Nat) (rep : Rep) (name : String) (value : Operand) : List Line :=
  let name := CName.encode name
  ⟨depth, rep.cType ++ " " ++ name ++ ";"⟩ ::
    if value.rep.compatible rep then [
      ⟨depth, "init_" ++ rep.suffix ++ "(&" ++ name ++ ");"⟩,
      ⟨depth, "set_" ++ rep.suffix ++ "(&" ++ name ++ ", " ++ value.toC ++ ");"⟩]
    else [⟨depth, "init_" ++ rep.suffix ++ "_of_" ++ value.rep.suffix ++ "(&" ++ name ++ ", " ++
      value.toC ++ ");"⟩]

mutual

def lines (options : EmitOptions) (defined : List String) (depth : Nat) : Instr → List Line
  | decl rep name => [⟨depth, rep.cType ++ " " ++ CName.encode name ++ ";"⟩]
  | alloc rep name =>
    let name := CName.encode name
    [⟨depth, rep.cType ++ " " ++ name ++ ";"⟩,
      ⟨depth, "init_" ++ rep.suffix ++ "(&" ++ name ++ ");"⟩]
  | init rep name value => initLines depth rep name value
  | branch test onTrue onFalse _ =>
    ⟨depth, "if (" ++ test.toC ++ ") \x7b"⟩ ::
      linesAll options defined (depth + 1) onTrue ++
      if onFalse.isEmpty then [⟨depth, "\x7d"⟩]
      else ⟨depth, "\x7d else \x7b"⟩ :: linesAll options defined (depth + 1) onFalse ++
        [⟨depth, "\x7d"⟩]
  | call dest callee args => [⟨depth, callToC defined dest callee args⟩]
  | convert dest value => [⟨depth, convertToC dest value⟩]
  | assign dest value => [⟨depth, dest.toC ++ " = " ++ value.toC ++ ";"⟩]
  | copy dest value =>
    [⟨depth, "set_" ++ dest.rep.suffix ++ "(" ++ dest.addressToC ++ ", " ++ value.toC ++ ");"⟩]
  | release rep name => [⟨depth, "clear_" ++ rep.suffix ++ "(&" ++ CName.encode name ++ ");"⟩]
  | ret value => [⟨depth, "return " ++ value.toC ++ ";"⟩]
  | comment text =>
    if options.comments then
      [⟨depth, "/* " ++ String.ofList (splitCommentEnd text.toList) ++ " */"⟩]
    else []
  | loop body =>
    Line.enclose depth "while (true) \x7b" (linesAll options defined (depth + 1) body) "\x7d"
  | leave => [⟨depth, "break;"⟩]

def linesAll (options : EmitOptions) (defined : List String) (depth : Nat) :
    List Instr → List Line
  | [] => []
  | instr :: rest => instr.lines options defined depth ++ linesAll options defined depth rest

end

end Instr

def Routine.headerToC (options : EmitOptions) (routine : Routine) : String :=
  let params := routine.params.map fun (name, rep) => rep.cType ++ " " ++ CName.encode name
  let params := if routine.returnsByReference then
    (routine.result.cType ++ " *" ++ Routine.resultParam) :: params else params
  let result := if routine.returnsByReference then Rep.unit.cType else routine.result.cType
  let params := if params.isEmpty then "void" else String.intercalate ", " params
  let linkage := if options.internalLinkage then "static " else ""
  linkage ++ result ++ " " ++ CName.encode routine.name ++ "(" ++ params ++ ")"

namespace Program

/-- The functions and the constructors that a program defines. -/
def definedNames (program : Program) : List String :=
  program.routines.map Routine.name ++ program.layouts.flatMap fun
    | .union _ ctors => ctors.map Prod.fst
    | _ => []

/-- The functions that set up and tear down the registers with a heap representation. -/
def lifecycleLines (program : Program) : List Line :=
  let heap := program.registers.filter fun register => !register.2.isStack
  let operation := fun (verb : String) ((name, rep) : String × Rep) =>
    Line.mk 1 (verb ++ "_" ++ rep.suffix ++ "(&" ++ CName.encode name ++ ");")
  Line.ofFunction "void model_init(void)" (heap.map (operation "init")) ++
    Line.ofFunction "void model_fini(void)" (heap.reverse.map (operation "clear"))

/-- Lines behind an empty one, if there are any. -/
def paragraph (lines : List Line) : List Line := if lines.isEmpty then [] else .blank :: lines

def lines (program : Program) (options : EmitOptions) : List Line :=
  let defined := program.definedNames
  let registers := program.registers.map fun (name, rep) =>
    Line.mk 0 (rep.cType ++ " " ++ CName.encode name ++ ";")
  let prototypes := program.routines.map fun routine => ⟨0, routine.headerToC options ++ ";"⟩
  let functions := program.routines.flatMap fun routine =>
    Line.ofFunction (routine.headerToC options) (Instr.linesAll options defined 1 routine.body)
  ⟨0, "#include \"sable.h\""⟩ :: (Layout.order program).flatMap Layout.lines ++
    paragraph registers ++ paragraph prototypes ++ functions ++
    if options.lifecycle then program.lifecycleLines else []

def toC (program : Program) (options : EmitOptions) : String :=
  Line.renderAll (program.lines options)

end Program

end IsaBackend
