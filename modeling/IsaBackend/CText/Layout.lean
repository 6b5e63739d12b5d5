import IsaBackend.Code.Basic
import IsaBackend.CText.Name
import IsaBackend.Text.Lines

/-!
# Types in C

Every representation has a C type, and a suffix that names its operations. Structs, tuples and
unions are laid out once for each suffix, after the types they contain. A record with a heap
representation has operations that initialise, clear and copy it; a tagged union has these and one
function for each constructor.
-/

namespace IsaBackend

/-- The definition of a C function, behind an empty line. -/
def Line.ofFunction (header : String) (body : List Line) : List Line :=
  .blank :: ⟨0, header⟩ :: Line.enclose 0 "\x7b" body "\x7d"

namespace Rep

mutual

/-- The suffix that names the operations of a representation. -/
def suffix : Rep → String
  | bigInt => "big_int"
  | wideBits _ => "lbits"
  | packedBits _ _ => "fbits"
  | machInt => "mach_int"
  | unit => "unit"
  | bool => "bool"
  | string => "string"
  | tuple elems => "tuple_" ++ String.intercalate "_" (suffixes elems)
  | struct name _ => CName.encode name
  | enum name _ => CName.encode name
  | union name _ => CName.encode name
  | ref inner => "ref_" ++ inner.suffix

def suffixes : List Rep → List String
  | [] => []
  | rep :: rest => rep.suffix :: suffixes rest

end

/-- The C type of a representation. -/
def cType : Rep → String
  | tuple elems => "struct " ++ (tuple elems).suffix
  | struct name fields => "struct " ++ (struct name fields).suffix
  | union name ctors => "struct " ++ (union name ctors).suffix
  | enum name members => "enum " ++ (enum name members).suffix
  | ref inner => inner.cType ++ " *"
  | other => other.suffix

/-- The enumeration of a union's constructors. -/
def kindEnum (union : String) : String := "kind_" ++ CName.encode union

def kindTag (ctor : String) : String := "Kind_" ++ CName.encode ctor

end Rep

namespace Layout

def isKnown (done : List Rep) (rep : Rep) : Bool := done.any fun other => other.suffix = rep.suffix

mutual

/-- Append the layouts that a representation needs and that are not there yet, those it contains
first. -/
def visit (done : List Rep) : Rep → List Rep
  | .tuple elems =>
    if isKnown done (.tuple elems) then done else visitElems done elems ++ [.tuple elems]
  | .struct name fields =>
    if isKnown done (.struct name fields) then done
    else visitFields done fields ++ [.struct name fields]
  | .union name ctors =>
    if isKnown done (.union name ctors) then done
    else visitFields done ctors ++ [.union name ctors]
  | .enum name members =>
    if isKnown done (.enum name members) then done else done ++ [.enum name members]
  | _ => done

def visitElems (done : List Rep) : List Rep → List Rep
  | [] => done
  | rep :: rest => visitElems (visit done rep) rest

def visitFields (done : List Rep) : List (String × Rep) → List Rep
  | [] => done
  | (_, rep) :: rest => visitFields (visit done rep) rest

end

mutual

/-- Append the tuples that a tuple is made of, and the tuple itself, if they are not there yet. -/
def addTuples (seen : List Rep) : Rep → List Rep
  | .tuple elems =>
    let seen := addTuplesAll seen elems
    if seen.contains (.tuple elems) then seen else seen ++ [.tuple elems]
  | _ => seen

def addTuplesAll (seen : List Rep) : List Rep → List Rep
  | [] => seen
  | rep :: rest => addTuplesAll (addTuples seen rep) rest

end

mutual

def addInstrTuples (seen : List Rep) : Instr → List Rep
  | .decl rep _ => addTuples seen rep
  | .alloc rep _ => addTuples seen rep
  | .init rep _ _ => addTuples seen rep
  | .release rep _ => addTuples seen rep
  | .branch _ onTrue onFalse rep =>
    addBodyTuples (addBodyTuples (addTuples seen rep) onTrue) onFalse
  | .loop body => addBodyTuples seen body
  | _ => seen

def addBodyTuples (seen : List Rep) : List Instr → List Rep
  | [] => seen
  | instr :: rest => addBodyTuples (addInstrTuples seen instr) rest

end

def addRoutineTuples (seen : List Rep) (routine : Routine) : List Rep :=
  let seen := addTuples seen routine.result
  addBodyTuples (addTuplesAll seen (routine.params.map Prod.snd)) routine.body

/-- The tuples that a program declares storage of, in the order of their first use. -/
def tuplesUsed (program : Program) : List Rep :=
  let seen := addTuplesAll [] (program.registers.map Prod.snd)
  program.routines.foldl addRoutineTuples seen

/-- The layouts of a program in the order in which they are written. -/
def order (program : Program) : List Rep :=
  visitElems (visitElems [] program.layouts) (tuplesUsed program)

def storageHeader (verb : String) (rep : Rep) : String :=
  "static void " ++ verb ++ "_" ++ rep.suffix ++ "(" ++ rep.cType ++ " *op)"

def copyHeader (rep : Rep) : String :=
  "static void set_" ++ rep.suffix ++ "(" ++ rep.cType ++ " *rop, const " ++ rep.cType ++ " op)"

/-- A struct and, with a heap representation, its operations. -/
def recordLines (rep : Rep) : List Line :=
  let fields := rep.fields
  let heap := fields.filter fun field => !field.2.isStack
  let members := if fields.isEmpty then [Line.mk 1 "unit unused;"] else
    fields.map fun (name, rep) => ⟨1, rep.cType ++ " " ++ CName.encode name ++ ";"⟩
  let operation := fun (verb : String) ((name, rep) : String × Rep) =>
    Line.mk 1 (verb ++ "_" ++ rep.suffix ++ "(&op->" ++ CName.encode name ++ ");")
  let copy := fun ((name, rep) : String × Rep) =>
    let name := CName.encode name
    Line.mk 1 (if rep.isStack then "rop->" ++ name ++ " = op." ++ name ++ ";"
      else "set_" ++ rep.suffix ++ "(&rop->" ++ name ++ ", op." ++ name ++ ");")
  let operations := if rep.isStack then [] else
    Line.ofFunction (storageHeader "init" rep) (heap.map (operation "init")) ++
    Line.ofFunction (storageHeader "clear" rep) (heap.reverse.map (operation "clear")) ++
    Line.ofFunction (copyHeader rep) (fields.map copy)
  .blank :: Line.enclose 0 (rep.cType ++ " \x7b") members "\x7d;" ++ operations

/-- The lines that store a payload that was just selected. -/
def payloadLines (depth : Nat) (payload : Rep) (field source : String) : List Line :=
  if payload.isStack then [⟨depth, "rop->" ++ field ++ " = " ++ source ++ ";"⟩]
  else [
    ⟨depth, "init_" ++ payload.suffix ++ "(&rop->" ++ field ++ ");"⟩,
    ⟨depth, "set_" ++ payload.suffix ++ "(&rop->" ++ field ++ ", " ++ source ++ ");"⟩]

/-- The lines that start a union with its first constructor. -/
def unionInitLines : List (String × Rep) → List Line
  | [] => []
  | (ctor, payload) :: _ =>
    ⟨1, "op->kind = " ++ Rep.kindTag ctor ++ ";"⟩ ::
      if payload.isStack then [] else
        [⟨1, "init_" ++ payload.suffix ++ "(&op->" ++ CName.encode ctor ++ ");"⟩]

/-- A tagged union, its operations and its constructors. -/
def unionLines (name : String) (ctors : List (String × Rep)) : List Line :=
  let rep := Rep.union name ctors
  let ty := rep.cType
  let kind := Rep.kindEnum name
  let tags := String.intercalate ", " (ctors.map fun ctor => Rep.kindTag ctor.1)
  let payloads := ctors.map fun (ctor, payload) =>
    Line.mk 2 (payload.cType ++ " " ++ CName.encode ctor ++ ";")
  let clear := fun ((ctor, payload) : String × Rep) =>
    if payload.isStack then [] else
      Line.enclose 1 ("if (op->kind == " ++ Rep.kindTag ctor ++ ") \x7b")
        [⟨2, "clear_" ++ payload.suffix ++ "(&op->" ++ CName.encode ctor ++ ");"⟩] "\x7d"
  let copy := fun ((ctor, payload) : String × Rep) =>
    let field := CName.encode ctor
    Line.enclose 1 ("if (op.kind == " ++ Rep.kindTag ctor ++ ") \x7b")
      (payloadLines 2 payload field ("op." ++ field)) "\x7d"
  let clearFirst := Line.mk 1 ("clear_" ++ rep.suffix ++ "(rop);")
  let construct := fun ((ctor, payload) : String × Rep) =>
    let field := CName.encode ctor
    Line.ofFunction ("static void " ++ field ++ "(" ++ ty ++ " *rop, " ++ payload.cType ++ " op)")
      (clearFirst :: ⟨1, "rop->kind = " ++ Rep.kindTag ctor ++ ";"⟩ ::
        payloadLines 1 payload field "op")
  [.blank, ⟨0, "enum " ++ kind ++ " \x7b " ++ tags ++ " \x7d;"⟩, .blank] ++
    Line.enclose 0 (ty ++ " \x7b")
      (⟨1, "enum " ++ kind ++ " kind;"⟩ :: Line.enclose 1 "union \x7b" payloads "\x7d;")
      "\x7d;" ++
    Line.ofFunction (storageHeader "init" rep) (unionInitLines ctors) ++
    Line.ofFunction (storageHeader "clear" rep) (ctors.flatMap clear) ++
    Line.ofFunction (copyHeader rep)
      (clearFirst :: ⟨1, "rop->kind = op.kind;"⟩ :: ctors.flatMap copy) ++
    ctors.flatMap construct

def lines : Rep → List Line
  | .tuple elems => recordLines (.tuple elems)
  | .struct name fields => recordLines (.struct name fields)
  | .enum name members =>
    let members := String.intercalate ", " (members.map CName.encode)
    [.blank, ⟨0, "enum " ++ CName.encode name ++ " \x7b " ++ members ++ " \x7d;"⟩]
  | .union name ctors => unionLines name ctors
  | _ => []

end Layout

end IsaBackend
