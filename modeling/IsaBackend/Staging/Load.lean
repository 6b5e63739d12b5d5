import IsaBackend.Staging.Basic
import IsaBackend.Term.Listing

/-!
# Operands for atoms

Literals that fit a machine word, members of enumerations and register addresses become inline
operands, locals and registers become names. Wide literals, tuples and undefined values of a heap
representation get storage that the operand's cleanup releases.
-/

namespace IsaBackend.Staging

/-- An operand of a heap representation whose value is read from a text. -/
def loadText (rep : Rep) (text : String) : Staging Loaded := do
  let (name, init) ← tempFrom rep (.inline (.text text) .string)
  return { setup := [init], value := .name name rep, cleanup := Instr.releaseOf name rep }

def loadUndefined (rep : Rep) : Staging Loaded := do
  let (name, decl) ← temp rep
  return { setup := [decl], value := .name name rep, cleanup := Instr.releaseOf name rep }

/-- An operand for the digits of a bit-vector. Those that fit no machine word are read from a
text in which a mark gives the radix. -/
def loadDigits (rep : Rep) (digits mark : String) (radix bitsPerDigit : Nat) : Staging Loaded :=
  match Inline.ofDigits? digits radix bitsPerDigit with
  | some expr =>
    return { value := .inline expr (.packedBits (digits.utf8ByteSize * bitsPerDigit) rep.order) }
  | none => loadText (.wideBits rep.order) (mark ++ digits)

def loadLiteral (rep : Rep) : Literal → Staging Loaded
  | .undefined => loadUndefined rep
  | .num value =>
    if fitsWord value then return { value := .inline (.int value) .machInt }
    else loadText .bigInt (toString value)
  | .unit => return { value := .inline .unit rep }
  | .bool value => return { value := .inline (.bool value) rep }
  | .bit value => return { value := .inline (.bits value.toNat 1) (.packedBits 1 rep.order) }
  | .hex digits => loadDigits rep digits "0x" 16 4
  | .bin digits => loadDigits rep digits "0b" 2 1
  | .string text => return { value := .inline (.text text) rep }

/-- An operand for a name. A constructor that stands alone is applied to unit. -/
def loadName (around : Surroundings) (name : String) (cls : NameClass) (ty : Ty) :
    Staging Loaded := do
  match (← get).locals.get? name with
  | some entry => return { value := .name entry.name entry.rep }
  | none =>
    let rep ← repOf around ty
    match cls with
    | .enumMember => return { value := .inline (.name name) rep }
    | .unionCtor =>
      let (result, decl) ← temp rep
      return {
        setup := [decl, .call (.name result rep) name [.unit]]
        value := .name result rep
        cleanup := Instr.releaseOf result rep }
    | _ => return { value := .name name rep }

/-- An operand for an inline expression. An integer that fits no machine word is read from a
text, and nothing else may contain one. -/
def loadInline (around : Surroundings) (expr : Inline) (ty : Ty) : Staging Loaded := do
  let rep ← repOf around ty
  if expr.fitsMachineWord then return { value := .inline expr rep }
  match expr with
  | .int value => loadText .bigInt (toString value)
  | _ => throw (.mismatch .bigInt rep ("constant inside fragment '" ++ expr.render ++ "'"))

/-- The number whose bits are the given literals, the most significant one first. -/
def bitsValue : Nat → List Atom → Except CompileError Nat
  | value, [] => .ok value
  | value, .lit (.bit bit) _ :: rest => bitsValue (2 * value + bit.toNat) rest
  | _, other :: _ =>
    .error (.unsupported
      ("vector literal with non-constant element '" ++ other.render ++ "'") .generated)

def loadBits (around : Surroundings) (elems : List Atom) (ty : Ty) : Staging Loaded := do
  let rep ← repOf around ty
  let value ← lift (bitsValue 0 elems)
  let width := elems.length
  if width ≤ Rep.maxPackedWidth then
    return { value := .inline (.bits value width) (.packedBits width rep.order) }
  else if fitsCount width then
    loadText (.wideBits rep.order) ("0b" ++ Digits.padded 2 width value)
  else
    throw .vectorTooLong

mutual

def load (around : Surroundings) : Atom → Staging Loaded
  | .lit value ty => do loadLiteral (← repOf around ty) value
  | .name name cls ty => loadName around name cls ty
  | .refTo name ty => do return { value := .inline (.address name) (← repOf around ty) }
  | .tuple elems => do
    let rep ← repOf around (.tuple (Atom.tys elems))
    let (name, decl) ← temp rep
    let stores ← loadFields around (.name name rep) 0 elems rep.fields
    return {
      setup := decl :: stores
      value := .name name rep
      cleanup := Instr.releaseOf name rep }
  | .vector elems ty => loadBits around elems ty
  | .list _ ty => do
    let _ ← repOf around ty
    throw (.unrepresentable ty .generated)
  | .inline expr ty => loadInline around expr ty

/-- The code that stores atoms in the fields of a tuple, from an index on. -/
def loadFields (around : Surroundings) (base : Place) :
    Nat → List Atom → List (String × Rep) → Staging (List Instr)
  | index, elem :: elems, (field, rep) :: fields => do
    let loaded ← load around elem
    let context := "tuple element " ++ toString index
    let store ← lift (Instr.transfer (.field base field rep) loaded.value context)
    settle loaded.cleanup
    let rest ← loadFields around base (index + 1) elems fields
    return loaded.setup ++ [store] ++ loaded.cleanup ++ rest
  | _, _, _ => return []

end

/-- The code that stores an atom at a place and releases what it took. -/
def storeAtom (around : Surroundings) (dest : Place) (atom : Atom) (context : String) :
    Staging (List Instr) := do
  let loaded ← load around atom
  let store ← lift (Instr.transfer dest loaded.value context)
  settle loaded.cleanup
  return loaded.setup ++ [store] ++ loaded.cleanup

end IsaBackend.Staging
