import IsaBackend.Rep.OfTy
import IsaBackend.Term.Basic

/-!
# Fusing primitive calls

A call of one of four arithmetic primitives becomes an inline expression when both operands are
constant and the result fits a machine word. Names that are bound to constants count as
constants, so chains of calls fuse to one expression. Any other call is left as it is.
-/

namespace IsaBackend

inductive FusedPrimitive where
  /-- Addition of machine integers. -/
  | addInt
  | xorBits
  /-- Addition of bit-vectors, reduced to the width of the result. -/
  | addBits
  deriving DecidableEq, Repr

def FusedPrimitive.ofName? : String → Option FusedPrimitive
  | "add_range" => some .addInt
  | "add_atom" => some .addInt
  | "xor_vec" => some .xorBits
  | "add_vec" => some .addBits
  | _ => none

/-- Immutable locals that are bound to constants. -/
abbrev KnownConstants := NameTable Inline

namespace Term

/-- The constant that an atom stands for. -/
def constant? (known : KnownConstants) : Atom → Option Inline
  | .inline expr _ => some expr
  | .name key .immutableLocal _ => known.get? key
  | .lit value _ => Inline.ofLiteral? value
  | _ => none

def wordConstant? (known : KnownConstants) (operand : Atom) : Option Inline :=
  (constant? known operand).filter Inline.fitsMachineWord

/-- The inline form of a primitive applied to two operands, if they allow it. -/
def fused? (around : Surroundings) (known : KnownConstants) (left right : Atom) (ty : Ty) :
    FusedPrimitive → Option Inline
  | .addInt =>
    match Rep.ofTy around .generated ty with
    | .ok .machInt => do
      return .binary .add (← wordConstant? known left) (← wordConstant? known right)
    | _ => none
  | .xorBits => do
    let _ ← Rep.packedWidth? around ty
    let _ ← Rep.packedWidth? around left.ty
    let _ ← Rep.packedWidth? around right.ty
    return .binary .xor (← wordConstant? known left) (← wordConstant? known right)
  | .addBits => do
    let width ← Rep.packedWidth? around ty
    let _ ← Rep.packedWidth? around left.ty
    let _ ← Rep.packedWidth? around right.ty
    let sum := Inline.binary .add (← wordConstant? known left) (← wordConstant? known right)
    return .binary .and sum (.mask width)

/-- Fuse one call, or leave it as it is. -/
def fuseCall (around : Surroundings) (known : KnownConstants) (callee : String)
    (args : List Atom) (ty : Ty) : Term :=
  match FusedPrimitive.ofName? callee, args with
  | some primitive, [left, right] =>
    match fused? around known left right ty primitive with
    | some expr => .atom (.inline expr ty)
    | none => .call callee args ty
  | _, _ => .call callee args ty

/-- The constant that a binding of a type makes known. -/
def boundConstant? (ty : Ty) : Term → Option Inline
  | .atom (.inline expr exprTy) => if expr.isLiteral && exprTy = ty then some expr else none
  | .atom (.lit value valueTy) => if valueTy = ty then Inline.ofLiteral? value else none
  | _ => none

mutual

/-- Fuse the calls of a term, given the constants known around it. -/
def fuseIn (around : Surroundings) (known : KnownConstants) : Term → Term
  | .call callee args ty => fuseCall around known callee args ty
  | .atom value => .atom value
  | .ret value ty => .ret value ty
  | .field record key ty => .field record key ty
  | .update record fields ty => .update record fields ty
  | .cast inner ty => .cast (fuseIn around known inner) ty
  | .assign target ty value => .assign target ty (fuseIn around known value)
  | .bind name ty init body bodyTy =>
    let init := fuseIn around known init
    let inner := known.put name (boundConstant? ty init)
    .bind name ty init (fuseIn around inner body) bodyTy
  | .block stmts last ty => .block (fuseAll around known stmts) (fuseIn around known last) ty
  | .cond test onTrue onFalse ty =>
    .cond test (fuseIn around known onTrue) (fuseIn around known onFalse) ty
  | .count var first last step direction body =>
    .count var first last step direction (fuseIn around (known.erase var) body)
  | .loop kind test body => .loop kind (fuseIn around known test) (fuseIn around known body)

def fuseAll (around : Surroundings) (known : KnownConstants) : List Term → List Term
  | [] => []
  | term :: rest => fuseIn around known term :: fuseAll around known rest

end

def fuse (around : Surroundings) (term : Term) : Term := fuseIn around ∅ term

end Term

end IsaBackend
