import IsaBackend.Inline
import IsaBackend.Interface

/-!
# A-normal form

Arguments, conditions and bounds are atoms: literals, names, aggregates of atoms or inline
expressions. Anything that computes stands where its result is bound, returned or branched on.
-/

namespace IsaBackend

/-- A value that needs no computation. -/
inductive Atom where
  | lit (value : Literal) (ty : Ty)
  | name (name : String) (cls : NameClass) (ty : Ty)
  /-- The address of a register, at a reference type. -/
  | refTo (name : String) (ty : Ty)
  | tuple (elems : List Atom)
  | list (elems : List Atom) (ty : Ty)
  | vector (elems : List Atom) (ty : Ty)
  | inline (inline : Inline) (ty : Ty)

namespace Atom

def unit : Atom := lit .unit .unit

mutual

def ty : Atom → Ty
  | lit _ ty => ty
  | name _ _ ty => ty
  | refTo _ ty => ty
  | tuple elems => .tuple (tys elems)
  | list _ ty => ty
  | vector _ ty => ty
  | inline _ ty => ty

def tys : List Atom → List Ty
  | [] => []
  | atom :: rest => atom.ty :: tys rest

end

end Atom

/-- A computation in A-normal form. -/
inductive Term where
  | atom (atom : Atom)
  | call (callee : String) (args : List Atom) (ty : Ty)
  | cast (inner : Term) (ty : Ty)
  /-- An assignment to a mutable local or a register of a type. -/
  | assign (target : String) (ty : Ty) (value : Term)
  | bind (name : String) (ty : Ty) (init body : Term) (bodyTy : Ty)
  /-- Statements that are run for their effect, and a last one for its value. -/
  | block (stmts : List Term) (last : Term) (ty : Ty)
  | ret (value : Atom) (ty : Ty)
  | cond (test : Atom) (onTrue onFalse : Term) (ty : Ty)
  | field (record : Atom) (field : String) (ty : Ty)
  | update (record : Atom) (fields : List (String × Atom)) (ty : Ty)
  | count (var : String) (first last step : Atom) (direction : Direction) (body : Term)
  | loop (kind : LoopTest) (test body : Term)

def Term.ty : Term → Ty
  | .atom value => value.ty
  | .call _ _ ty => ty
  | .cast _ ty => ty
  | .assign _ _ _ => .unit
  | .bind _ _ _ _ bodyTy => bodyTy
  | .block _ _ ty => ty
  | .ret _ ty => ty
  | .cond _ _ _ ty => ty
  | .field _ _ ty => ty
  | .update _ _ ty => ty
  | .count _ _ _ _ _ _ => .unit
  | .loop _ _ _ => .unit

end IsaBackend
