import IsaBackend.Names.Table
import IsaBackend.Ty

/-!
# What the type checker answers

Types are never derived here. The back end asks what a global name is, what the signature of a
callee is and what a size comes to. An `Interface` is any way to answer; `Declarations` answer
from tables.
-/

namespace IsaBackend

/-- What a name refers to. -/
inductive NameClass where
  | mutableLocal
  | immutableLocal
  | register
  | enumMember
  | unionCtor
  /-- Nothing is known about the name. -/
  | unresolved
  deriving DecidableEq, Repr

/-- Only mutable locals and registers can be assigned to. -/
def NameClass.isAssignable : NameClass → Bool
  | mutableLocal => true
  | register => true
  | _ => false

structure Signature where
  params : List Ty
  result : Ty

/-- Answers about the checked program. -/
structure Interface where
  /-- The class and the type of a name that is not local. -/
  global : String → Option (NameClass × Ty)
  signature : String → Option Signature
  /-- The value of a size, if it can be told. -/
  size : Size → Option Int

/-- Tables of the globals, the signatures and the known size variables. -/
structure Declarations where
  globals : NameTable (NameClass × Ty) := ∅
  signatures : NameTable Signature := ∅
  sizes : NameTable Int := ∅

namespace Declarations

def addRegister (decls : Declarations) (name : String) (ty : Ty) : Declarations :=
  { decls with globals := decls.globals.set name (.register, ty) }

def addEnum (decls : Declarations) (name : String) (members : List String) : Declarations :=
  let declare := fun (globals : NameTable (NameClass × Ty)) (member : String) =>
    globals.set member (.enumMember, .named name)
  { decls with globals := members.foldl declare decls.globals }

/-- A constructor is a global of its union's type and a function from its payload. -/
def addCtor (decls : Declarations) (union ctor : String) (payload : Ty) : Declarations :=
  { decls with
    globals := decls.globals.set ctor (.unionCtor, .named union)
    signatures := decls.signatures.set ctor ⟨[payload], .named union⟩ }

def addFunction (decls : Declarations) (name : String) (params : List Ty) (result : Ty) :
    Declarations :=
  { decls with signatures := decls.signatures.set name ⟨params, result⟩ }

def addSize (decls : Declarations) (var : String) (value : Int) : Declarations :=
  { decls with sizes := decls.sizes.set var value }

def interface (decls : Declarations) : Interface where
  global := decls.globals.get?
  signature := decls.signatures.get?
  size := Size.eval decls.sizes.get?

end Declarations

end IsaBackend
