import IsaBackend.Position
import IsaBackend.Ty

/-!
# Checked programs

Expressions arrive resolved: each node notes its type and its position. A few forms have to be
eliminated by earlier passes; they are kept as one constructor, because all that happens to them
here is that they are refused.
-/

namespace IsaBackend

inductive Literal where
  | unit
  | bool (value : Bool)
  | bit (value : Bool)
  | num (value : Int)
  /-- The digits of a hexadecimal bit-vector. -/
  | hex (digits : String)
  /-- The digits of a binary bit-vector. -/
  | bin (digits : String)
  | string (text : String)
  /-- Some value of the type at hand. -/
  | undefined
  deriving DecidableEq, Repr

/-- When a conditional loop tests its condition, and what ends it. -/
inductive LoopTest where
  /-- Before each round; the loop ends once the condition fails. -/
  | whileTrue
  /-- After each round; the loop ends once the condition holds. -/
  | untilTrue
  deriving DecidableEq, Repr

/-- What a binding introduces. -/
inductive Pattern where
  | name (name : String)
  | typed (ty : Ty) (name : String)
  | wildcard
  | tuple (elems : List Pattern)

/-- What an assignment writes, with the expressions that select a part of it. -/
inductive Target (ε : Type) where
  | name (name : String)
  | element (vector : String) (index : ε)
  | slice (vector : String) (hi lo : ε)
  | append (vector : String) (tail : ε)

/-- Forms that earlier passes eliminate. -/
inductive EliminatedForm where
  | handler (patterns : List Pattern)
  | vectorAccess
  | vectorSubrange
  | vectorUpdate
  | vectorAppend
  | internalValue (text : String)
  | sizeOf (size : Size)
  | constraint (text : String)
  | choice

/-- The type and the position of a node. -/
structure Note where
  ty : Ty
  pos : Position := .generated

/-- A checked expression. -/
inductive Expr where
  | lit (note : Note) (value : Literal)
  | name (note : Note) (name : String)
  /-- The address of a register. -/
  | refTo (note : Note) (name : String)
  | block (note : Note) (items : List Expr)
  | cond (note : Note) (test onTrue onFalse : Expr)
  | loop (note : Note) (kind : LoopTest) (test body : Expr)
  /-- A loop over the integers from `first` to `last` in steps. -/
  | count (note : Note) (var : String) (first last step : Expr) (direction : Direction)
    (body : Expr)
  | call (note : Note) (callee : String) (args : List Expr)
  | tuple (note : Note) (items : List Expr)
  | list (note : Note) (items : List Expr)
  | vector (note : Note) (items : List Expr)
  | field (note : Note) (record : Expr) (field : String)
  | update (note : Note) (record : Expr) (fields : List (String × Expr))
  | assign (note : Note) (target : Target Expr) (value : Expr)
  /-- An immutable binding. -/
  | bind (note : Note) (pattern : Pattern) (init body : Expr)
  /-- A mutable binding. -/
  | var (note : Note) (target : Target Expr) (init body : Expr)
  | cast (note : Note) (ty : Ty) (inner : Expr)
  | throw (note : Note) (value : Expr)
  | exit (note : Note) (value : Expr)
  | ret (note : Note) (value : Expr)
  | assert (note : Note) (test text : Expr)
  | cons (note : Note) (head tail : Expr)
  | eliminated (note : Note) (form : EliminatedForm) (parts : List Expr)

namespace Expr

def note : Expr → Note
  | lit note _ => note
  | name note _ => note
  | refTo note _ => note
  | block note _ => note
  | cond note _ _ _ => note
  | loop note _ _ _ => note
  | count note _ _ _ _ _ _ => note
  | call note _ _ => note
  | tuple note _ => note
  | list note _ => note
  | vector note _ => note
  | field note _ _ => note
  | update note _ _ => note
  | assign note _ _ => note
  | bind note _ _ _ => note
  | var note _ _ _ => note
  | cast note _ _ => note
  | throw note _ => note
  | exit note _ => note
  | ret note _ => note
  | assert note _ _ => note
  | cons note _ _ => note
  | eliminated note _ _ => note

def ty (expr : Expr) : Ty := expr.note.ty

/-- The type of a block is that of its last item, and unit without one. -/
def blockTy (items : List Expr) : Ty :=
  match items.getLast? with
  | some last => last.ty
  | none => .unit

end Expr

/-- A function of the checked program. Its parameter and result types are a matter of its
signature. -/
structure Function where
  name : String
  params : List String
  body : Expr
  pos : Position := .generated

inductive Definition where
  | register (name : String) (ty : Ty)
  | function (function : Function)
  | struct (name : String) (fields : List (String × Ty))
  | enum (name : String) (members : List String)
  | union (name : String) (ctors : List (String × Ty))

def Definition.name : Definition → String
  | register name _ => name
  | function definition => definition.name
  | struct name _ => name
  | enum name _ => name
  | union name _ => name

end IsaBackend
