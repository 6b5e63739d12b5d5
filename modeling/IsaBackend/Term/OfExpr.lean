import IsaBackend.Builtin
import IsaBackend.CompileError
import IsaBackend.Ensuring
import IsaBackend.Names.Fresh
import IsaBackend.Term.Basic
import IsaBackend.Term.Scope

/-!
# From expressions to A-normal form

A compound argument is bound to a fresh name just before its use. The bindings of one node keep
the order of its arguments, so effects happen from left to right.
-/

namespace IsaBackend

/-- The scope at hand and the supply of fresh names. -/
structure FlatState where
  scope : Scope := {}
  names : FreshNames := {}

/-- Flattening fails with an error and keeps the state it had reached. -/
abbrev Flattening := EStateM CompileError FlatState

/-- A binding taken out of an argument. -/
structure Hoist where
  name : String
  ty : Ty
  init : Term

namespace Flattening

def fresh : Flattening String := do
  let (name, names) := (← get).names.take
  modify fun state => { state with names }
  return name

def classify (interface : Interface) (name : String) : Flattening (Option (NameClass × Ty)) :=
  return (← get).scope.classify interface name

/-- Run in a nested scope that declares one name, and leave the scope on success and failure. -/
def within {α : Type} (name : String) (ty : Ty) (mutable : Bool) (body : Flattening α) :
    Flattening α := do
  modify fun state => { state with scope := state.scope.enter.declare name ty mutable }
  ensuring body fun state => { state with scope := state.scope.leave }

/-- Make an atom of a term, by binding it to a fresh name if it computes. -/
def hoist : Term → Flattening (Atom × List Hoist)
  | .atom value => return (value, [])
  | term => do
    let name ← fresh
    return (.name name .immutableLocal term.ty, [⟨name, term.ty, term⟩])

end Flattening

namespace Term

/-- Put bindings around a term, the first one outermost. -/
def wrap (hoists : List Hoist) (body : Term) : Term :=
  hoists.foldr (fun hoist body => .bind hoist.name hoist.ty hoist.init body body.ty) body

/-- A sequence of terms: the last one gives the value. -/
def ofItems (ty : Ty) (items : List Term) : Term :=
  match items with
  | [] => .atom .unit
  | [item] => item
  | first :: rest => .block (first :: rest).dropLast ((first :: rest).getLastD first) ty

end Term

def Target.describe {ε : Type} : Target ε → String
  | name key => key
  | element vector _ => "element of '" ++ vector ++ "'"
  | slice vector _ _ => "slice of '" ++ vector ++ "'"
  | append vector _ => "append to '" ++ vector ++ "'"

def EliminatedForm.describe : EliminatedForm → String
  | handler _ => "exception handler"
  | vectorAccess => "vector access"
  | vectorSubrange => "vector subrange"
  | vectorUpdate => "vector update"
  | vectorAppend => "vector append"
  | internalValue _ => "interpreter value"
  | sizeOf _ => "sizeof"
  | constraint _ => "constraint"
  | choice => "nondeterministic choice"

namespace Term

open Flattening

def ofPattern (pos : Position) (ty : Ty) : Pattern → Flattening (String × Ty)
  | .name name => return (name, ty)
  | .typed ty name => return (name, ty)
  | .wildcard => return (← fresh, ty)
  | .tuple _ => throw (.unsupported "tuple pattern" pos)

mutual

/-- The A-normal form of an expression. -/
def ofExpr (interface : Interface) : Expr → Flattening Term
  | .lit note value => return .atom (.lit value note.ty)
  | .name note name => do
    let cls := match ← classify interface name with
      | some (cls, _) => cls
      | none => .unresolved
    return .atom (.name name cls note.ty)
  | .refTo note name => do
    match ← classify interface name with
    | some (.register, ty) => return .atom (.refTo name (.ref ty))
    | _ => throw (.invalidReference name note.pos)
  | .block note items => do return ofItems note.ty (← ofExprs interface items)
  | .assign note (.name target) value => do
    match ← classify interface target with
    | some (cls, ty) =>
      if cls.isAssignable then return .assign target ty (← ofExpr interface value)
      else throw (.invalidAssignment target note.pos)
    | none => throw (.invalidAssignment target note.pos)
  | .assign note target _ => throw (.unsupported ("assignment to " ++ target.describe) note.pos)
  | .loop _ kind test body => do
    let test ← ofExpr interface test
    return .loop kind test (← ofExpr interface body)
  | .count _ var first last step direction body => do
    let (firstAtom, hoists) ← hoist (← ofExpr interface first)
    let (lastAtom, moreHoists) ← hoist (← ofExpr interface last)
    let (stepAtom, stillMoreHoists) ← hoist (← ofExpr interface step)
    let body ← within var first.ty false (ofExpr interface body)
    return wrap (hoists ++ moreHoists ++ stillMoreHoists)
      (.count var firstAtom lastAtom stepAtom direction body)
  | .cond note test onTrue onFalse => do
    let (test, hoists) ← hoist (← ofExpr interface test)
    let onTrue ← ofExpr interface onTrue
    let onFalse ← ofExpr interface onFalse
    return wrap hoists (.cond test onTrue onFalse note.ty)
  | .call note callee args => do
    let (args, hoists) ← atoms interface args
    return wrap hoists (.call callee args note.ty)
  | .tuple _ items => do
    let (items, hoists) ← atoms interface items
    return wrap hoists (.atom (.tuple items))
  | .list note items => do
    let (items, hoists) ← atoms interface items
    return wrap hoists (.atom (.list items note.ty))
  | .vector note items => do
    let (items, hoists) ← atoms interface items
    return wrap hoists (.atom (.vector items note.ty))
  | .field note record key => do
    let (record, hoists) ← hoist (← ofExpr interface record)
    return wrap hoists (.field record key note.ty)
  | .update note record fields => do
    let (record, hoists) ← hoist (← ofExpr interface record)
    let (fields, moreHoists) ← fieldAtoms interface fields
    return wrap (hoists ++ moreHoists) (.update record fields note.ty)
  | .throw note value => do
    let (value, hoists) ← hoist (← ofExpr interface value)
    return wrap hoists (.call Builtin.throw.name [value] note.ty)
  | .exit note value => do
    let (value, hoists) ← hoist (← ofExpr interface value)
    return wrap hoists (.call Builtin.exit.name [value] note.ty)
  | .assert note test text => do
    let (test, hoists) ← hoist (← ofExpr interface test)
    let (text, moreHoists) ← hoist (← ofExpr interface text)
    return wrap (hoists ++ moreHoists) (.call Builtin.assert.name [test, text] note.ty)
  | .cons note head tail => do
    let (head, hoists) ← hoist (← ofExpr interface head)
    let (tail, moreHoists) ← hoist (← ofExpr interface tail)
    return wrap (hoists ++ moreHoists) (.call Builtin.cons.name [head, tail] note.ty)
  | .ret note value => do
    let (value, hoists) ← hoist (← ofExpr interface value)
    return wrap hoists (.ret value note.ty)
  | .bind note pattern init body => do
    let (name, ty) ← ofPattern note.pos init.ty pattern
    let initTerm ← ofExpr interface init
    let body ← within name ty false (ofExpr interface body)
    return .bind name ty initTerm body note.ty
  | .var note (.name name) init body => do
    let initTerm ← ofExpr interface init
    let body ← within name init.ty true (ofExpr interface body)
    return .bind name init.ty initTerm body note.ty
  | .var note target _ _ => throw (.unsupported ("var binding of " ++ target.describe) note.pos)
  | .cast _ ty inner => do return .cast (← ofExpr interface inner) ty
  | .eliminated note form _ => throw (.unsupported form.describe note.pos)

/-- The A-normal forms of expressions, one after the other. -/
def ofExprs (interface : Interface) : List Expr → Flattening (List Term)
  | [] => return []
  | expr :: rest => do
    let term ← ofExpr interface expr
    return term :: (← ofExprs interface rest)

/-- Atoms for a list of arguments, and the bindings they need. -/
def atoms (interface : Interface) : List Expr → Flattening (List Atom × List Hoist)
  | [] => return ([], [])
  | expr :: rest => do
    let (value, hoists) ← hoist (← ofExpr interface expr)
    let (values, moreHoists) ← atoms interface rest
    return (value :: values, hoists ++ moreHoists)

def fieldAtoms (interface : Interface) :
    List (String × Expr) → Flattening (List (String × Atom) × List Hoist)
  | [] => return ([], [])
  | (key, expr) :: rest => do
    let (value, hoists) ← hoist (← ofExpr interface expr)
    let (values, moreHoists) ← fieldAtoms interface rest
    return ((key, value) :: values, hoists ++ moreHoists)

end

end Term

end IsaBackend
