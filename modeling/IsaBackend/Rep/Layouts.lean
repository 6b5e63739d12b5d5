import IsaBackend.Names.Table
import IsaBackend.Rep.Basic

/-!
# Layouts of named types

The structs, enumerations and unions declared so far. The three kinds have separate tables, and a
name is looked for among the structs first, then the enumerations, then the unions.
-/

namespace IsaBackend

/-- The named types declared so far. -/
structure Layouts where
  structs : NameTable (List (String × Rep)) := ∅
  enums : NameTable (List String) := ∅
  unions : NameTable (List (String × Rep)) := ∅
  /-- The union that a constructor belongs to. -/
  owners : NameTable String := ∅
  /-- The declared names, first declaration first. -/
  order : List String := []

namespace Layouts

def addStruct (layouts : Layouts) (name : String) (fields : List (String × Rep)) : Layouts :=
  { layouts with
    structs := layouts.structs.set name fields
    order := layouts.order ++ [name] }

def addEnum (layouts : Layouts) (name : String) (members : List String) : Layouts :=
  { layouts with
    enums := layouts.enums.set name members
    order := layouts.order ++ [name] }

/-- A constructor belongs to the last union that was declared with it. -/
def addUnion (layouts : Layouts) (name : String) (ctors : List (String × Rep)) : Layouts :=
  { layouts with
    unions := layouts.unions.set name ctors
    owners := ctors.foldl (fun owners ctor => owners.set ctor.1 name) layouts.owners
    order := layouts.order ++ [name] }

def lookup? (layouts : Layouts) (name : String) : Option Rep :=
  match layouts.structs.get? name with
  | some fields => some (.struct name fields)
  | none =>
    match layouts.enums.get? name with
    | some members => some (.enum name members)
    | none => (layouts.unions.get? name).map (.union name)

def ctor? (layouts : Layouts) (ctor : String) : Option (Rep × Rep) := do
  let owner ← layouts.owners.get? ctor
  let ctors ← layouts.unions.get? owner
  let payload ← ctors.lookup ctor
  return (.union owner ctors, payload)

def all (layouts : Layouts) : List Rep := layouts.order.filterMap layouts.lookup?

def contains (layouts : Layouts) (name : String) : Bool :=
  layouts.structs.contains name || layouts.enums.contains name || layouts.unions.contains name

end Layouts

end IsaBackend
