import IsaBackend.Size

/-!
# Source types

The resolved types that the type checker hands over with every expression. They are never
inferred here. Equality of types is decidable and written out, because tuples nest lists of types.
-/

namespace IsaBackend

/-- Falling or rising: the numbering of the bits of a vector, and the way a counter moves. -/
inductive Direction where
  | dec
  | inc
  deriving DecidableEq, Repr

def Direction.render : Direction → String
  | .dec => "dec"
  | .inc => "inc"

/-- A resolved source type. -/
inductive Ty where
  | unit
  | bit
  | bool
  | string
  /-- Unbounded integers. -/
  | int
  /-- Integers between two bounds, both included. -/
  | range (lo hi : Size)
  /-- A single integer. -/
  | atom (value : Size)
  /-- Bit-vectors of a length. -/
  | bits (length : Size) (order : Direction)
  /-- Vectors of anything but bits. -/
  | vector (length : Size) (order : Direction) (elem : Ty)
  | list (elem : Ty)
  | tuple (elems : List Ty)
  /-- A struct, enumeration or union. -/
  | named (name : String)
  /-- An abbreviation that was not expanded. -/
  | abbreviation (name : String)
  /-- A bit-field register type that was not expanded. -/
  | bitfield (name : String)
  /-- A reference to a register. -/
  | ref (inner : Ty)
  deriving Repr

namespace Ty

mutual

def render : Ty → String
  | unit => "unit"
  | bit => "bit"
  | bool => "bool"
  | string => "string"
  | int => "int"
  | range lo hi => "range(" ++ lo.render ++ ", " ++ hi.render ++ ")"
  | atom value => "atom(" ++ value.render ++ ")"
  | bits length order => "bits(" ++ length.render ++ ", " ++ order.render ++ ")"
  | vector length order elem =>
    "vector(" ++ length.render ++ ", " ++ order.render ++ ", " ++ elem.render ++ ")"
  | list elem => "list(" ++ elem.render ++ ")"
  | tuple elems => "(" ++ String.intercalate ", " (renderAll elems) ++ ")"
  | named name => name
  | abbreviation name => name
  | bitfield name => name
  | ref inner => "register(" ++ inner.render ++ ")"

def renderAll : List Ty → List String
  | [] => []
  | ty :: rest => ty.render :: renderAll rest

end

mutual

def same : Ty → Ty → Bool
  | unit, unit => true
  | bit, bit => true
  | bool, bool => true
  | string, string => true
  | int, int => true
  | range lo hi, range lo' hi' => lo = lo' && hi = hi'
  | atom value, atom value' => value = value'
  | bits length order, bits length' order' => length = length' && order = order'
  | vector length order elem, vector length' order' elem' =>
    length = length' && order = order' && elem.same elem'
  | list elem, list elem' => elem.same elem'
  | tuple elems, tuple elems' => sameAll elems elems'
  | named name, named name' => name = name'
  | abbreviation name, abbreviation name' => name = name'
  | bitfield name, bitfield name' => name = name'
  | ref inner, ref inner' => inner.same inner'
  | _, _ => false

def sameAll : List Ty → List Ty → Bool
  | [], [] => true
  | ty :: rest, ty' :: rest' => ty.same ty' && sameAll rest rest'
  | _, _ => false

end

mutual

private theorem same_iff : ∀ left right : Ty, left.same right = true ↔ left = right
  | left, right => by
    cases left <;> cases right <;>
      simp [same, same_iff, sameAll_iff, and_assoc]

theorem sameAll_iff : ∀ left right : List Ty, sameAll left right = true ↔ left = right
  | [], [] => by simp [sameAll]
  | [], _ :: _ => by simp [sameAll]
  | _ :: _, [] => by simp [sameAll]
  | ty :: rest, ty' :: rest' => by simp [sameAll, same_iff ty ty', sameAll_iff rest rest']

end

instance : DecidableEq Ty := fun left right => decidable_of_iff _ (same_iff left right)

end Ty

end IsaBackend
