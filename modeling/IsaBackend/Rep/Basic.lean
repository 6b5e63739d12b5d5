import IsaBackend.Ty

/-!
# Representations

A representation says how a value is stored by the generated code. Stack representations are
plain machine values that are moved by copy. All others are heap representations: their storage
is allocated, and released exactly once.
-/

namespace IsaBackend

/-- How a value is stored. -/
inductive Rep where
  /-- Integers of any size. -/
  | bigInt
  /-- Bit-vectors of any length. -/
  | wideBits (order : Direction)
  /-- Bit-vectors of a fixed width in a machine word. -/
  | packedBits (width : Nat) (order : Direction)
  /-- Signed machine words. -/
  | machInt
  | unit
  | bool
  /-- Literal texts. -/
  | string
  | tuple (elems : List Rep)
  | struct (name : String) (fields : List (String × Rep))
  | enum (name : String) (members : List String)
  /-- A tagged union: its constructors and their payloads. -/
  | union (name : String) (ctors : List (String × Rep))
  /-- The address of a register. -/
  | ref (inner : Rep)
  deriving Repr

namespace Rep

/-- The widest bit-vector that is packed into a machine word. -/
def maxPackedWidth : Nat := 64

mutual

/-- Whether values are plain machine values. -/
def isStack : Rep → Bool
  | machInt => true
  | packedBits _ _ => true
  | unit => true
  | bool => true
  | string => true
  | enum _ _ => true
  | ref _ => true
  | struct _ fields => allStack fields
  | bigInt => false
  | wideBits _ => false
  | tuple _ => false
  | union _ _ => false

def allStack : List (String × Rep) → Bool
  | [] => true
  | (_, rep) :: rest => rep.isStack && allStack rest

end

def tupleField (index : Nat) : String := "tup" ++ toString index

/-- The components of a tuple as fields, from an index on. -/
def numbered : Nat → List Rep → List (String × Rep)
  | _, [] => []
  | index, rep :: rest => (tupleField index, rep) :: numbered (index + 1) rest

def fields? : Rep → Option (List (String × Rep))
  | struct _ fields => some fields
  | tuple elems => some (numbered 0 elems)
  | _ => none

/-- The fields of a record, and none of anything else. -/
def fields (rep : Rep) : List (String × Rep) := rep.fields?.getD []

def structField? : Rep → String → Option Rep
  | struct _ fields, name => fields.lookup name
  | _, _ => none

mutual

def render : Rep → String
  | bigInt => "big_int"
  | wideBits order => "lbits(" ++ order.render ++ ")"
  | packedBits width order => "fbits(" ++ toString width ++ ", " ++ order.render ++ ")"
  | machInt => "mach_int"
  | unit => "unit"
  | bool => "bool"
  | string => "string"
  | tuple elems => "(" ++ String.intercalate ", " (renderAll elems) ++ ")"
  | struct name _ => "struct " ++ name
  | enum name _ => "enum " ++ name
  | union name _ => "union " ++ name
  | ref inner => "&" ++ inner.render

def renderAll : List Rep → List String
  | [] => []
  | rep :: rest => rep.render :: renderAll rest

end

mutual

def same : Rep → Rep → Bool
  | bigInt, bigInt => true
  | wideBits order, wideBits order' => order = order'
  | packedBits width order, packedBits width' order' => width = width' && order = order'
  | machInt, machInt => true
  | unit, unit => true
  | bool, bool => true
  | string, string => true
  | tuple elems, tuple elems' => sameAll elems elems'
  | struct name fields, struct name' fields' => name = name' && sameFields fields fields'
  | enum name members, enum name' members' => name = name' && members = members'
  | union name ctors, union name' ctors' => name = name' && sameFields ctors ctors'
  | ref inner, ref inner' => inner.same inner'
  | _, _ => false

def sameAll : List Rep → List Rep → Bool
  | [], [] => true
  | rep :: rest, rep' :: rest' => rep.same rep' && sameAll rest rest'
  | _, _ => false

def sameFields : List (String × Rep) → List (String × Rep) → Bool
  | [], [] => true
  | (name, rep) :: rest, (name', rep') :: rest' =>
    name = name' && rep.same rep' && sameFields rest rest'
  | _, _ => false

end

mutual

private theorem same_iff : ∀ left right : Rep, left.same right = true ↔ left = right
  | left, right => by
    cases left <;> cases right <;>
      simp [same, same_iff, sameAll_iff, sameFields_iff]

theorem sameAll_iff : ∀ left right : List Rep, sameAll left right = true ↔ left = right
  | [], [] => by simp [sameAll]
  | [], _ :: _ => by simp [sameAll]
  | _ :: _, [] => by simp [sameAll]
  | rep :: rest, rep' :: rest' => by simp [sameAll, same_iff rep rep', sameAll_iff rest rest']

theorem sameFields_iff : ∀ left right : List (String × Rep),
    sameFields left right = true ↔ left = right
  | [], [] => by simp [sameFields]
  | [], _ :: _ => by simp [sameFields]
  | _ :: _, [] => by simp [sameFields]
  | (name, rep) :: rest, (name', rep') :: rest' => by
    simp [sameFields, same_iff rep rep', sameFields_iff rest rest']

end

instance : DecidableEq Rep := fun left right => decidable_of_iff _ (same_iff left right)

/-- The order of a bit-vector representation; all others count as falling. -/
def order : Rep → Direction
  | packedBits _ order => order
  | wideBits order => order
  | _ => .dec

end Rep

end IsaBackend
