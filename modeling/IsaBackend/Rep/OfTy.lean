import IsaBackend.CompileError
import IsaBackend.Interface
import IsaBackend.Rep.Layouts

/-!
# The representation of a source type

Bounded integers are machine words when both bounds are known and fit one. Bit-vectors are packed
when their length is known and at most a machine word. Vectors, lists and types that were not
expanded have no representation.
-/

namespace IsaBackend

/-- What the choice of representations depends on. -/
structure Surroundings where
  layouts : Layouts
  interface : Interface

namespace Rep

def ofBounds (interface : Interface) (lo hi : Size) : Rep :=
  match interface.size lo, interface.size hi with
  | some lo, some hi => if fitsWord lo && fitsWord hi then machInt else bigInt
  | _, _ => bigInt

def ofLength (interface : Interface) (length : Size) (order : Direction) : Rep :=
  match interface.size length with
  | some length =>
    if 0 ≤ length && length ≤ maxPackedWidth then packedBits length.toNat order
    else wideBits order
  | none => wideBits order

mutual

/-- The representation of a source type that is used at a position. -/
def ofTy (around : Surroundings) (pos : Position) : Ty → Except CompileError Rep
  | .unit => .ok unit
  | .bit => .ok (packedBits 1 .dec)
  | .bool => .ok bool
  | .string => .ok string
  | .int => .ok bigInt
  | .range lo hi => .ok (ofBounds around.interface lo hi)
  | .atom value => .ok (ofBounds around.interface value value)
  | .bits length order => .ok (ofLength around.interface length order)
  | .tuple elems => do return tuple (← ofTys around pos elems)
  | .named name =>
    match around.layouts.lookup? name with
    | some rep => .ok rep
    | none => .error (.unrepresentable (.named name) pos)
  | .ref inner => do return ref (← ofTy around pos inner)
  | .vector length order elem => .error (.unrepresentable (.vector length order elem) pos)
  | .list elem => .error (.unrepresentable (.list elem) pos)
  | .abbreviation name => .error (.unrepresentable (.abbreviation name) pos)
  | .bitfield name => .error (.unrepresentable (.bitfield name) pos)

def ofTys (around : Surroundings) (pos : Position) : List Ty → Except CompileError (List Rep)
  | [] => .ok []
  | ty :: rest => do return (← ofTy around pos ty) :: (← ofTys around pos rest)

end

/-- The width of the packed bit-vectors that represent a type, if they do. -/
def packedWidth? (around : Surroundings) (ty : Ty) : Option Nat :=
  match ofTy around .generated ty with
  | .ok (packedBits width _) => some width
  | _ => none

end Rep

end IsaBackend
