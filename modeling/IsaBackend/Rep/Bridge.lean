import IsaBackend.Rep.Basic

/-!
# Bridges between representations

Integers and bit-vectors have a stack and a heap representation each, and a value can be moved
between the two. A packed bit-vector can also be narrowed, which masks its high bits. Any other
two representations have to agree.
-/

namespace IsaBackend.Rep

/-- Whether a value can be stored unchanged as another representation. A packed bit-vector fits
any packed one of the same order that is not narrower. -/
def compatible : Rep → Rep → Bool
  | packedBits width order, packedBits width' order' => order = order' && width ≤ width'
  | source, target => source = target

/-- What it takes to move a value from one representation to another. -/
inductive Bridge where
  /-- Nothing. -/
  | identity
  /-- From the stack to the heap. -/
  | promote
  /-- From the heap to the stack. -/
  | demote
  /-- From a packed bit-vector to a narrower one. -/
  | truncate
  deriving DecidableEq, Repr

/-- The bridge between two representations that are not compatible. -/
def crossing? : Rep → Rep → Option Bridge
  | machInt, bigInt => some .promote
  | bigInt, machInt => some .demote
  | packedBits _ order, wideBits order' => if order = order' then some .promote else none
  | wideBits order, packedBits _ order' => if order = order' then some .demote else none
  | packedBits _ order, packedBits _ order' => if order = order' then some .truncate else none
  | _, _ => none

def bridge? (source target : Rep) : Option Bridge :=
  if source.compatible target then some .identity else crossing? source target

end IsaBackend.Rep
