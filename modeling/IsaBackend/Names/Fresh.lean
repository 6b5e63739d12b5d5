/-!
# Fresh names

Generated names carry a mark that no source name has, and a number that grows with every name
handed out.
-/

namespace IsaBackend

/-- The supply of fresh names: the number of the next one. -/
structure FreshNames where
  next : Nat := 0
  deriving DecidableEq, Repr

namespace FreshNames

/-- What every generated name starts with. -/
def mark : String := "gs#"

def name (number : Nat) : String := mark ++ toString number

/-- A name that was not handed out before, and the supply without it. -/
def take (names : FreshNames) : String × FreshNames := (name names.next, ⟨names.next + 1⟩)

/-- Whether a name has the form of a generated one. -/
def isFresh (name : String) : Bool := mark.toList.isPrefixOf name.toList

end FreshNames

end IsaBackend
