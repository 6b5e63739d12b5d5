/-!
# Source positions

Positions travel from the checked program into error messages. Line zero stands for code that
has no place in the source text.
-/

namespace IsaBackend

/-- A line and a column of the source text, both counted from one. -/
structure Position where
  line : Nat
  column : Nat
  deriving DecidableEq, Repr

namespace Position

/-- The position of everything that was not written in the source text. -/
def generated : Position := ⟨0, 0⟩

/-- Only the line decides whether a position is known. -/
def isGenerated (pos : Position) : Bool := pos.line == 0

def render (pos : Position) : String :=
  if pos.isGenerated then "<generated>" else toString pos.line ++ ":" ++ toString pos.column

end Position

end IsaBackend
