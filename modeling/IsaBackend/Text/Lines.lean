/-!
# Indented lines

Generated text is a list of lines, each with its level of nesting.
-/

namespace IsaBackend

def indentation (depth : Nat) : String := String.join (List.replicate depth "  ")

structure Line where
  depth : Nat
  text : String
  deriving DecidableEq, Repr

namespace Line

def blank : Line := ⟨0, ""⟩

def render (line : Line) : String := indentation line.depth ++ line.text ++ "\n"

def renderAll (lines : List Line) : String := String.join (lines.map render)

/-- Lines between a head and a foot, which stand one level further out. -/
def enclose (depth : Nat) (head : String) (body : List Line) (foot : String) : List Line :=
  ⟨depth, head⟩ :: body ++ [⟨depth, foot⟩]

end Line

end IsaBackend
