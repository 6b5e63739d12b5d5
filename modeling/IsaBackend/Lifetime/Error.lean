import IsaBackend.Inline

/-!
# Breaches of the lifetime discipline

What the check of a routine can find, one constructor for each cause.
-/

namespace IsaBackend

/-- A breach of the lifetime discipline on some path through a routine. -/
inductive LifetimeError where
  | doubleAlloc (name : String)
  | releaseUnallocated (name : String)
  | doubleRelease (name : String)
  /-- A name is released before the one that was allocated last. -/
  | outOfOrder (expected found : String)
  | useAfterRelease (name : String)
  | leakAtReturn (name : String)
  | leakAtEnd (name : String)
  | unbalancedLoop
  | breakOutsideLoop
  /-- An inline integer that fits no machine word. -/
  | wideConstant (inline : Inline)
  deriving DecidableEq, Repr

def LifetimeError.message : LifetimeError → String
  | doubleAlloc name => "'" ++ name ++ "' is allocated while already live"
  | releaseUnallocated name => "'" ++ name ++ "' is released without being allocated"
  | doubleRelease name => "'" ++ name ++ "' is released twice"
  | outOfOrder expected found =>
    "'" ++ found ++ "' is released while '" ++ expected ++ "' is still live"
  | useAfterRelease name => "'" ++ name ++ "' is used after its release"
  | leakAtReturn name => "'" ++ name ++ "' is still live at return"
  | leakAtEnd name => "'" ++ name ++ "' is still live at end of function"
  | unbalancedLoop => "loop body does not release what it allocates"
  | breakOutsideLoop => "break outside of a loop"
  | wideConstant inline => "constant in '" ++ inline.render ++ "' does not fit a machine word"

end IsaBackend
