import IsaBackend.Value.Basic

/-!
# Why a run fails

One constructor for each cause, with its message. Two of them end a run without a report of
their own: a subtraction below zero, and a loop that can never end.
-/

namespace IsaBackend

/-- Why a run fails. -/
inductive RunError where
  | unknownFunction (name : String)
  | unknownVariable (name : String)
  | arity (name : String) (expected found : Nat)
  | doubleAlloc (name : String)
  | unallocated (name : String)
  | doubleRelease (name : String)
  | useAfterRelease (name : String)
  /-- A routine returns while some of its storage is live. -/
  | leak (function name : String)
  | noReturn (function : String)
  | assertionFailed (text : String)
  | thrown (text : String)
  | exited
  | typeMismatch (expected : String) (found : ValueKind)
  /-- An integer is out of the range that its use allows. -/
  | overflow (value : Int)
  | outOfBounds (hi lo width : Nat)
  | invalidLiteral (text : String)
  | unknownField (name : String)
  | outOfFuel
  /-- A subtraction of bit-vectors went below zero. -/
  | underflow
  /-- A loop without instructions spends no fuel and never ends. -/
  | endlessLoop
  deriving DecidableEq, Repr

def RunError.message : RunError → String
  | unknownFunction name => "unknown function '" ++ name ++ "'"
  | unknownVariable name => "unknown variable '" ++ name ++ "'"
  | arity name expected found =>
    "'" ++ name ++ "' takes " ++ toString expected ++ " arguments, got " ++ toString found
  | doubleAlloc name => "'" ++ name ++ "' is allocated while still live"
  | unallocated name => "'" ++ name ++ "' is released but was never allocated"
  | doubleRelease name => "'" ++ name ++ "' is released twice"
  | useAfterRelease name => "'" ++ name ++ "' is used after release"
  | leak function name => "'" ++ name ++ "' is still allocated when '" ++ function ++ "' returns"
  | noReturn function => "'" ++ function ++ "' finished without returning"
  | assertionFailed text => "assertion failed: " ++ text
  | thrown text => "exception thrown: " ++ text
  | exited => "exit called"
  | typeMismatch expected found => "expected " ++ expected ++ ", found " ++ found.render
  | overflow value => toString value ++ " does not fit the representation"
  | outOfBounds hi lo width =>
    "range " ++ toString hi ++ ".." ++ toString lo ++ " is out of bounds for a " ++
      toString width ++ "-bit vector"
  | invalidLiteral text => "invalid literal '" ++ text ++ "'"
  | unknownField name => "field '" ++ name ++ "' does not exist"
  | outOfFuel => "execution ran out of fuel"
  | underflow => "bit-vector subtraction underflows"
  | endlessLoop => "loop never ends"

end IsaBackend
