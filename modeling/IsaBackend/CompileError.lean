import IsaBackend.Lifetime.Error
import IsaBackend.Rep.Basic

/-!
# Why a definition does not compile

Each cause is fatal for the definition at hand and for nothing else.
-/

namespace IsaBackend

/-- Why a definition does not compile. -/
inductive CompileError where
  | unrepresentable (ty : Ty) (pos : Position)
  /-- A form that earlier passes should have eliminated. -/
  | unsupported (construct : String) (pos : Position)
  /-- No bridge leads from one representation to the other. -/
  | mismatch (source target : Rep) (context : String)
  | unknownFunction (name : String)
  | unknownField (record : Rep) (field : String)
  | invalidAssignment (target : String) (pos : Position)
  | invalidReference (name : String) (pos : Position)
  | returnOutsideFunction
  /-- Storage is live at the end of a function's code. -/
  | neverReleased (name function : String)
  | argumentCount (callee : String) (expected found : Nat)
  /-- A function and its signature differ in the number of parameters. -/
  | parameterCount (function : String) (declared expected : Nat)
  | notRegistered (name : String)
  /-- The width of a vector literal is no 32-bit number. -/
  | vectorTooLong
  /-- The code of a function breaks the lifetime discipline. -/
  | lifetime (function : String) (cause : LifetimeError)
  deriving DecidableEq

/-- Whether the cause is a broken invariant of the back end itself. -/
def CompileError.isInternal : CompileError → Bool
  | neverReleased _ _ => true
  | argumentCount _ _ _ => true
  | parameterCount _ _ _ => true
  | notRegistered _ => true
  | vectorTooLong => true
  | lifetime _ _ => true
  | _ => false

def CompileError.message : CompileError → String
  | unrepresentable ty pos =>
    "at " ++ pos.render ++ ": type '" ++ ty.render ++ "' cannot be represented"
  | unsupported construct pos => "at " ++ pos.render ++ ": unsupported construct: " ++ construct
  | mismatch source target context =>
    "cannot convert " ++ source.render ++ " to " ++ target.render ++ " in " ++ context
  | unknownFunction name => "unknown function '" ++ name ++ "'"
  | unknownField record field => "type '" ++ record.render ++ "' has no field '" ++ field ++ "'"
  | invalidAssignment target pos => "at " ++ pos.render ++ ": cannot assign to '" ++ target ++ "'"
  | invalidReference name pos =>
    "at " ++ pos.render ++ ": cannot take a reference to '" ++ name ++ "'"
  | returnOutsideFunction => "return outside of a function body"
  | neverReleased name function =>
    "internal error: '" ++ name ++ "' is never released in " ++ function
  | argumentCount callee expected found =>
    "internal error: '" ++ callee ++ "' takes " ++ toString expected ++
      " arguments but is applied to " ++ toString found
  | parameterCount function declared expected =>
    "internal error: '" ++ function ++ "' declares " ++ toString declared ++
      " parameters but its signature has " ++ toString expected
  | notRegistered name => "internal error: type '" ++ name ++ "' was not registered"
  | vectorTooLong => "internal error: vector literal too long"
  | lifetime function cause => "internal error: in '" ++ function ++ "': " ++ cause.message

end IsaBackend
