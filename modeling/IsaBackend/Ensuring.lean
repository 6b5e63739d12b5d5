/-!
# Changes that success and failure share

A computation with state and errors keeps the state it had when it failed. Some changes of the
state have to be undone either way.
-/

namespace IsaBackend

variable {ε σ α : Type}

/-- Run a computation, and change the state afterwards whether it succeeded or failed. -/
def ensuring (act : EStateM ε σ α) (after : σ → σ) : EStateM ε σ α := fun state =>
  match act state with
  | .ok value state => .ok value (after state)
  | .error cause state => .error cause (after state)

def lift (result : Except ε α) : EStateM ε σ α := fun state =>
  match result with
  | .ok value => .ok value state
  | .error cause => .error cause state

end IsaBackend
