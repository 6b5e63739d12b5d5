import IsaBackend.Interface

/-!
# Lexical scope

The locals in scope at a point of a function body are kept in one table. Declaring a name that is
in scope already puts the hidden binding on a log, and leaving a scope drops what it declared and
takes back from the log what it hid. Names that are not local are global.

A depth is a 32-bit number, so whoever opens scopes one by one can run out of them. The scopes of an
expression are opened by a recursion over it, which ends long before that.
-/

namespace IsaBackend

/-- A local binding and the depth of the scope that declares it. -/
structure Binding where
  ty : Ty
  mutable : Bool
  depth : Nat
  deriving DecidableEq

/-- A binding that a declaration at some depth has hidden. -/
structure Hidden where
  depth : Nat
  name : String
  binding : Binding
  deriving DecidableEq

/-- The locals in scope. The scope of the function itself has depth zero. -/
structure Scope where
  bindings : NameTable Binding := ∅
  depth : Nat := 0
  /-- Hidden bindings, the last one first. -/
  hidden : List Hidden := []

namespace Scope

def enter (scope : Scope) : Scope := { scope with depth := scope.depth + 1 }

/-- Take back the bindings that declarations at a depth have hidden. Those of the same depth go
with the scope. -/
def restore (depth : Nat) (bindings : NameTable Binding) :
    List Hidden → NameTable Binding × List Hidden
  | [] => (bindings, [])
  | entry :: rest =>
    if entry.depth = depth then
      restore depth
        (if entry.binding.depth < depth then bindings.set entry.name entry.binding else bindings)
        rest
    else (bindings, entry :: rest)

/-- Leave the innermost scope. At depth zero that empties the scope of the function. -/
def leave (scope : Scope) : Scope :=
  let kept := scope.bindings.filter fun binding => binding.depth < scope.depth
  let (bindings, hidden) := restore scope.depth kept scope.hidden
  { bindings, hidden, depth := scope.depth - 1 }

def declare (scope : Scope) (name : String) (ty : Ty) (mutable : Bool) : Scope :=
  { scope with
    bindings := scope.bindings.set name ⟨ty, mutable, scope.depth⟩
    hidden :=
      match scope.bindings.get? name with
      | some old => ⟨scope.depth, name, old⟩ :: scope.hidden
      | none => scope.hidden }

def get? (scope : Scope) (name : String) : Option Binding := scope.bindings.get? name

/-- The class and the type of a name: those of the local binding, else of the global one. -/
def classify (scope : Scope) (interface : Interface) (name : String) : Option (NameClass × Ty) :=
  match scope.get? name with
  | some binding => some (if binding.mutable then .mutableLocal else .immutableLocal, binding.ty)
  | none => interface.global name

end Scope

end IsaBackend
