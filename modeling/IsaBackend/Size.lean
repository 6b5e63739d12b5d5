/-!
# Sizes

Lengths and bounds of types are symbolic integer expressions. They have a value once their
variables have one.
-/

namespace IsaBackend

/-- A symbolic integer expression. -/
inductive Size where
  | const (value : Int)
  | var (name : String)
  | add (left right : Size)
  | sub (left right : Size)
  | mul (left right : Size)
  | neg (operand : Size)
  | pow2 (exponent : Size)
  deriving DecidableEq, Repr

/-- Whether an integer lies in the range of a signed machine word. -/
def fitsWord (n : Int) : Bool := -0x8000000000000000 ≤ n && n < 0x8000000000000000

/-- Whether an integer can be a number of bits: such numbers are unsigned and take 32 bits. -/
def fitsCount (n : Int) : Bool := 0 ≤ n && n < 0x100000000

namespace Size

/-- Two to a power, for exponents that can be a number of bits. -/
def pow2? (exponent : Int) : Option Int :=
  if fitsCount exponent then some (1 <<< exponent.toNat : Nat) else none

/-- The value of a size under an assignment of its variables. -/
def eval (value : String → Option Int) : Size → Option Int
  | const n => some n
  | var name => value name
  | add left right => do return (← left.eval value) + (← right.eval value)
  | sub left right => do return (← left.eval value) - (← right.eval value)
  | mul left right => do return (← left.eval value) * (← right.eval value)
  | neg operand => do return -(← operand.eval value)
  | pow2 exponent => do pow2? (← exponent.eval value)

def constant? (size : Size) : Option Int := size.eval fun _ => none

def render : Size → String
  | const n => toString n
  | var name => "'" ++ name
  | add left right => "(" ++ left.render ++ " + " ++ right.render ++ ")"
  | sub left right => "(" ++ left.render ++ " - " ++ right.render ++ ")"
  | mul left right => "(" ++ left.render ++ " * " ++ right.render ++ ")"
  | neg operand => "-" ++ operand.render
  | pow2 exponent => "2^" ++ exponent.render

end Size

end IsaBackend
