import IsaBackend.Proofs.Machine.Runs
import IsaBackend.Proofs.Staging.State
import IsaBackend.Proofs.Text.Digits
import IsaBackend.Proofs.Value.BitRanges
import IsaBackend.Staging.Load

/-!
# Literals and their values

A literal that fits a machine word stands in the code as it is, and any other is a text that is
read when the code runs. Both ways give the same value: an integer itself, and for digits and rows
of bits the number that they write and a width that counts them, leading zeros included.
-/

namespace IsaBackend

/-! ## Texts of literals -/

namespace Value

variable {digits : String} {number : Nat}

end Value

/-! ## Operands of literals -/

/-- The number of a row of bits, the most significant one first. -/
def bitsNumber (bits : List Bool) : Nat := Nat.ofDigits 2 (bits.map Bool.toNat).reverse

/-- The value that a literal of the source stands for. The width counts every character of the
digits, an underscore or a sign among them too. -/
inductive Atom.Denotes : Atom → Value → Prop where
  | num (number : Int) (ty : Ty) : Denotes (.lit (.num number) ty) (.int number)
  | hex {digits : String} (ty : Ty) : (Digits.readNat? 16 digits.toList).isSome →
      4 * digits.length < 2 ^ 32 → Denotes (.lit (.hex digits) ty)
        (.bits (Digits.positional 16 digits.toList) (4 * digits.length))
  | bin {digits : String} (ty : Ty) : (Digits.readNat? 2 digits.toList).isSome →
      digits.length < 2 ^ 32 → Denotes (.lit (.bin digits) ty)
        (.bits (Digits.positional 2 digits.toList) digits.length)
  | vector {bits : List (Bool × Ty)} (ty : Ty) : bits.length < 2 ^ 32 →
      Denotes (.vector (bits.map fun bit => .lit (.bit bit.1) bit.2) ty)
        (.bits (bitsNumber (bits.map Prod.fst)) bits.length)

namespace Staging

variable {state : StagingState}

end Staging

end IsaBackend
