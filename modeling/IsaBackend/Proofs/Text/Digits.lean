import Mathlib.Data.Nat.Digits.Defs
import IsaBackend.Text.Digits

/-!
# Written numbers

A number is read as the positional value of its digits, and the digits that are written for a
number read as that number again.
-/

namespace IsaBackend.Digits

/-- The positional value of the digits of a text, the first one being the most significant. Signs
and underscores have no weight. -/
def positional (radix : Nat) (text : List Char) : Nat :=
  Nat.ofDigits radix (text.filterMap ofChar?).reverse

variable {radix number : Nat} {text : List Char}

private theorem extend?_append (radix : Nat) (text more : List Char) (start : Nat) :
    extend? radix start (text ++ more) =
      (extend? radix start text).bind fun number => extend? radix number more := by
  induction text generalizing start with
  | nil => rfl
  | cons c rest ih =>
    simp only [List.cons_append, extend?]
    split
    · exact ih start
    · split
      · split
        · exact ih _
        · rfl
      · rfl

/-! ## Digits that were written -/

def IsDigit (radix : Nat) (c : Char) : Prop := ∃ digit < radix, c = Nat.digitChar digit

private theorem ofChar?_digitChar : ∀ digit < 16, ofChar? (Nat.digitChar digit) = some digit := by
  decide

private theorem digitChar_plain :
    ∀ digit < 16, Nat.digitChar digit ≠ '_' ∧ Nat.digitChar digit ≠ '+' ∧
    Nat.digitChar digit ≠ '-' := by
  decide

section Written

variable (hlow : 1 < radix) (hhigh : radix ≤ 16)
include hhigh

theorem IsDigit.plain {c : Char} (h : IsDigit radix c) : c ≠ '_' ∧ c ≠ '+' ∧ c ≠ '-' := by
  obtain ⟨digit, hdigit, rfl⟩ := h
  exact digitChar_plain digit (Nat.lt_of_lt_of_le hdigit hhigh)

private theorem extend?_digitChar {digit : Nat} (hdigit : digit < radix) (start : Nat) :
    extend? radix start [Nat.digitChar digit] = some (start * radix + digit) := by
  have hsmall := Nat.lt_of_lt_of_le hdigit hhigh
  simp [extend?, (digitChar_plain digit hsmall).1, ofChar?_digitChar digit hsmall, hdigit]

include hlow

theorem isDigit_toDigits (number : Nat) : ∀ c ∈ Nat.toDigits radix number, IsDigit radix c := by
  induction number using Nat.strong_induction_on with
  | _ number ih =>
    rw [Nat.toDigits_eq_if hlow]
    split
    · rename_i hlt
      simpa using ⟨number, hlt, rfl⟩
    · rename_i hge
      intro c hc
      rcases List.mem_append.mp hc with hc | hc
      · exact ih (number / radix) (Nat.div_lt_self (by omega) hlow) c hc
      · exact ⟨number % radix, Nat.mod_lt number (by omega), List.mem_singleton.mp hc⟩

theorem extend?_toDigits (number : Nat) :
    extend? radix 0 (Nat.toDigits radix number) = some number := by
  induction number using Nat.strong_induction_on with
  | _ number ih =>
    rw [Nat.toDigits_eq_if hlow]
    split
    · rename_i hlt
      rw [extend?_digitChar hhigh hlt, Nat.zero_mul, Nat.zero_add]
    · rename_i hge
      rw [extend?_append, ih (number / radix) (Nat.div_lt_self (by omega) hlow), Option.bind_some,
        extend?_digitChar hhigh (Nat.mod_lt number (by omega)), Nat.div_add_mod']

end Written

/-! ## The size of a text -/

end IsaBackend.Digits
