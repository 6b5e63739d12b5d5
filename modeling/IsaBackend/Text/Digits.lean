/-!
# Digits

Numbers as written in literals: digits of either case, which underscores may separate after the
first one, behind at most one sign.
-/

namespace IsaBackend.Digits

/-- The number a character stands for as a digit of any radix up to thirty-six. -/
def ofChar? (c : Char) : Option Nat :=
  if '0' ≤ c ∧ c ≤ '9' then some (c.toNat - 48)
  else if 'a' ≤ c ∧ c ≤ 'z' then some (c.toNat - 87)
  else if 'A' ≤ c ∧ c ≤ 'Z' then some (c.toNat - 55)
  else none

/-- Extend a number by further digits, passing over underscores. -/
def extend? (radix : Nat) : Nat → List Char → Option Nat
  | number, [] => some number
  | number, c :: rest =>
    if c = '_' then extend? radix number rest
    else match ofChar? c with
      | some digit => if digit < radix then extend? radix (number * radix + digit) rest else none
      | none => none

/-- Drop one plus sign, unless a second one follows it. -/
def dropPlus : List Char → List Char
  | '+' :: '+' :: rest => '+' :: '+' :: rest
  | '+' :: rest => rest
  | text => text

/-- Read a number that has at least one digit and does not start with an underscore. -/
def readNat? (radix : Nat) (text : List Char) : Option Nat :=
  match dropPlus text with
  | [] => none
  | '_' :: _ => none
  | digits => extend? radix 0 digits

/-- Read a decimal number that a minus sign may precede. -/
def readInt? : List Char → Option Int
  | '-' :: '+' :: _ => none
  | '-' :: digits => (readNat? 10 digits).map fun n => -(n : Int)
  | digits => (readNat? 10 digits).map fun n => (n : Int)

def lower (radix number : Nat) : String := String.ofList (Nat.toDigits radix number)

def upperHex (number : Nat) : String :=
  String.ofList ((Nat.toDigits 16 number).map Char.toUpper)

/-- The digits of a number, filled with zeros on the left up to a width. -/
def padded (radix width number : Nat) : String :=
  let digits := Nat.toDigits radix number
  String.ofList (List.replicate (width - digits.length) '0' ++ digits)

end IsaBackend.Digits
