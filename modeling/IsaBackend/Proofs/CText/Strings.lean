import IsaBackend.CText.Expression
import Mathlib.Tactic.SplitIfs

/-!
# String literals of C

A literal is read from its opening quote up to the first quote that no backslash escapes. The form
of a character ends where the reader expects it to, whatever follows: an octal escape has all of its
three digits, so that a digit after it is not taken for a fourth. Every text is therefore read back
from its literal, byte by byte.
-/

namespace IsaBackend.CString

/-- The characters that a literal may hold as they are, in escapes or alone. -/
def IsPrintable (c : Char) : Prop := ' ' ≤ c ∧ c ≤ '~'

instance (c : Char) : Decidable (IsPrintable c) := inferInstanceAs (Decidable (_ ∧ _))

/-- The byte of an escape that has one character after the backslash. -/
def simpleEscape? : Char → Option UInt8
  | '"' => some 34
  | '\\' => some 92
  | 'n' => some 10
  | 't' => some 9
  | _ => none

def octalDigit? (c : Char) : Option Nat :=
  if '0' ≤ c ∧ c ≤ '7' then some (c.toNat - 48) else none

def octalEscape? (first second third : Char) : Option UInt8 := do
  let value := 64 * (← octalDigit? first) + 8 * (← octalDigit? second) + (← octalDigit? third)
  if value < 256 then some (.ofNat value) else none

def prepend (byte : UInt8) : Option (List UInt8 × List Char) → Option (List UInt8 × List Char) :=
  Option.map fun (bytes, rest) => (byte :: bytes, rest)

/-- The bytes of a literal after its opening quote, and what follows its closing quote. A backslash
has to start an escape, and a character that cannot be printed may not stand in a literal. -/
def read : List Char → Option (List UInt8 × List Char)
  | [] => none
  | c :: rest =>
    if c = '"' then some ([], rest)
    else if c = '\\' then
      match rest with
      | [] => none
      | first :: rest =>
        match simpleEscape? first with
        | some byte => prepend byte (read rest)
        | none =>
          match rest with
          | second :: third :: rest =>
            (octalEscape? first second third).bind fun byte => prepend byte (read rest)
          | _ => none
    else if IsPrintable c then prepend c.toUInt8 (read rest)
    else none

private theorem octalDigit?_digitChar : ∀ digit < 8, octalDigit?
    (Nat.digitChar digit) = some digit := by
  decide

private theorem isPrintable_digitChar : ∀ digit < 8, IsPrintable (Nat.digitChar digit) := by
  decide

/-- An octal escape has all of its three digits. -/
theorem padded_octal : ∀ number < 256, (Digits.padded 8 3 number).toList =
    [Nat.digitChar (number / 64), Nat.digitChar (number / 8 % 8), Nat.digitChar (number % 8)] := by
  simp only [Digits.padded, String.toList_ofList]
  decide +kernel

private theorem simpleEscape?_digitChar : ∀ digit < 8, simpleEscape?
    (Nat.digitChar digit) = none := by
  decide

private theorem read_octal (byte : UInt8) (rest : List Char) :
    read ('\\' :: (Digits.padded 8 3 byte.toNat).toList ++ rest) =
      [byte].foldr prepend (read rest) := by
  have hbyte : byte.toNat < 256 := byte.toNat_lt
  have hsum : 64 * (byte.toNat / 64) + 8 * (byte.toNat / 8 % 8) + byte.toNat % 8 = byte.toNat := by
    omega
  have hescape : octalEscape? (Nat.digitChar (byte.toNat / 64)) (Nat.digitChar (byte.toNat / 8 % 8))
      (Nat.digitChar (byte.toNat % 8)) = some byte := by
    rw [octalEscape?, octalDigit?_digitChar (byte.toNat / 64) (by omega),
      octalDigit?_digitChar (byte.toNat / 8 % 8) (by omega),
      octalDigit?_digitChar (byte.toNat % 8) (by omega)]
    simp only [Option.bind_eq_bind, Option.bind_some, hsum, hbyte, if_true, UInt8.ofNat_toNat]
  rw [padded_octal byte.toNat hbyte]
  simp only [List.cons_append, List.nil_append, read]
  rw [simpleEscape?_digitChar (byte.toNat / 64) (by omega), hescape]
  rfl

/-- What is written for items one after the other is read item by item. -/
theorem read_flatMap {α : Type} {write : α → List Char} {bytes : α → List UInt8}
    (h : ∀ item rest, read (write item ++ rest) = (bytes item).foldr prepend (read rest))
    (items : List α) (rest : List Char) :
    read (items.flatMap write ++ rest) = (items.flatMap bytes).foldr prepend (read rest) := by
  induction items with
  | nil => rfl
  | cons item items ih =>
    rw [List.flatMap_cons, List.flatMap_cons, List.append_assoc, h, ih, List.foldr_append]

private theorem foldr_prepend (bytes : List UInt8) (rest : List Char) :
    bytes.foldr prepend (some ([], rest)) = some (bytes, rest) := by
  induction bytes with
  | nil => rfl
  | cons byte bytes ih => rw [List.foldr_cons, ih, prepend, Option.map_some]

private theorem toList_octal (c : Char) : (octal c).toList =
    (String.utf8EncodeChar c).flatMap fun byte =>
    '\\' :: (Digits.padded 8 3 byte.toNat).toList := by
  simp [octal, List.flatMap_map]

/-- The form of a character stands for its bytes, whatever follows. -/
theorem read_escape (c : Char) (rest : List Char) :
    read ((escape c).toList ++ rest) = (String.utf8EncodeChar c).foldr prepend (read rest) := by
  unfold escape
  split_ifs with hquote hbackslash hnewline htab hprintable
  · subst hquote; rfl
  · subst hbackslash; rfl
  · subst hnewline; rfl
  · subst htab; rfl
  · have hsize : c.utf8Size = 1 :=
      Char.utf8Size_eq_one_iff.mpr (UInt32.le_trans hprintable.2 (by decide))
    have hread : read (c :: rest) = prepend c.toUInt8 (read rest) := by
      rw [read.eq_def]
      simp only [if_neg hquote, if_neg hbackslash]
      exact if_pos hprintable
    rw [String.utf8EncodeChar_eq_singleton hsize, Char.toString, String.toList_singleton]
    exact hread
  · rw [toList_octal, read_flatMap read_octal, List.flatMap_singleton']

private theorem isPrintable_of_all {text : List Char}
    (h : text.all (fun c => IsPrintable c) = true) : ∀ c ∈ text, IsPrintable c :=
  fun c hc => of_decide_eq_true (List.all_eq_true.mp h c hc)

private theorem isPrintable_escape (c : Char) : ∀ d ∈ (escape c).toList, IsPrintable d := by
  unfold escape
  split_ifs with hquote hbackslash hnewline htab hprintable
  · exact isPrintable_of_all rfl
  · exact isPrintable_of_all rfl
  · exact isPrintable_of_all rfl
  · exact isPrintable_of_all rfl
  · rw [Char.toString, String.toList_singleton]
    exact List.forall_mem_singleton.mpr hprintable
  · intro d hd
    rw [toList_octal, List.mem_flatMap] at hd
    obtain ⟨byte, -, hd⟩ := hd
    have hbyte : byte.toNat < 256 := byte.toNat_lt
    rw [padded_octal byte.toNat hbyte] at hd
    simp only [List.mem_cons, List.not_mem_nil, or_false] at hd
    rcases hd with rfl | rfl | rfl | rfl
    · decide
    · exact isPrintable_digitChar _ (by omega)
    · exact isPrintable_digitChar _ (by omega)
    · exact isPrintable_digitChar _ (by omega)

private theorem toList_toUTF8 (text : String) :
    text.toUTF8.data.toList = text.toList.flatMap String.utf8EncodeChar := by
  have hbytes : (String.ofList text.toList).toUTF8.data.toList =
      text.toList.flatMap String.utf8EncodeChar := by
    rw [String.toUTF8_eq_toByteArray, String.toByteArray_ofList]
    exact congrArg Array.toList List.data_toByteArray
  rwa [String.ofList_toList] at hbytes

/-- The literal of a text is a quote, characters that can be printed, and a quote. A reader of C
finds its end there, whatever follows, and the bytes of the text in UTF-8. -/
theorem quote_reads_back (text : String) : ∃ body,
    (quote text).toList = '"' :: body ++ ['"'] ∧ (∀ c ∈ body, IsPrintable c) ∧
      ∀ rest, read (body ++ '"' :: rest) = some (text.toUTF8.data.toList, rest) := by
  refine ⟨text.toList.flatMap fun c => (escape c).toList, ?_, ?_, fun rest => ?_⟩
  · simp [quote, List.flatMap_map]
  · intro d hd
    obtain ⟨c, -, hd⟩ := List.mem_flatMap.mp hd
    exact isPrintable_escape c d hd
  · have hend : read ('"' :: rest) = some ([], rest) := by rw [read.eq_def]; rfl
    rw [read_flatMap read_escape, hend, foldr_prepend, toList_toUTF8]

end IsaBackend.CString
