import Mathlib.Algebra.Group.Nat.Defs
import IsaBackend.Proofs.Effects
import IsaBackend.Value.Primitive

/-!
# Ranges of bits

A bit-vector behaves like a row of cells, one for each bit. A write to a range replaces the cells of
the range, keeps the others of the vector's width, and drops whatever the number has beyond that
width. The laws of reads and writes follow from what each of the two does to a single bit.
-/

namespace IsaBackend

theorem lowBits_eq_mod (value width : Nat) : lowBits value width = value % 2 ^ width := by
  rw [lowBits, Nat.one_shiftLeft]

private theorem testBit_lowBits (value width i : Nat) :
    (lowBits value width).testBit i = (decide (i < width) && value.testBit i) := by
  rw [lowBits_eq_mod, Nat.testBit_mod_two_pow]

private theorem testBit_allOnes (width i : Nat) : (allOnes width).testBit i = decide
    (i < width) := by
  rw [allOnes, Nat.one_shiftLeft, Nat.testBit_two_pow_sub_one]

theorem fitsCount_iff (n : Nat) : fitsCount n = true ↔ n < 2 ^ 32 := by
  simp only [fitsCount, Bool.and_eq_true, decide_eq_true_eq]
  omega

private theorem Primitive.count_of_lt {n : Nat} (h : n < 2 ^ 32) : count (.int n) = .ok n := by
  have hfits := (fitsCount_iff n).mpr h
  rw [count, int, except_ok_bind, if_pos hfits, Int.toNat_natCast]
  rfl

private theorem Primitive.applySubrange_eq {name : String} {value width top bottom : Nat}
    {hi lo : Value} (h : bounds hi lo width = .ok (top, bottom)) :
    applySubrange name [.bits value width, hi, lo] =
      .ok (.bits (readRange value top bottom) (top - bottom + 1)) := by
  simp only [applySubrange, bits, except_ok_bind, h]
  rfl

private theorem Primitive.applyUpdate_eq {name : String} {value width top bottom update size : Nat}
    {hi lo : Value} (h : bounds hi lo width = .ok (top, bottom)) :
    applyUpdate name [.bits value width, hi, lo, .bits update size] =
      .ok (.bits (writeRange value width top bottom update) width) := by
  simp only [applyUpdate, bits, except_ok_bind, h]
  rfl

/-- A range of the bits of a vector, both ends included. -/
structure BitRange (width : Nat) where
  hi : Nat
  lo : Nat
  ordered : lo ≤ hi
  inside : hi < width

namespace BitRange

open Primitive

variable {width : Nat} (range other : BitRange width) (value update next i : Nat)

def length : Nat := range.hi - range.lo + 1

def Covers : Prop := range.lo ≤ i ∧ i ≤ range.hi

instance : Decidable (range.Covers i) := inferInstanceAs (Decidable (_ ∧ _))

def Apart : Prop := range.hi < other.lo ∨ other.hi < range.lo

private theorem Apart.not_covers {range other : BitRange width} (h : range.Apart other) {i : Nat}
    (hi : other.Covers i) : ¬range.Covers i := by
  simp only [Apart, Covers] at *
  omega

private theorem Covers.inside {range : BitRange width} {i : Nat} (h : range.Covers i) : i < width :=
  Nat.lt_of_le_of_lt h.2 range.inside

/-! ## Single bits -/

private theorem covers_iff : range.Covers i ↔ range.lo ≤ i ∧ i - range.lo < range.length := by
  have := range.ordered
  simp only [Covers, length]
  omega

private theorem testBit_readRange :
    (readRange value range.hi range.lo).testBit i =
      (decide (range.Covers (range.lo + i)) && value.testBit (range.lo + i)) := by
  rw [readRange, testBit_lowBits, Nat.testBit_shiftRight]
  simp [covers_iff, length]

private theorem testBit_writeRange :
    (writeRange value width range.hi range.lo update).testBit i =
      if range.Covers i then update.testBit (i - range.lo)
      else decide (i < width) && value.testBit i := by
  have hhole : (allOnes range.length <<< range.lo).testBit i = decide (range.Covers i) := by
    simp [covers_iff, Nat.testBit_shiftLeft, testBit_allOnes]
  have hpatch : (lowBits update range.length <<< range.lo).testBit i =
      (decide (range.Covers i) && update.testBit (i - range.lo)) := by
    simp [covers_iff, Nat.testBit_shiftLeft, testBit_lowBits, Bool.and_assoc]
  change ((value &&& (allOnes width ^^^ allOnes range.length <<< range.lo)) |||
    lowBits update range.length <<< range.lo).testBit i = _
  rw [Nat.testBit_or, Nat.testBit_and, Nat.testBit_xor, hhole, hpatch, testBit_allOnes]
  by_cases hcovers : range.Covers i
  · simp [hcovers, hcovers.inside]
  · simp [hcovers, Bool.and_comm]

/-! ## Laws of the numbers -/

theorem writeRange_lt : writeRange value width range.hi range.lo update < 2 ^ width := by
  refine Nat.lt_pow_two_of_testBit _ fun i hi => ?_
  have hout : ¬range.Covers i := fun hcovers => absurd hcovers.inside (by omega)
  rw [testBit_writeRange, if_neg hout, decide_eq_false (by omega), Bool.false_and]

private theorem readRange_writeRange_self :
    readRange (writeRange value width range.hi range.lo update) range.hi range.lo =
      update % 2 ^ range.length := by
  refine Nat.eq_of_testBit_eq fun i => ?_
  rw [testBit_readRange, testBit_writeRange, Nat.testBit_mod_two_pow, Nat.add_sub_cancel_left]
  have hcovers : range.Covers (range.lo + i) ↔ i < range.length := by simp [covers_iff]
  by_cases hlt : i < range.length <;> simp [hcovers, hlt]

variable {range other}

private theorem readRange_writeRange_apart (h : range.Apart other) :
    readRange (writeRange value width range.hi range.lo update) other.hi other.lo =
      readRange value other.hi other.lo := by
  refine Nat.eq_of_testBit_eq fun i => ?_
  rw [testBit_readRange, testBit_readRange, testBit_writeRange]
  by_cases hcovers : other.Covers (other.lo + i)
  · simp [hcovers, hcovers.inside, h.not_covers hcovers]
  · simp [hcovers]

private theorem writeRange_comm (h : range.Apart other) :
    writeRange (writeRange value width range.hi range.lo update) width other.hi other.lo next =
      writeRange (writeRange value width other.hi other.lo next) width range.hi range.lo update := by
  refine Nat.eq_of_testBit_eq fun i => ?_
  simp only [testBit_writeRange]
  by_cases hcovers : other.Covers i
  · simp [hcovers, hcovers.inside, h.not_covers hcovers]
  · by_cases hfirst : range.Covers i
    · simp [hcovers, hfirst, hfirst.inside]
    · simp [hcovers, hfirst]

variable (range)

private theorem writeRange_writeRange_self :
    writeRange (writeRange value width range.hi range.lo update) width range.hi range.lo next =
      writeRange value width range.hi range.lo next := by
  refine Nat.eq_of_testBit_eq fun i => ?_
  simp only [testBit_writeRange]
  by_cases hcovers : range.Covers i <;> simp [hcovers]

private theorem writeRange_readRange_self :
    writeRange value width range.hi range.lo (readRange value range.hi range.lo) =
      value % 2 ^ width := by
  refine Nat.eq_of_testBit_eq fun i => ?_
  rw [testBit_writeRange, testBit_readRange, Nat.testBit_mod_two_pow]
  by_cases hcovers : range.Covers i
  · rw [if_pos hcovers, Nat.add_sub_cancel' hcovers.1]
    simp [hcovers, hcovers.inside]
  · rw [if_neg hcovers]

/-! ## Laws of the primitives -/

def read (vector : Value) : Option (Except RunError Value) :=
  Primitive.call? "vector_subrange" [vector, .int range.hi, .int range.lo]

def write (vector update : Value) : Option (Except RunError Value) :=
  Primitive.call? "vector_update_subrange" [vector, .int range.hi, .int range.lo, update]

variable {range}

private theorem bounds_eq (hwidth : fitsCount width = true) :
    bounds (.int range.hi) (.int range.lo) width = .ok (range.hi, range.lo) := by
  have hordered := range.ordered
  have hinside := range.inside
  rw [fitsCount_iff] at hwidth
  have hhi : count (.int range.hi) = .ok range.hi := count_of_lt (by omega)
  have hlo : count (.int range.lo) = .ok range.lo := count_of_lt (by omega)
  have hgood : (decide (range.lo > range.hi) || decide (range.hi ≥ width)) = false := by
    simp only [Bool.or_eq_false_iff, decide_eq_false_iff_not]
    omega
  rw [bounds, hhi, hlo]
  simp only [except_ok_bind, hgood]
  rfl

private theorem read_eq (hwidth : fitsCount width = true) (value : Nat) :
    range.read (.bits value width) =
      some (.ok (.bits (readRange value range.hi range.lo) range.length)) := by
  have hname : ofName? "vector_subrange" = some .subrange := by decide
  rw [read, call?, hname, Option.map_some, apply, applySubrange_eq (bounds_eq hwidth)]
  rfl

private theorem write_eq (hwidth : fitsCount width = true) (value update updateWidth : Nat) :
    range.write (.bits value width) (.bits update updateWidth) =
      some (.ok (.bits (writeRange value width range.hi range.lo update) width)) := by
  have hname : ofName? "vector_update_subrange" = some .updateSubrange := by decide
  rw [write, call?, hname, Option.map_some, apply, applyUpdate_eq (bounds_eq hwidth)]

/-- A write to a range of a bit-vector succeeds, and its result is within the vector's width. The
range reads back what was written, cut to its length, and a range apart from it reads as before. A
second write to the range overrides the first, writes to ranges that are apart commute, and writing
back what was read only cuts the vector to its width. -/
theorem write_obeys_field_laws (hwidth : fitsCount width = true) (range : BitRange width)
    (value update updateWidth : Nat) :
    ∃ written, range.write (.bits value width) (.bits update updateWidth) =
        some (.ok (.bits written width)) ∧
      written < 2 ^ width ∧
      range.read (.bits written width) =
        some (.ok (.bits (update % 2 ^ range.length) range.length)) ∧
      (∀ other : BitRange width, range.Apart other →
        other.read (.bits written width) = other.read (.bits value width)) ∧
      (∀ next nextWidth, range.write (.bits written width) (.bits next nextWidth) =
        range.write (.bits value width) (.bits next nextWidth)) ∧
      (∀ other : BitRange width, range.Apart other → ∀ next nextWidth, ∃ swapped both,
        other.write (.bits value width) (.bits next nextWidth) =
            some (.ok (.bits swapped width)) ∧
          range.write (.bits swapped width) (.bits update updateWidth) =
            some (.ok (.bits both width)) ∧
          other.write (.bits written width) (.bits next nextWidth) =
            some (.ok (.bits both width))) ∧
      ∃ old, range.read (.bits value width) = some (.ok (.bits old range.length)) ∧
        range.write (.bits value width) (.bits old range.length) =
          some (.ok (.bits (value % 2 ^ width) width)) := by
  refine ⟨_, write_eq hwidth value update updateWidth, range.writeRange_lt value update, ?_, ?_, ?_,
    ?_, _, read_eq hwidth value, ?_⟩
  · rw [read_eq hwidth, readRange_writeRange_self]
  · intro other hapart
    rw [read_eq hwidth, read_eq hwidth, readRange_writeRange_apart value update hapart]
  · intro next nextWidth
    rw [write_eq hwidth, write_eq hwidth, writeRange_writeRange_self]
  · intro other hapart next nextWidth
    refine ⟨_, _, write_eq hwidth value next nextWidth, write_eq hwidth _ update updateWidth, ?_⟩
    rw [write_eq hwidth, writeRange_comm value update next hapart]
  · rw [write_eq hwidth, writeRange_readRange_self]

def upper : BitRange 12 := ⟨11, 4, by decide, by decide⟩

def lower : BitRange 12 := ⟨3, 0, by decide, by decide⟩

/-- A write to the upper end of a vector whose number exceeds its width. -/
theorem upper_obeys_field_laws :
    fitsCount (12 : Nat) = true ∧ upper.Apart lower ∧
      ∃ written, upper.write (.bits 0xABCDE 12) (.bits 0x1F3 9) = some (.ok (.bits written 12)) ∧
        written < 2 ^ 12 ∧
        upper.read (.bits written 12) = some (.ok (.bits (0x1F3 % 2 ^ 8) 8)) ∧
        lower.read (.bits written 12) = lower.read (.bits 0xABCDE 12) := by
  have hwidth : fitsCount (12 : Nat) = true := by decide
  have hapart : upper.Apart lower := .inr (by decide)
  obtain ⟨written, hwrite, hlt, hread, hothers, _⟩ :=
    write_obeys_field_laws hwidth upper 0xABCDE 0x1F3 9
  exact ⟨hwidth, hapart, written, hwrite, hlt, hread, hothers lower hapart⟩

end BitRange

end IsaBackend
