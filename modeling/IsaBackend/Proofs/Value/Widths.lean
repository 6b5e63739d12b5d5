import IsaBackend.Proofs.Value.BitRanges

/-!
# Bit-vectors within their widths

The number of a bit-vector may exceed its width, but primitives do not make such bit-vectors out of
others, and then no subtraction goes below zero. The one exception is an extension to a width that is
too small for the number: it keeps the number.
-/

namespace IsaBackend

namespace Value

mutual

/-- Every bit-vector in the value is a number of its width. -/
def inWidth : Value → Bool
  | bits value width => value < 2 ^ width
  | record fields => allInWidth fields
  | variant _ payload => payload.inWidth
  | _ => true

def allInWidth : List (String × Value) → Bool
  | [] => true
  | (_, value) :: rest => value.inWidth && allInWidth rest

end

private theorem inWidth_bits {value width : Nat} :
    (bits value width).inWidth = true ↔ value < 2 ^ width := by
  rw [inWidth, decide_eq_true_eq]

end Value

namespace Primitive

/-- An outcome is good, or it is a failure for another reason than a subtraction below zero. -/
def Yields {α : Type} (good : α → Prop) : Except RunError α → Prop
  | .ok result => good result
  | .error cause => cause ≠ .underflow

/-- A call yields a value with its bit-vectors within their widths. -/
abbrev Orderly : Except RunError Value → Prop := Yields fun result => result.inWidth = true

private theorem orderly_bits {value width : Nat} (h : value < 2 ^ width) :
    Orderly (.ok (.bits value width)) :=
  Value.inWidth_bits.mpr h

namespace Yields

variable {α : Type} {good better : α → Prop}

private theorem bind {β : Type} {wanted : β → Prop} {first : Except RunError α}
    {next : α → Except RunError β}
    (hfirst : Yields good first) (hnext : ∀ value, good value → Yields wanted (next value)) :
    Yields wanted (first >>= next) := by
  cases first with
  | ok value => exact hnext value hfirst
  | error cause => exact hfirst

private theorem of_ok {outcome : Except RunError α} (h : Yields good outcome)
    (hgood : ∀ result, good result → better result) :
    outcome ≠ .error .underflow ∧ ∀ result, outcome = .ok result → better result := by
  cases outcome with
  | ok result => exact ⟨nofun, fun other heq => Except.ok.inj heq ▸ hgood result h⟩
  | error cause => exact ⟨fun heq => h (Except.error.inj heq), nofun⟩

end Yields

/-! ## Arguments -/

section Arguments

variable {good : Value → Prop} {name : String} {args : List Value}

private theorem unary_yields {op : Value → Except RunError Value}
    (h : ∀ value, args = [value] → Yields good (op value)) : Yields good (unary name op args) := by
  unfold unary
  split
  · exact h _ rfl
  · exact nofun

private theorem binary_yields {op : Value → Value → Except RunError Value}
    (h : ∀ left right, args = [left, right] → Yields good (op left right)) :
    Yields good (binary name op args) := by
  unfold binary
  split
  · exact h _ _ rfl
  · exact nofun

private theorem int_yields (value : Value) : Yields (fun number => value = .int number)
    (int value) := by
  cases value <;> simp [int, Yields]

private theorem bool_yields (value : Value) : Yields (fun truth => value = .bool truth)
    (bool value) := by
  cases value <;> simp [bool, Yields]

private theorem bits_yields (value : Value) :
    Yields (fun vector => value = .bits vector.1 vector.2) (bits value) := by
  cases value <;> simp [bits, Yields]

private theorem count_yields (value : Value) :
    Yields (fun number : Nat => value = .int number) (count value) := by
  refine .bind (int_yields value) fun number hvalue => ?_
  split
  · rename_i hfits
    simp only [fitsCount, Bool.and_eq_true, decide_eq_true_eq] at hfits
    exact hvalue.trans (by rw [Int.toNat_of_nonneg hfits.1])
  · rintro ⟨⟩

private theorem bounds_yields (hi lo : Value) (width : Nat) :
    Yields (fun ends => ∃ range : BitRange width, ends = (range.hi, range.lo)) (bounds hi lo width) := by
  refine .bind (count_yields hi) fun top _ => .bind (count_yields lo) fun bottom _ => ?_
  dsimp only
  split
  · exact nofun
  · rename_i hgood
    simp only [Bool.or_eq_true, decide_eq_true_eq, not_or] at hgood
    exact ⟨⟨top, bottom, by omega, by omega⟩, rfl⟩

end Arguments

/-! ## Operations -/

section Operations

variable {name : String} {args : List Value}

private theorem onInts_orderly {op : Int → Int → Value}
    (h : ∀ left right, (op left right).inWidth = true) : Orderly (onInts name op args) :=
  binary_yields fun left right _ =>
    .bind (int_yields left) fun a _ => .bind (int_yields right) fun b _ => h a b

private theorem onBools_orderly {op : Bool → Bool → Bool} : Orderly (onBools name op args) :=
  binary_yields fun left right _ =>
    .bind (bool_yields left) fun _ _ => .bind (bool_yields right) fun _ _ => rfl

/-- Two bit-vectors within their widths are both within the wider one. -/
theorem onBits_orderly {op : Nat → Nat → Nat → Except RunError Value}
    (hargs : ∀ arg ∈ args, arg.inWidth = true)
    (h : ∀ left right width, left < 2 ^ width → right < 2 ^ width → Orderly (op left right width)) :
    Orderly (onBits name op args) := by
  refine binary_yields fun left right hpair => ?_
  refine .bind (bits_yields left) fun ⟨a, leftWidth⟩ hleft => ?_
  refine .bind (bits_yields right) fun ⟨b, rightWidth⟩ hright => ?_
  have ha : a < 2 ^ leftWidth := Value.inWidth_bits.mp (hleft ▸ hargs left (by simp [hpair]))
  have hb : b < 2 ^ rightWidth := Value.inWidth_bits.mp (hright ▸ hargs right (by simp [hpair]))
  exact h a b _
    (Nat.lt_of_lt_of_le ha (Nat.pow_le_pow_right (by decide) (Nat.le_max_left _ _)))
    (Nat.lt_of_lt_of_le hb (Nat.pow_le_pow_right (by decide) (Nat.le_max_right _ _)))

private theorem lowBits_lt (value width : Nat) : lowBits value width < 2 ^ width := by
  rw [lowBits_eq_mod]
  exact Nat.mod_lt _ (Nat.two_pow_pos width)

private theorem allOnes_lt (width : Nat) : allOnes width < 2 ^ width := by
  rw [allOnes, Nat.one_shiftLeft]
  exact Nat.sub_lt (Nat.two_pow_pos width) (by decide)

/-- One borrow covers any number of the width. -/
theorem subtract_orderly {left right width : Nat} (h : right < 2 ^ width) :
    Orderly (subtract left right width) := by
  rw [subtract, Nat.one_shiftLeft, if_pos (by omega)]
  exact orderly_bits (lowBits_lt _ _)

private theorem applySubrange_orderly : Orderly (applySubrange name args) := by
  unfold applySubrange
  split
  · rename_i vector hi lo
    refine .bind (bits_yields vector) fun ⟨value, width⟩ _ => ?_
    exact .bind (bounds_yields hi lo width) fun _ _ => orderly_bits (lowBits_lt _ _)
  · exact nofun

private theorem applyUpdate_orderly : Orderly (applyUpdate name args) := by
  unfold applyUpdate
  split
  · rename_i vector hi lo update
    refine .bind (bits_yields vector) fun ⟨value, width⟩ _ => ?_
    refine .bind (bounds_yields hi lo width) fun _ ⟨range, hrange⟩ => ?_
    subst hrange
    exact .bind (bits_yields update) fun ⟨new, _⟩ _ => orderly_bits (range.writeRange_lt value new)
  · exact nofun

private theorem applyBuiltin_orderly {callee : Builtin} : Orderly
    (applyBuiltin name callee args) := by
  cases callee with
  | throw => exact unary_yields fun _ _ => nofun
  | exit => exact nofun
  | assert =>
    refine binary_yields fun test text _ => .bind (bool_yields test) fun holds _ => ?_
    cases holds with
    | true => rfl
    | false => exact nofun
  | cons => exact nofun

private theorem apply_orderly {primitive : Primitive} (hargs : ∀ arg ∈ args, arg.inWidth = true)
    (hother : primitive ≠ .zeroExtend) : Orderly (primitive.apply name args) := by
  cases primitive with
  | addInt | subInt | mulInt | eqInt | ltInt | gtInt | leInt | geInt =>
    exact onInts_orderly fun _ _ => rfl
  | negInt => exact unary_yields fun value _ => .bind (int_yields value) fun _ _ => rfl
  | andBool | orBool | eqBool => exact onBools_orderly
  | notBool => exact unary_yields fun value _ => .bind (bool_yields value) fun _ _ => rfl
  | xorBits =>
    exact onBits_orderly hargs fun _ _ _ ha hb => orderly_bits (Nat.xor_lt_two_pow ha hb)
  | andBits =>
    exact onBits_orderly hargs fun left _ _ _ hb => orderly_bits (Nat.and_lt_two_pow left hb)
  | orBits => exact onBits_orderly hargs fun _ _ _ ha hb => orderly_bits (Nat.or_lt_two_pow ha hb)
  | addBits =>
    exact onBits_orderly hargs fun left right width _ _ => orderly_bits (lowBits_lt (left + right) width)
  | subBits => exact onBits_orderly hargs fun _ _ _ _ hb => subtract_orderly hb
  | eqBits | neBits =>
    rw [apply]
    exact onBits_orderly hargs fun _ _ _ _ _ => rfl
  | notBits =>
    refine unary_yields fun value hvalue => .bind (bits_yields value) ?_
    rintro ⟨number, width⟩ h
    have hnumber : number < 2 ^ width :=
      Value.inWidth_bits.mp (h ▸ hargs value (by simp [hvalue]))
    exact orderly_bits (Nat.xor_lt_two_pow (allOnes_lt width) hnumber)
  | subrange => exact applySubrange_orderly
  | updateSubrange => exact applyUpdate_orderly
  | zeroExtend => exact absurd rfl hother
  | zeros =>
    exact unary_yields fun value _ => .bind (count_yields value) fun width _ =>
      orderly_bits (Nat.two_pow_pos width)
  | unsigned | length =>
    exact unary_yields fun value _ => .bind (bits_yields value) fun _ _ => rfl
  | builtin callee => exact applyBuiltin_orderly

private theorem zeroExtend_yields : Yields (fun result => ∃ value size width : Nat,
    args = [.bits value size, .int width] ∧ result = .bits value width) (zeroExtend.apply name args) :=
  binary_yields fun vector target hargs =>
    .bind (bits_yields vector) fun ⟨value, size⟩ hvector =>
      .bind (count_yields target) fun width htarget =>
        ⟨value, size, width, by rw [hargs, hvector, htarget], rfl⟩

/-- A primitive that is applied to bit-vectors within their widths never subtracts below zero, and
what it returns is within its width again, unless it extends a bit-vector to a width that is too small
for the number. -/
theorem call_keeps_widths {outcome : Except RunError Value} (hcall : call? name args = some outcome)
    (hargs : ∀ arg ∈ args, arg.inWidth = true) :
    outcome ≠ .error .underflow ∧ ∀ result, outcome = .ok result →
      (result.inWidth = true ↔ ¬(ofName? name = some .zeroExtend ∧ ∃ value size width : Nat,
        args = [.bits value size, .int width] ∧ 2 ^ width ≤ value)) := by
  obtain ⟨primitive, hname, rfl⟩ := Option.map_eq_some_iff.mp hcall
  by_cases hextend : primitive = .zeroExtend
  · subst hextend
    refine zeroExtend_yields.of_ok fun result hresult => ?_
    obtain ⟨value, size, width, rfl, rfl⟩ := hresult
    rw [Value.inWidth_bits]
    constructor
    · rintro hlt ⟨-, other, otherSize, otherWidth, heq, hle⟩
      simp only [List.cons.injEq, Value.bits.injEq, Value.int.injEq, Int.natCast_inj] at heq
      obtain ⟨⟨rfl, -⟩, rfl, -⟩ := heq
      omega
    · intro hwide
      exact Nat.lt_of_not_le fun hle => hwide ⟨hname, value, size, width, rfl, hle⟩
  · refine (apply_orderly hargs hextend).of_ok fun result hresult => ?_
    refine iff_of_true hresult fun hother => hextend ?_
    exact Option.some.inj (hname.symm.trans hother.1)

/-- The difference of a byte and a nibble is within the width of the byte. -/
theorem mixed_keeps_widths :
    (∀ arg ∈ [Value.bits 3 4, .bits 200 8], arg.inWidth = true) ∧
      call? "sub_vec" [.bits 3 4, .bits 200 8] = some (.ok (.bits 59 8)) ∧
      (Value.bits 59 8).inWidth = true := by
  have hargs : ∀ arg ∈ [Value.bits 3 4, .bits 200 8], arg.inWidth = true := by decide
  have hcall : call? "sub_vec" [.bits 3 4, .bits 200 8] = some (.ok (.bits 59 8)) := rfl
  exact ⟨hargs, hcall, ((call_keeps_widths hcall hargs).2 _ rfl).mpr fun h => by cases h.1⟩

/-- An extension to fewer bits leaves a number beyond its width, which can then not be subtracted. -/
theorem narrowed_exceeds_width :
    (Value.bits 255 8).inWidth = true ∧
      call? "zero_extend" [.bits 255 8, .int 4] = some (.ok (.bits 255 4)) ∧
      (Value.bits 255 4).inWidth = false ∧
      call? "sub_vec" [.bits 0 4, .bits 255 4] = some (.error .underflow) :=
  ⟨rfl, rfl, rfl, rfl⟩

end Operations

end Primitive

end IsaBackend
