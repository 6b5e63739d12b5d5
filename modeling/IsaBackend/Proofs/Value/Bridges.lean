import Mathlib.Algebra.Group.Int.Defs
import IsaBackend.Proofs.Value.BitRanges
import IsaBackend.Proofs.Value.Conforming
import IsaBackend.Rep.Bridge

/-!
# Moving values between representations

A bridge between two representations is chosen without a look at values, and conforming looks at a
value without knowing where it comes from. The two agree: a value that fits the source of a bridge
keeps its content at the target, as far as the target has room for it.
-/

namespace IsaBackend

/-- The same number for two bit-vectors, whatever their widths, and otherwise the same value. -/
def Value.SameContent : Value → Value → Prop
  | .bits number _, .bits number' _ => number = number'
  | value, value' => value = value'

private theorem Value.SameContent.refl (value : Value) : value.SameContent value := by
  cases value <;> rfl

theorem fitsWord_iff (number : Int) :
    fitsWord number = true ↔ -2 ^ 63 ≤ number ∧ number < 2 ^ 63 := by
  simp only [fitsWord, Bool.and_eq_true, decide_eq_true_eq]
  omega

namespace Rep

/-! ## Values that fit integers and bit-vectors -/

section Leaves

variable {value : Value} {width : Nat} {order : Direction}

theorem fits_machInt : machInt.Fits value ↔ ∃ number, value = .int number ∧ fitsWord number = true := by
  cases value with
  | int number =>
    by_cases h : fitsWord number = true <;> simp [Fits, conform, h]
  | _ => simp [Fits, conform]

private theorem fits_bigInt : bigInt.Fits value ↔ ∃ number, value = .int number := by
  cases value <;> simp [Fits, conform]

theorem fits_packedBits : (packedBits width order).Fits value ↔
    ∃ number, value = .bits number width ∧ number < 2 ^ width := by
  cases value with
  | bits number size =>
    simp only [Fits, conform, lowBits_eq_mod, Except.ok.injEq, Value.bits.injEq]
    constructor
    · rintro ⟨hnumber, rfl⟩
      exact ⟨number, ⟨rfl, rfl⟩, hnumber ▸ Nat.mod_lt number (Nat.two_pow_pos width)⟩
    · rintro ⟨_, ⟨rfl, rfl⟩, hlt⟩
      exact ⟨Nat.mod_eq_of_lt hlt, rfl⟩
  | _ => simp [Fits, conform]

private theorem fits_wideBits :
    (wideBits order).Fits value ↔ ∃ number size, value = .bits number size := by
  cases value <;> simp [Fits, conform]

private theorem conform_packedBits (number size : Nat) : (packedBits width order).conform
    (.bits number size) = .ok (.bits (number % 2 ^ width) width) := by
  rw [conform, lowBits_eq_mod]

end Leaves

/-- What a bridge leads from and to. -/
inductive Bridge.Joins : Bridge → Rep → Rep → Prop where
  | same (rep : Rep) : Joins .identity rep rep
  | widen {width width' : Nat} (order : Direction) :
      width ≤ width' → Joins .identity (packedBits width order) (packedBits width' order)
  | promoteInt : Joins .promote machInt bigInt
  | promoteBits (width : Nat) (order : Direction) :
      Joins .promote (packedBits width order) (wideBits order)
  | demoteInt : Joins .demote bigInt machInt
  | demoteBits (width : Nat) (order : Direction) :
      Joins .demote (wideBits order) (packedBits width order)
  | narrow {width width' : Nat} (order : Direction) :
      width' < width → Joins .truncate (packedBits width order) (packedBits width' order)

private theorem joins_of_compatible {source target : Rep} (h : source.compatible target = true) :
    Bridge.Joins .identity source target := by
  unfold compatible at h
  split at h
  · simp only [Bool.and_eq_true, decide_eq_true_eq] at h
    obtain ⟨rfl, hle⟩ := h
    exact .widen _ hle
  · obtain rfl := of_decide_eq_true h
    exact .same source

private theorem joins_of_bridge? {source target : Rep} {bridge : Bridge}
    (h : source.bridge? target = some bridge) : bridge.Joins source target := by
  unfold bridge? at h
  split at h
  · cases h
    exact joins_of_compatible ‹_›
  · rename_i hincompatible
    unfold crossing? at h
    split at h
    · cases h
      exact .promoteInt
    · cases h
      exact .demoteInt
    · split at h <;> cases h
      subst_vars
      exact .promoteBits _ _
    · split at h <;> cases h
      subst_vars
      exact .demoteBits _ _
    · split at h <;> cases h
      subst_vars
      refine .narrow _ ?_
      simpa [compatible] using hincompatible
    · cases h

/-- What becomes of a value that is moved over a bridge. -/
def Bridge.Moves (bridge : Bridge) (source target : Rep) (value : Value) : Prop :=
  match bridge with
  | .identity => ∃ stored, target.conform value = .ok stored ∧ value.SameContent stored
  | .promote => ∃ stored, target.conform value = .ok stored ∧ value.SameContent stored ∧
      target.bridge? source = some .demote ∧ source.conform stored = .ok value
  | .truncate => ∃ number size width order, value = .bits number size ∧
      target = packedBits width order ∧ target.conform value = .ok (.bits (number % 2 ^ width) width)
  | .demote =>
      (∃ number size width order, value = .bits number size ∧ source = wideBits order ∧
        target = packedBits width order ∧
        target.conform value = .ok (.bits (number % 2 ^ width) width)) ∨
      ∃ number, value = .int number ∧ source = bigInt ∧ target = machInt ∧
        target.conform value =
          if -2 ^ 63 ≤ number ∧ number < 2 ^ 63 then .ok value else .error (.overflow number)

private theorem Bridge.Joins.moves {bridge : Bridge} {source target : Rep} {value : Value}
    (h : bridge.Joins source target) (hfits : source.Fits value) :
    bridge.Moves source target value := by
  cases h with
  | same rep => exact ⟨value, hfits, .refl value⟩
  | @widen width width' order hle =>
    obtain ⟨number, rfl, hlt⟩ := fits_packedBits.mp hfits
    have hwide : number < 2 ^ width' :=
      Nat.lt_of_lt_of_le hlt (Nat.pow_le_pow_right (by decide) hle)
    refine ⟨.bits number width', ?_, rfl⟩
    rw [conform_packedBits, Nat.mod_eq_of_lt hwide]
  | promoteInt =>
    obtain ⟨number, rfl, _⟩ := fits_machInt.mp hfits
    exact ⟨_, rfl, rfl, rfl, hfits⟩
  | promoteBits width order =>
    obtain ⟨number, rfl, _⟩ := fits_packedBits.mp hfits
    refine ⟨_, rfl, rfl, ?_, hfits⟩
    simp [bridge?, compatible, crossing?]
  | demoteInt =>
    obtain ⟨number, rfl⟩ := fits_bigInt.mp hfits
    refine .inr ⟨number, rfl, rfl, rfl, ?_⟩
    rw [conform]
    simp only [fitsWord_iff]
  | demoteBits width order =>
    obtain ⟨number, size, rfl⟩ := fits_wideBits.mp hfits
    exact .inl ⟨number, size, width, order, rfl, rfl, rfl, conform_packedBits number size⟩
  | @narrow width width' order _ =>
    obtain ⟨number, rfl, _⟩ := fits_packedBits.mp hfits
    exact ⟨number, width, width', order, rfl, rfl, conform_packedBits number width⟩

/-- A value that is moved over a bridge never has the wrong shape for the target. -/
theorem Bridge.Moves.shape {bridge : Bridge} {source target : Rep} {value : Value}
    (h : bridge.Moves source target value) (expected : String) (found : ValueKind) :
    target.conform value ≠ .error (.typeMismatch expected found) := by
  cases bridge with
  | identity | promote =>
    obtain ⟨stored, hstored, _⟩ := h
    simp [hstored]
  | truncate =>
    obtain ⟨number, size, width, order, _, _, hstored⟩ := h
    simp [hstored]
  | demote =>
    rcases h with ⟨number, size, width, order, _, _, _, hstored⟩ | ⟨number, _, _, _, hstored⟩
    · simp [hstored]
    · rw [hstored]
      split <;> simp

/-- A value that fits the source of a bridge has a shape for the target. -/
theorem bridge_moves_value {source target : Rep} {bridge : Bridge} {value : Value}
    (hbridge : source.bridge? target = some bridge) (hfits : source.conform value = .ok value) :
    bridge.Moves source target value ∧
      ∀ expected found, target.conform value ≠ .error (.typeMismatch expected found) := by
  have hmoves := (joins_of_bridge? hbridge).moves hfits
  exact ⟨hmoves, hmoves.shape⟩

/-- The greatest machine word as a bit-vector goes to the heap and back. -/
theorem top_word_moves :
    (packedBits 64 .dec).bridge? (wideBits .dec) = some .promote ∧
      (packedBits 64 .dec).conform (.bits 0xFFFFFFFFFFFFFFFF 64) =
        .ok (.bits 0xFFFFFFFFFFFFFFFF 64) ∧
      ∃ stored, (wideBits .dec).conform (.bits 0xFFFFFFFFFFFFFFFF 64) = .ok stored ∧
        (packedBits 64 .dec).conform stored = .ok (.bits 0xFFFFFFFFFFFFFFFF 64) := by
  have hbridge : (packedBits 64 .dec).bridge? (wideBits .dec) = some .promote := rfl
  have hfits : (packedBits 64 .dec).conform (.bits 0xFFFFFFFFFFFFFFFF 64) =
      .ok (.bits 0xFFFFFFFFFFFFFFFF 64) := rfl
  obtain ⟨⟨stored, hstored, _, _, hback⟩, _⟩ := bridge_moves_value hbridge hfits
  exact ⟨hbridge, hfits, stored, hstored, hback⟩

end Rep

end IsaBackend
