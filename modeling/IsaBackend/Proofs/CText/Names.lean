import IsaBackend.CText.Name
import IsaBackend.Proofs.Text.Digits

/-!
# C identifiers stand for source names

The encoding of a character ends where the reader of encoded names expects it to end, whatever
follows. So every source name can be recovered from its C identifier, and no two share one.
-/

namespace IsaBackend.CName

private theorem codePoint?_toDigits (c : Char) : codePoint? (Nat.toDigits 16 c.toNat) = some c := by
  have hread := Digits.extend?_toDigits (show 1 < 16 by decide) (Nat.le_refl 16) c.toNat
  have hdigits := Digits.isDigit_toDigits (show 1 < 16 by decide) (Nat.le_refl 16) c.toNat
  obtain ⟨first, rest, heq⟩ :=
    List.exists_cons_of_ne_nil (Nat.toDigits_ne_nil (n := c.toNat) (b := 16))
  rw [heq] at hread hdigits ⊢
  obtain ⟨-, hplus, -⟩ := (hdigits first List.mem_cons_self).plain (Nat.le_refl 16)
  have hvalid : c.toNat.isValidChar := c.valid
  simp [codePoint?, hplus, hread, hvalid, Char.ofNat_toNat]

/-- A code point is read up to the first underscore. -/
theorem decodeChars_code {digits : List Char} (h : '_' ∉ digits) (seen rest : List Char) :
    decodeChars (.code seen) (digits ++ '_' :: rest) =
      (codePoint? (seen ++ digits)).bind fun c => (decodeChars .plain rest).map (c :: ·) := by
  induction digits generalizing seen with
  | nil =>
    rw [List.append_nil]
    rfl
  | cons digit digits ih =>
    obtain ⟨hdigit, hdigits⟩ := not_or.mp (List.mem_cons.not.mp h)
    rw [List.cons_append, decodeChars, if_neg (Ne.symm hdigit), ih hdigits, List.append_assoc,
      List.singleton_append]

private theorem decodeChars_encodeChar (c : Char) (rest : List Char) :
    decodeChars .plain (encodeChar c ++ rest) = (decodeChars .plain rest).map (c :: ·) := by
  unfold encodeChar
  split_ifs with hz hhash hdot hapostrophe hquestion
  · subst hz; rfl
  · subst hhash; rfl
  · subst hdot; rfl
  · subst hapostrophe; rfl
  · subst hquestion; rfl
  · simp [decodeChars, hz]
  · have hdigits : '_' ∉ Nat.toDigits 16 c.toNat := fun hmem =>
      ((Digits.isDigit_toDigits (by decide) (Nat.le_refl 16) c.toNat '_' hmem).plain
        (Nat.le_refl 16)).1 rfl
    have hcode := decodeChars_code hdigits [] rest
    rw [List.nil_append, codePoint?_toDigits, Option.bind_some] at hcode
    simpa [decodeChars] using hcode

private theorem decodeChars_flatMap (chars : List Char) :
    decodeChars .plain (chars.flatMap encodeChar) = some chars := by
  induction chars with
  | nil => rfl
  | cons c rest ih => rw [List.flatMap_cons, decodeChars_encodeChar, ih, Option.map_some]

private theorem decode_encode (name : String) : decode (encode name) = some name := by
  simp [decode, encode, decodeChars_flatMap]

theorem encode_injective : Function.Injective encode := by
  intro name other h
  have hdecode := decode_encode name
  rw [h, decode_encode other] at hdecode
  exact (Option.some.inj hdecode).symm

/-! ## The characters of an identifier -/

/-- The characters that a C identifier may have. -/
def IsCChar (c : Char) : Prop := c.isAlphanum = true ∨ c = '_'

instance (c : Char) : Decidable (IsCChar c) := inferInstanceAs (Decidable (_ ∨ _))

private theorem isCChar_of_isPlain {c : Char} (h : isPlain c = true) : IsCChar c := by
  change (c.isUpper || c.isLower || c.isDigit) = true ∨ c = '_'
  simp only [isPlain, Bool.or_eq_true, Bool.and_eq_true, decide_eq_true_eq] at h
  rcases h with ((hlower | hupper) | hdigit) | hunderscore
  · have hletter : c.isLower = true :=
      Bool.and_eq_true_iff.mpr ⟨decide_eq_true hlower.1, decide_eq_true hlower.2⟩
    simp [hletter]
  · have hletter : c.isUpper = true := decide_eq_true hupper
    simp [hletter]
  · have hnumber : c.isDigit = true :=
      Bool.and_eq_true_iff.mpr ⟨decide_eq_true hdigit.1, decide_eq_true hdigit.2⟩
    simp [hnumber]
  · exact .inr hunderscore

private theorem isCChar_digitChar : ∀ digit < 16, IsCChar (Nat.digitChar digit) := by
  decide

private theorem isCChar_of_mem_encodeChar {c d : Char} (h : d ∈ encodeChar c) : IsCChar d := by
  have hpair : ∀ first second : Char, IsCChar first → IsCChar second → d ∈ [first, second] →
      IsCChar d := by
    intro first second hfirst hsecond hmem
    rcases List.mem_cons.mp hmem with rfl | hmem
    · exact hfirst
    · exact List.mem_singleton.mp hmem ▸ hsecond
  unfold encodeChar at h
  split_ifs at h with hz hhash hdot hapostrophe hquestion hplain
  iterate 5 exact hpair _ _ (by decide) (by decide) h
  · obtain rfl := List.mem_singleton.mp h
    exact isCChar_of_isPlain hplain
  · simp only [List.cons_append, List.mem_cons, List.mem_append, List.not_mem_nil, or_false] at h
    rcases h with rfl | rfl | h | rfl
    · decide
    · decide
    · obtain ⟨digit, hdigit, rfl⟩ := Digits.isDigit_toDigits (by decide) (Nat.le_refl 16) _ d h
      exact isCChar_digitChar digit hdigit
    · decide

/-- Every source name can be read off its C identifier, different names have different
identifiers, and an identifier starts with the letter z and has no characters that C refuses. -/
theorem encode_faithful_and_safe :
    (∀ name, decode (encode name) = some name) ∧ Function.Injective encode ∧
      ∀ name, (encode name).toList.head? = some 'z' ∧ ∀ c ∈ (encode name).toList, IsCChar c := by
  refine ⟨decode_encode, encode_injective, fun name => ⟨by simp [encode], fun c hc => ?_⟩⟩
  simp only [encode, String.toList_ofList, List.mem_cons, List.mem_flatMap] at hc
  rcases hc with rfl | ⟨source, -, hc⟩
  · decide
  · exact isCChar_of_mem_encodeChar hc

end IsaBackend.CName
