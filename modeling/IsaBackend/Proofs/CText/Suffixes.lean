import IsaBackend.CText.Layout
import IsaBackend.Proofs.CText.Names

/-!
# Tuples and their suffixes

The suffix of a tuple joins the suffixes of its elements without a mark where one of them ends. It
can be read back word by word as long as no aggregate has an underscore in its C name and a tuple
inside the tuple comes last. Otherwise different tuples may share a suffix, and then only one of
them has a layout.
-/

namespace IsaBackend

namespace Rep

mutual

def words : Rep → List String
  | bigInt => ["big", "int"]
  | wideBits _ => ["lbits"]
  | packedBits _ _ => ["fbits"]
  | machInt => ["mach", "int"]
  | unit => ["unit"]
  | bool => ["bool"]
  | string => ["string"]
  | tuple elems => "tuple" :: if elems.isEmpty then [""] else wordsAll elems
  | struct name _ => [CName.encode name]
  | enum name _ => [CName.encode name]
  | union name _ => [CName.encode name]
  | ref inner => "ref" :: inner.words

def wordsAll : List Rep → List String
  | [] => []
  | rep :: rest => rep.words ++ wordsAll rest

end

mutual

/-- The names of aggregates that a suffix mentions, each with its layout. -/
def named : Rep → List (String × Rep)
  | tuple elems => namedAll elems
  | struct name fields => [(name, struct name fields)]
  | enum name members => [(name, enum name members)]
  | union name ctors => [(name, union name ctors)]
  | ref inner => inner.named
  | _ => []

def namedAll : List Rep → List (String × Rep)
  | [] => []
  | rep :: rest => rep.named ++ namedAll rest

end

/-- Whether a suffix has no mark at its end: that of a tuple, or of a reference to one. -/
def endsInTuple : Rep → Bool
  | tuple _ => true
  | ref inner => inner.endsInTuple
  | _ => false

private theorem words_ne_nil (rep : Rep) : rep.words ≠ [] := by
  cases rep <;> simp [words]

mutual

private theorem suffix_eq_words : ∀ rep : Rep, rep.suffix = String.intercalate "_" rep.words
  | tuple elems => by
    cases elems with
    | nil => rfl
    | cons elem rest =>
      have hne : wordsAll (elem :: rest) ≠ [] := by simp [wordsAll, words_ne_nil]
      rw [suffix, words, suffixes_eq_words, if_neg (by simp),
        String.intercalate_cons_of_ne_nil hne]
      rfl
  | ref inner => by
    rw [suffix, words, suffix_eq_words inner,
      String.intercalate_cons_of_ne_nil (words_ne_nil inner)]
    rfl
  | bigInt | wideBits _ | packedBits _ _ | machInt | unit | bool | string => rfl
  | struct _ _ | enum _ _ | union _ _ => by simp [suffix, words]

theorem suffixes_eq_words : ∀ reps : List Rep,
    String.intercalate "_" (suffixes reps) = String.intercalate "_" (wordsAll reps)
  | [] => rfl
  | [rep] => by simp [suffixes, wordsAll, suffix_eq_words rep]
  | rep :: next :: rest => by
    have hne : wordsAll (next :: rest) ≠ [] := by simp [wordsAll, words_ne_nil]
    have hwords : wordsAll (rep :: next :: rest) = rep.words ++ wordsAll (next :: rest) := rfl
    rw [suffixes, String.intercalate_cons_of_ne_nil (by simp [suffixes]), suffix_eq_words rep,
      suffixes_eq_words (next :: rest), hwords,
      String.intercalate_append_of_ne_nil (words_ne_nil rep) hne]

end

/-- Names of aggregates without underscores in C, each with one layout. -/
structure Clear (table : List (String × Rep)) : Prop where
  oneLayout : ∀ left ∈ table, ∀ right ∈ table, left.1 = right.1 → left.2 = right.2
  oneWord : ∀ entry ∈ table, '_' ∉ (CName.encode entry.1).toList

variable {table : List (String × Rep)}

mutual

private theorem Clear.plain_words (h : Clear table) : ∀ rep : Rep, rep.named ⊆ table →
    ∀ word ∈ rep.words, '_' ∉ word.toList
  | tuple elems, hnamed => by
    have hall := h.plain_wordsAll elems hnamed
    cases elems <;> simp_all [words]
  | ref inner, hnamed => by
    have hinner := h.plain_words inner hnamed
    simp_all [words]
  | struct _ _, hnamed | enum _ _, hnamed | union _ _, hnamed => by
    simpa [words] using h.oneWord _ (hnamed List.mem_cons_self)
  | bigInt, _ | wideBits _, _ | packedBits _ _, _ | machInt, _ | unit, _ | bool, _ | string, _ => by
    simp [words]

theorem Clear.plain_wordsAll (h : Clear table) : ∀ reps : List Rep, namedAll reps ⊆ table →
    ∀ word ∈ wordsAll reps, '_' ∉ word.toList
  | [], _ => by simp [wordsAll]
  | rep :: rest, hnamed => by
    obtain ⟨hrep, hrest⟩ := List.append_subset.mp hnamed
    intro word hword
    exact (List.mem_append.mp hword).elim (h.plain_words rep hrep word)
      (h.plain_wordsAll rest hrest word)

end

private theorem Clear.words_eq (h : Clear table) (left right : Rep) (hleft : left.named ⊆ table)
    (hright : right.named ⊆ table) (hsuffix : left.suffix = right.suffix) :
    left.words = right.words := by
  have hsplit : ∀ rep : Rep, rep.named ⊆ table →
      rep.suffix.toList.splitOn '_' = rep.words.map String.toList := by
    intro rep hrep
    rw [suffix_eq_words, String.toList_intercalate]
    refine List.splitOn_intercalate '_' ?_ (by simp [words_ne_nil])
    simpa using h.plain_words rep hrep
  have hlists := hsplit left hleft
  rw [hsuffix, hsplit right hright] at hlists
  exact ((List.map_inj_right fun _ _ => String.toList_inj.mp).mp hlists).symm

/-! ## Reading a suffix back -/

/-- Read the C type of the representation that words start with, given the C types of those with a
suffix of one word. A tuple takes all words. -/
def readType (spell : String → String) : List String → Option (String × List String)
  | [] => none
  | word :: rest =>
    if word = "ref" then (readType spell rest).map fun (ty, rest) => (ty ++ " *", rest)
    else if word = "tuple" then some ("struct " ++ String.intercalate "_" ("tuple" :: rest), [])
    else if word = "big" ∨ word = "mach" then some (word ++ "_int", rest.tail)
    else some (spell word, rest)

/-- The C type of a name among those given; other words are types of their own. -/
def spelling (table : List (String × Rep)) (word : String) : String :=
  match table.find? fun entry => CName.encode entry.1 = word with
  | some entry => entry.2.cType
  | none => word

private theorem encode_ne {name word : String} (h : word.toList.head? ≠ some 'z') :
    CName.encode name ≠ word := by
  rintro rfl
  simp [CName.encode] at h

private theorem Clear.spelling_eq (h : Clear table) {name : String} {rep : Rep}
    (hentry : (name, rep) ∈ table) : spelling table (CName.encode name) = rep.cType := by
  unfold spelling
  split
  · rename_i other hfind
    have hname : CName.encode other.1 = CName.encode name := by
      simpa using List.find?_some hfind
    rw [h.oneLayout other (List.mem_of_find?_eq_some hfind) _ hentry
      (CName.encode_injective hname)]
  · rename_i hnone
    simpa using List.find?_eq_none.mp hnone _ hentry

private theorem spelling_word {word : String}
    (h : word.toList.head? ≠ some 'z') : spelling table word = word := by
  have hnone : table.find? (fun entry => CName.encode entry.1 = word) = none := by
    simp [encode_ne h]
  rw [spelling, hnone]

private theorem Clear.readType_name (h : Clear table) {name : String} {rep : Rep}
    (hentry : (name, rep) ∈ table) (rest : List String) :
    readType (spelling table) (CName.encode name :: rest) = some (rep.cType, rest) := by
  have href : CName.encode name ≠ "ref" := encode_ne (by decide)
  have htuple : CName.encode name ≠ "tuple" := encode_ne (by decide)
  have hbig : CName.encode name ≠ "big" := encode_ne (by decide)
  have hmach : CName.encode name ≠ "mach" := encode_ne (by decide)
  rw [readType, if_neg href, if_neg htuple, if_neg (by simp [hbig, hmach]), h.spelling_eq hentry]

private theorem Clear.readType_words (h : Clear table) :
    ∀ (rep : Rep) (rest : List String), rep.named ⊆ table → (rep.endsInTuple = true → rest = []) →
      readType (spelling table) (rep.words ++ rest) = some (rep.cType, rest)
  | ref inner, rest, hnamed, hend => by
    rw [words, List.cons_append, readType, if_pos rfl, h.readType_words inner rest hnamed hend]
    rfl
  | tuple elems, rest, _, hend => by
    obtain rfl := hend rfl
    rw [List.append_nil, cType, suffix_eq_words, words, readType, if_neg (by decide), if_pos rfl]
  | struct _ _, rest, hnamed, _ => h.readType_name (hnamed List.mem_cons_self) rest
  | enum _ _, rest, hnamed, _ => h.readType_name (hnamed List.mem_cons_self) rest
  | union _ _, rest, hnamed, _ => h.readType_name (hnamed List.mem_cons_self) rest
  | bigInt, rest, _, _ | machInt, rest, _, _ => by simp [words, readType, cType, suffix]
  | wideBits _, rest, _, _ | packedBits _ _, rest, _, _ | unit, rest, _, _ | bool, rest, _, _
  | string, rest, _, _ => by
    simp (disch := decide) [words, readType, cType, suffix, spelling_word]

/-- A tuple is an element, or what an element refers to, only at the end. -/
def TuplesLast : List Rep → Prop
  | [] => True
  | rep :: rest => (rep.endsInTuple = true → rest = []) ∧ TuplesLast rest

private theorem Clear.cTypes_eq (h : Clear table) :
    ∀ {elems others : List Rep}, namedAll elems ⊆ table → namedAll others ⊆ table →
      TuplesLast elems → TuplesLast others → wordsAll elems = wordsAll others →
      elems.map cType = others.map cType
  | [], [], _, _, _, _, _ => rfl
  | [], other :: _, _, _, _, _, heq | other :: _, [], _, _, _, _, heq => by
    simp [wordsAll, words_ne_nil] at heq
  | elem :: elems, other :: others, helems, hothers, hlasts, hotherLasts, heq => by
    obtain ⟨hend, hlast⟩ := hlasts
    obtain ⟨hotherEnd, hotherLast⟩ := hotherLasts
    obtain ⟨helem, helems⟩ := List.append_subset.mp helems
    obtain ⟨hother, hothers⟩ := List.append_subset.mp hothers
    have hleft := h.readType_words elem (wordsAll elems) helem fun htuple => by
      rw [hend htuple]
      rfl
    have hright := h.readType_words other (wordsAll others) hother fun htuple => by
      rw [hotherEnd htuple]
      rfl
    rw [wordsAll, wordsAll] at heq
    rw [heq, hright] at hleft
    obtain ⟨htype, hrest⟩ := Prod.mk.inj (Option.some.inj hleft)
    rw [List.map_cons, List.map_cons, htype,
      h.cTypes_eq helems hothers hlast hotherLast hrest.symm]

private theorem wordsAll_eq_of_tuple {elems others : List Rep}
    (h : (tuple elems).words = (tuple others).words) : wordsAll elems = wordsAll others := by
  -- No representation starts with the empty word that stands for no elements.
  have hne : ∀ (rep : Rep) (rest : List String), rep.words ++ rest ≠ [""] := by
    intro rep rest
    cases rep with
    | struct | enum | union => simp [words, encode_ne]
    | _ => simp [words]
  cases elems with
  | nil =>
    cases others with
    | nil => rfl
    | cons other rest => exact absurd (List.tail_eq_of_cons_eq h).symm (hne other _)
  | cons elem rest =>
    cases others with
    | nil => exact absurd (List.tail_eq_of_cons_eq h) (hne elem _)
    | cons other more => exact List.tail_eq_of_cons_eq h

/-- Tuples with one suffix have the same C types of fields, if the aggregates that they mention have
no underscores in their C names and tuples inside them come last. -/
theorem suffix_fixes_fields {elems others : List Rep}
    (h : Clear (namedAll elems ++ namedAll others)) (helems : TuplesLast elems)
    (hothers : TuplesLast others) (hsuffix : (tuple elems).suffix = (tuple others).suffix) :
    elems.map cType = others.map cType := by
  have hleft := List.subset_append_left (namedAll elems) (namedAll others)
  have hright := List.subset_append_right (namedAll elems) (namedAll others)
  have hwords := h.words_eq (tuple elems) (tuple others) hleft hright hsuffix
  exact h.cTypes_eq hleft hright helems hothers (wordsAll_eq_of_tuple hwords)

theorem bit_tuples_share_fields :
    [struct "op" [("code", machInt)], packedBits 8 .dec, tuple [machInt, bool]].map cType =
      [struct "op" [("code", machInt)], packedBits 16 .inc, tuple [machInt, bool]].map cType := by
  have hclear : Clear (namedAll [struct "op" [("code", machInt)], packedBits 8 .dec,
      tuple [machInt, bool]] ++ namedAll [struct "op" [("code", machInt)], packedBits 16 .inc,
      tuple [machInt, bool]]) :=
    ⟨by decide +kernel, by decide +kernel⟩
  exact suffix_fixes_fields hclear (by simp [TuplesLast, endsInTuple])
    (by simp [TuplesLast, endsInTuple]) (by decide +kernel)

/-- A pair of a tuple and an integer and a tuple of a pair share their suffix. Storage for both
gets one layout, that of the former. -/
theorem nested_tuples_share_suffix :
    Clear (namedAll [tuple [machInt], bigInt] ++ namedAll [tuple [machInt, bigInt]]) ∧
    (tuple [tuple [machInt], bigInt]).suffix = (tuple [tuple [machInt, bigInt]]).suffix ∧
    [tuple [machInt], bigInt].map cType ≠ [tuple [machInt, bigInt]].map cType ∧
    Layout.order ⟨[.register "first" (tuple [tuple [machInt], bigInt]),
        .register "second" (tuple [tuple [machInt, bigInt]])]⟩ =
      [tuple [machInt], tuple [tuple [machInt], bigInt], tuple [machInt, bigInt]] := by
  refine ⟨⟨?_, ?_⟩, by decide +kernel, by decide +kernel, by decide +kernel⟩
  · simp [namedAll, named]
  · simp [namedAll, named]

/-- An underscore in a name hides where the name ends. -/
example : (tuple [struct "a" [], bigInt]).suffix = (tuple [struct "a_big_int" []]).suffix := by
  decide +kernel

end Rep

end IsaBackend
