import IsaBackend.Names.Ascending
import IsaBackend.Proofs.Names
import Mathlib.Data.List.Basic

/-!
# Moving generated names

A supply of fresh names that starts at a later number gives the same names, moved by a constant. The
move leaves every other name alone and never makes two names equal, so tables and sets of names move
along with the names in them.
-/

namespace IsaBackend

namespace FreshNames

/-- The number of a generated name. -/
def number? (text : String) : Option Nat :=
  let number := Nat.ofDigitChars 10 (text.toList.drop mark.length) 0
  if text = name number then some number else none

/-- Whether a name could have been generated. -/
def IsGenerated (text : String) : Prop := ∃ number, text = name number

theorem isGenerated_name (number : Nat) : IsGenerated (name number) := ⟨number, rfl⟩

/-- The name that takes the place of a name when the supply starts at a later number. -/
def shift (offset : Nat) (text : String) : String :=
  match number? text with
  | some number => name (number + offset)
  | none => text

theorem not_isGenerated {text : String} (h : '#' ∉ text.toList) : ¬IsGenerated text :=
  fun ⟨number, htext⟩ => ne_name_of_no_hash h number htext

private theorem number?_name (number : Nat) : number? (name number) = some number := by
  have hlength : mark.length = mark.toList.length := String.length_toList.symm
  have hdigits : (name number).toList.drop mark.length = Nat.toDigits 10 number := by
    rw [name, String.toList_append, hlength, List.drop_left]
    simp only [Nat.toString_eq_repr, Nat.toList_repr]
  have hread : Nat.ofDigitChars 10 ((name number).toList.drop mark.length) 0 = number := by
    rw [hdigits, Nat.ofDigitChars_ten_toDigits]
  simp only [number?, hread, if_true]

private theorem eq_name_of_number? {text : String} {number : Nat} (h : number? text = some number) :
    text = name number := by
  simp only [number?] at h
  split at h
  · rename_i heq
    cases h
    exact heq
  · cases h

@[simp] theorem shift_name (offset number : Nat) :
    shift offset (name number) = name (number + offset) := by
  simp only [shift, number?_name]

theorem shift_of_not_generated {text : String} (h : ¬IsGenerated text) (offset : Nat) :
    shift offset text = text := by
  have hnone : number? text = none := by
    cases hnumber : number? text with
    | none => rfl
    | some number => exact absurd ⟨number, eq_name_of_number? hnumber⟩ h
  simp only [shift, hnone]

theorem shift_injective (offset : Nat) : Function.Injective (shift offset) := by
  intro text other h
  by_cases hfirst : IsGenerated text <;> by_cases hsecond : IsGenerated other
  · obtain ⟨number, rfl⟩ := hfirst
    obtain ⟨second, rfl⟩ := hsecond
    rw [shift_name, shift_name, name_inj] at h
    rw [name_inj]
    omega
  · obtain ⟨number, rfl⟩ := hfirst
    rw [shift_name, shift_of_not_generated hsecond] at h
    exact absurd ⟨_, h.symm⟩ hsecond
  · obtain ⟨second, rfl⟩ := hsecond
    rw [shift_name, shift_of_not_generated hfirst] at h
    exact absurd ⟨_, h⟩ hfirst
  · rwa [shift_of_not_generated hfirst, shift_of_not_generated hsecond] at h

end FreshNames

namespace NameTable

variable {α β : Type} {rename : String → String} {change : α → β}

def mapNames (rename : String → String) (change : α → β) (table : NameTable α) : NameTable β :=
  ⟨table.entries.map fun entry => (rename entry.1, change entry.2)⟩

theorem get?_mapNames (hinj : Function.Injective rename) (table : NameTable α) (name : String) :
    (table.mapNames rename change).get? (rename name) = (table.get? name).map change := by
  obtain ⟨entries⟩ := table
  simp only [get?, mapNames]
  induction entries with
  | nil => rfl
  | cons entry rest ih =>
    obtain ⟨key, value⟩ := entry
    simp only [List.map_cons, lookup_cons_entry, hinj.eq_iff, ih]
    by_cases h : name = key <;> simp [h]

theorem mapNames_set (hinj : Function.Injective rename) (table : NameTable α) (name : String)
    (value : α) :
    (table.set name value).mapNames rename change =
      (table.mapNames rename change).set (rename name) (change value) := by
  obtain ⟨entries⟩ := table
  simp only [set, mapNames, mk.injEq]
  induction entries with
  | nil => rfl
  | cons entry rest ih =>
    obtain ⟨key, old⟩ := entry
    by_cases h : key = name
    · simp [setEntry, h]
    · simp [setEntry, h, hinj.eq_iff, ih]

theorem mapNames_erase (hinj : Function.Injective rename) (table : NameTable α) (name : String) :
    (table.erase name).mapNames rename change =
      (table.mapNames rename change).erase (rename name) := by
  obtain ⟨entries⟩ := table
  simp only [erase, mapNames, mk.injEq]
  induction entries with
  | nil => rfl
  | cons entry rest ih =>
    obtain ⟨key, old⟩ := entry
    by_cases h : key = name
    · simp [h, ih]
    · have hne : rename key ≠ rename name := fun heq => h (hinj heq)
      simp [h, hne, ih]

theorem mapNames_put (hinj : Function.Injective rename) (table : NameTable α) (name : String)
    (value : Option α) :
    (table.put name value).mapNames rename change =
      (table.mapNames rename change).put (rename name) (value.map change) := by
  cases value with
  | none => exact mapNames_erase hinj table name
  | some value => exact mapNames_set hinj table name value

theorem mapNames_filter {keep : α → Bool} {keepChanged : β → Bool}
    (h : ∀ value, keepChanged (change value) = keep value) (table : NameTable α) :
    (table.filter keep).mapNames rename change =
      (table.mapNames rename change).filter keepChanged := by
  obtain ⟨entries⟩ := table
  simp only [filter, mapNames, List.filter_map, mk.injEq]
  congr 1
  apply List.filter_congr
  intro entry _
  exact (h entry.2).symm

end NameTable

namespace NameSet

variable {rename : String → String}

theorem ext_contains {left right : NameSet}
    (h : ∀ name, left.contains name = right.contains name) : left = right := by
  obtain ⟨names, ascending⟩ := left
  obtain ⟨others, ascending'⟩ := right
  have hmem : ∀ name, name ∈ names ↔ name ∈ others := by
    intro name
    have hname := Bool.eq_iff_iff.mp (h name)
    simpa only [contains, List.contains_iff_mem] using hname
  have hnodup : ∀ {list : List String}, list.Pairwise (· < ·) → list.Nodup := by
    intro list hlist
    apply hlist.imp
    intro first second hlt heq
    exact String.lt_irrefl second (heq ▸ hlt)
  have hperm : names.Perm others :=
    (List.perm_ext_iff_of_nodup (hnodup ascending) (hnodup ascending')).mpr hmem
  have heq : names = others :=
    hperm.eq_of_pairwise (fun _ _ _ _ hlt hgt => absurd (String.lt_trans hlt hgt)
      (String.lt_irrefl _)) ascending ascending'
  subst heq
  rfl

def map (rename : String → String) (set : NameSet) : NameSet :=
  set.names.foldr (fun name set => set.insert (rename name)) ∅

private theorem contains_map {set : NameSet} {name : String} :
    (set.map rename).contains name = true ↔ ∃ member, set.contains member = true ∧
      name = rename member := by
  obtain ⟨names, ascending⟩ := set
  have hfold : ∀ names : List String,
      (names.foldr (fun name set => set.insert (rename name)) (∅ : NameSet)).contains name = true ↔
        ∃ member ∈ names, name = rename member := by
    intro names
    induction names with
    | nil =>
      have hempty : (∅ : NameSet).contains name = false := contains_empty name
      simp [hempty]
    | cons first rest ih => simp [ih]
  rw [map, hfold names]
  simp [contains]

theorem contains_map_rename (hinj : Function.Injective rename) (set : NameSet) (name : String) :
    (set.map rename).contains (rename name) = set.contains name := by
  rw [Bool.eq_iff_iff, contains_map]
  constructor
  · rintro ⟨member, hmember, heq⟩
    rw [hinj heq]
    exact hmember
  · exact fun h => ⟨name, h, rfl⟩

theorem map_injective (hinj : Function.Injective rename) : Function.Injective (map rename) := by
  intro left right h
  apply ext_contains
  intro name
  rw [← contains_map_rename hinj left, h, contains_map_rename hinj]

theorem map_insert (set : NameSet) (name : String) :
    (set.insert name).map rename = (set.map rename).insert (rename name) := by
  apply ext_contains
  intro key
  rw [Bool.eq_iff_iff, contains_insert, Bool.or_eq_true, contains_map, contains_map, beq_iff_eq]
  constructor
  · rintro ⟨member, hmember, rfl⟩
    rw [contains_insert, Bool.or_eq_true, beq_iff_eq] at hmember
    exact hmember.imp (congrArg rename) fun h => ⟨member, h, rfl⟩
  · rintro (rfl | ⟨member, hmember, rfl⟩)
    · exact ⟨name, by simp, rfl⟩
    · exact ⟨member, by simp [hmember], rfl⟩

theorem map_erase (hinj : Function.Injective rename) (set : NameSet) (name : String) :
    (set.erase name).map rename = (set.map rename).erase (rename name) := by
  apply ext_contains
  intro key
  rw [Bool.eq_iff_iff, contains_erase, Bool.and_eq_true, contains_map, contains_map, bne_iff_ne]
  constructor
  · rintro ⟨member, hmember, rfl⟩
    rw [contains_erase, Bool.and_eq_true, bne_iff_ne] at hmember
    exact ⟨fun heq => hmember.1 (hinj heq), member, hmember.2, rfl⟩
  · rintro ⟨hne, member, hmember, rfl⟩
    refine ⟨member, ?_, rfl⟩
    have hmember' : member ≠ name := fun heq => hne (congrArg rename heq)
    simp [hmember, hmember']

end NameSet

end IsaBackend
