import IsaBackend.Names.Fresh
import IsaBackend.Names.Table

/-!
# Generated names and tables of names

Distinct numbers give distinct generated names, and a name without the mark is never generated. A
change of a table that is undone leaves every look-up as it was.
-/

namespace IsaBackend

namespace FreshNames

theorem name_inj {number other : Nat} : name number = name other ↔ number = other := by
  refine ⟨fun h => ?_, fun h => h ▸ rfl⟩
  have htext : toString number = toString other := (String.append_right_inj mark).mp h
  have hdigits : Nat.toDigits 10 number = Nat.toDigits 10 other := by
    simpa only [Nat.toString_eq_repr, Nat.toList_repr] using congrArg String.toList htext
  calc
    number = Nat.ofDigitChars 10 (Nat.toDigits 10 number) 0 := Nat.ofDigitChars_ten_toDigits.symm
    _ = other := by rw [hdigits, Nat.ofDigitChars_ten_toDigits]

theorem hash_mem_name (number : Nat) : '#' ∈ (name number).toList := by
  simp [name, mark, String.toList_append]

theorem ne_name_of_no_hash {text : String} (h : '#' ∉ text.toList) (number : Nat) :
    text ≠ name number := by
  rintro rfl
  exact h (hash_mem_name number)

end FreshNames

namespace NameTable

variable {α : Type} {table : NameTable α} {name : String} {value : α}

theorem get?_put (table : NameTable α) (name key : String) (value : Option α) :
    (table.put name value).get? key = if key = name then value else table.get? key := by
  cases value with
  | none => exact get?_erase table name key
  | some value => exact get?_set table name value key

/-- No name has two entries. -/
def Unique (table : NameTable α) : Prop := (table.entries.map Prod.fst).Nodup

theorem unique_empty : (∅ : NameTable α).Unique := List.nodup_nil

theorem mem_of_get? (h : table.get? name = some value) : (name, value) ∈ table.entries := by
  obtain ⟨entries⟩ := table
  change entries.lookup name = some value at h
  induction entries with
  | nil => cases h
  | cons entry rest ih =>
    obtain ⟨key, found⟩ := entry
    rw [lookup_cons_entry] at h
    split at h
    · rename_i heq
      cases h
      exact heq ▸ List.mem_cons_self
    · exact List.mem_cons_of_mem _ (ih h)

theorem mem_setEntry {entries : List (String × α)} {entry : String × α}
    (h : entry ∈ setEntry name value entries) : entry = (name, value) ∨ entry ∈ entries := by
  induction entries with
  | nil => exact .inl (List.mem_singleton.mp h)
  | cons other rest ih =>
    unfold setEntry at h
    split at h
    · exact (List.mem_cons.mp h).imp_right (List.mem_cons_of_mem _)
    · rcases List.mem_cons.mp h with rfl | h
      · exact .inr List.mem_cons_self
      · exact (ih h).imp_right (List.mem_cons_of_mem _)

theorem Unique.set (h : table.Unique) (name : String) (value : α) :
    (table.set name value).Unique := by
  obtain ⟨entries⟩ := table
  change ((setEntry name value entries).map Prod.fst).Nodup
  change (entries.map Prod.fst).Nodup at h
  induction entries with
  | nil => simp [setEntry]
  | cons entry rest ih =>
    obtain ⟨other, old⟩ := entry
    obtain ⟨hnew, hrest⟩ := List.nodup_cons.mp h
    by_cases ho : other = name
    · subst ho
      simpa [setEntry] using h
    · simp only [setEntry, if_neg ho, List.map_cons]
      refine List.nodup_cons.mpr ⟨fun hm => ?_, ih hrest⟩
      obtain ⟨entry, hentry, hkey⟩ := List.mem_map.mp hm
      rcases mem_setEntry hentry with rfl | hentry
      · exact ho hkey.symm
      · exact hnew (List.mem_map.mpr ⟨entry, hentry, hkey⟩)

theorem Unique.get?_of_mem (h : table.Unique) (hm : (name, value) ∈ table.entries) :
    table.get? name = some value := by
  obtain ⟨entries⟩ := table
  change entries.lookup name = some value
  change (entries.map Prod.fst).Nodup at h
  change (name, value) ∈ entries at hm
  induction entries with
  | nil => cases hm
  | cons entry rest ih =>
    obtain ⟨other, old⟩ := entry
    obtain ⟨hnew, hrest⟩ := List.nodup_cons.mp h
    rw [lookup_cons_entry]
    rcases List.mem_cons.mp hm with hhead | htail
    · cases hhead
      simp
    · have hne : name ≠ other := by
        intro he
        exact hnew (List.mem_map.mpr ⟨(name, value), htail, he⟩)
      rw [if_neg hne]
      exact ih hrest htail

theorem Unique.filter (h : table.Unique) (keep : α → Bool) : (table.filter keep).Unique :=
  List.Nodup.sublist (List.filter_sublist.map Prod.fst) h

theorem Unique.get?_filter (h : table.Unique) (keep : α → Bool) (name : String) :
    (table.filter keep).get? name = (table.get? name).filter keep := by
  ext value
  constructor
  · intro hfound
    obtain ⟨hmem, hkeep⟩ := List.mem_filter.mp (mem_of_get? hfound)
    exact Option.filter_eq_some_iff.mpr ⟨h.get?_of_mem hmem, hkeep⟩
  · intro hfound
    obtain ⟨hget, hkeep⟩ := Option.filter_eq_some_iff.mp hfound
    exact (h.filter keep).get?_of_mem (List.mem_filter.mpr ⟨mem_of_get? hget, hkeep⟩)

end NameTable

end IsaBackend
