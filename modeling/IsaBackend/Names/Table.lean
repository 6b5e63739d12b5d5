/-!
# Tables indexed by names

A table is a list of entries with one entry for each name. Setting a name keeps its place in the
list, so undoing a change gives back the very same table.
-/

namespace IsaBackend

structure NameTable (α : Type) where
  entries : List (String × α)
  deriving DecidableEq, Repr

namespace NameTable

variable {α : Type}

def empty : NameTable α := ⟨[]⟩

instance : EmptyCollection (NameTable α) := ⟨empty⟩

def get? (table : NameTable α) (name : String) : Option α := table.entries.lookup name

def contains (table : NameTable α) (name : String) : Bool := (table.get? name).isSome

/-- Replace the entry of a name in place, or add one at the end. -/
def setEntry (name : String) (value : α) : List (String × α) → List (String × α)
  | [] => [(name, value)]
  | (key, old) :: rest =>
    if key = name then (name, value) :: rest else (key, old) :: setEntry name value rest

def set (table : NameTable α) (name : String) (value : α) : NameTable α :=
  ⟨setEntry name value table.entries⟩

def erase (table : NameTable α) (name : String) : NameTable α :=
  ⟨table.entries.filter fun entry => entry.1 != name⟩

/-- Give a name the value it is to have, or none. -/
def put (table : NameTable α) (name : String) : Option α → NameTable α
  | some value => table.set name value
  | none => table.erase name

def filter (table : NameTable α) (keep : α → Bool) : NameTable α :=
  ⟨table.entries.filter fun entry => keep entry.2⟩

/-- The table that results from setting the given entries one after the other. -/
def ofList (entries : List (String × α)) : NameTable α :=
  entries.foldl (fun table entry => table.set entry.1 entry.2) empty

@[simp] theorem get?_empty (name : String) : (empty : NameTable α).get? name = none := rfl

theorem lookup_cons_entry (key name : String) (value : α) (rest : List (String × α)) :
    List.lookup key ((name, value) :: rest) =
      if key = name then some value else rest.lookup key := by
  by_cases h : key = name
  · simp [h]
  · have hk : (key == name) = false := beq_false_of_ne h
    simp [List.lookup_cons, hk, h]

private theorem lookup_setEntry (entries : List (String × α)) (name : String) (value : α)
    (key : String) : (setEntry name value entries).lookup key =
      if key = name then some value else entries.lookup key := by
  induction entries with
  | nil => simp [setEntry, lookup_cons_entry]
  | cons entry rest ih =>
    obtain ⟨other, old⟩ := entry
    by_cases ho : other = name
    · subst ho
      by_cases h : key = other <;> simp [setEntry, lookup_cons_entry, h]
    · by_cases h : key = other
      · subst h
        simp [setEntry, ho]
      · simp [setEntry, lookup_cons_entry, ho, h, ih]

private theorem lookup_filter_ne (entries : List (String × α)) (name key : String) :
    (entries.filter fun entry => entry.1 != name).lookup key =
      if key = name then none else entries.lookup key := by
  induction entries with
  | nil => simp
  | cons entry rest ih =>
    obtain ⟨other, value⟩ := entry
    by_cases ho : other = name
    · subst ho
      rw [List.filter_cons_of_neg (by simp), ih]
      by_cases h : key = other <;> simp [lookup_cons_entry, h]
    · rw [List.filter_cons_of_pos (by simp [ho])]
      by_cases h : key = other
      · subst h
        simp [ho]
      · simp [lookup_cons_entry, h, ih]

/-- A name that was set has its new value, and every other name keeps the one it had. -/
@[simp] theorem get?_set (table : NameTable α) (name : String) (value : α) (key : String) :
    (table.set name value).get? key = if key = name then some value else table.get? key :=
  lookup_setEntry table.entries name value key

/-- An erased name has no value, and every other name keeps the one it had. -/
@[simp] theorem get?_erase (table : NameTable α) (name key : String) :
    (table.erase name).get? key = if key = name then none else table.get? key :=
  lookup_filter_ne table.entries name key

end NameTable

end IsaBackend
