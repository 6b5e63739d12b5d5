/-!
# Sets of names

A set of names is the ascending list of its members, so that two sets with the same members are
equal.
-/

namespace IsaBackend

structure NameSet where
  names : List String
  ascending : names.Pairwise (· < ·)
  deriving DecidableEq

namespace NameSet

def empty : NameSet := ⟨[], .nil⟩

instance : EmptyCollection NameSet := ⟨empty⟩

def contains (set : NameSet) (name : String) : Bool := set.names.contains name

/-- Insert a name at its place in an ascending list that may hold it already. -/
def insertName (name : String) : List String → List String
  | [] => [name]
  | first :: rest =>
    if name < first then name :: first :: rest
    else if name = first then first :: rest
    else first :: insertName name rest

private theorem mem_insertName {name x : String} {names : List String} :
    x ∈ insertName name names ↔ x = name ∨ x ∈ names := by
  induction names with
  | nil => simp [insertName]
  | cons first rest ih =>
    by_cases hlt : name < first
    · simp [insertName, hlt]
    · by_cases heq : name = first
      · simp [insertName, heq]
      · simp only [insertName, hlt, heq, if_false, List.mem_cons, ih]
        exact or_left_comm

private theorem pairwise_insertName (name : String) {names : List String}
    (ascending : names.Pairwise (· < ·)) : (insertName name names).Pairwise (· < ·) := by
  induction names with
  | nil => simp [insertName]
  | cons first rest ih =>
    obtain ⟨below, rest_ascending⟩ := List.pairwise_cons.mp ascending
    by_cases hlt : name < first
    · simp only [insertName, hlt, if_true, List.pairwise_cons]
      refine ⟨fun x hx => ?_, below, rest_ascending⟩
      rcases List.mem_cons.mp hx with rfl | hx
      · exact hlt
      · exact String.lt_trans hlt (below x hx)
    · by_cases heq : name = first
      · simpa [insertName, heq] using ascending
      · simp only [insertName, hlt, heq, if_false, List.pairwise_cons]
        refine ⟨fun x hx => ?_, ih rest_ascending⟩
        rcases mem_insertName.mp hx with rfl | hx
        · exact Decidable.byContradiction fun hge =>
            heq (String.le_antisymm (String.not_lt.mp hge) (String.not_lt.mp hlt))
        · exact below x hx

def insert (set : NameSet) (name : String) : NameSet :=
  ⟨insertName name set.names, pairwise_insertName name set.ascending⟩

def erase (set : NameSet) (name : String) : NameSet :=
  ⟨set.names.filter (· != name), set.ascending.filter _⟩

@[simp] theorem contains_empty (name : String) : empty.contains name = false := rfl

@[simp] theorem contains_insert (set : NameSet) (name x : String) :
    (set.insert name).contains x = (x == name || set.contains x) := by
  rw [Bool.eq_iff_iff]
  simp [contains, insert, mem_insertName]

@[simp] theorem contains_erase (set : NameSet) (name x : String) :
    (set.erase name).contains x = (x != name && set.contains x) := by
  rw [Bool.eq_iff_iff]
  simp [contains, erase, and_comm]

end NameSet

end IsaBackend
