import IsaBackend.Proofs.Machine.Stores
import IsaBackend.Proofs.Value.Conforming

/-!
# Stores to parts of records

A place is a local or a register and a path of fields. Storing at a place puts the value there, in the
shape of the place's representation, and touches nothing that is not on the path. The record around
a field is stored as a whole, and brought into shape again at every level; since it fitted before and
the new part fits, that changes nothing.
-/

namespace IsaBackend

namespace Value

/-- The part of a value at the end of a path of fields. -/
def at? : Value → List String → Option Value
  | value, [] => some value
  | value, key :: path => (value.field? key).bind fun part => part.at? path

/-- Two values differ at most on a path: their other parts are the same. -/
def SameOff (path : List String) (value other : Value) : Prop :=
  ∀ route : List String, ¬path <+: route → ¬route <+: path → other.at? route = value.at? route

private theorem sameOff_nil (value other : Value) : SameOff [] value other :=
  fun _ h => absurd List.nil_prefix h

variable {value record updated : Value} {key : String}

private theorem at?_append (value : Value) (path rest : List String) :
    value.at? (path ++ rest) = (value.at? path).bind fun part => part.at? rest := by
  induction path generalizing value with
  | nil => rfl
  | cons key path ih =>
    simp only [List.cons_append, at?]
    cases value.field? key with
    | none => rfl
    | some part => exact ih part

private theorem lookup_replaceEntry (key other : String) (value : Value)
    (fields : List (String × Value)) (h : (fields.lookup key).isSome) :
    (replaceEntry key value fields).lookup other =
      if other = key then some value else fields.lookup other := by
  induction fields with
  | nil => cases h
  | cons field rest ih =>
    obtain ⟨name, old⟩ := field
    by_cases hname : name = key
    · subst hname
      by_cases hother : other = name <;> simp [replaceEntry, NameTable.lookup_cons_entry, hother]
    · rw [NameTable.lookup_cons_entry, if_neg (Ne.symm hname)] at h
      simp only [replaceEntry, if_neg hname, NameTable.lookup_cons_entry, ih h]
      by_cases hother : other = name
      · simp [hother, hname]
      · simp [hother]

private theorem field?_setField? (h : record.setField? key value = some updated) (other : String) :
    updated.field? other = if other = key then some value else record.field? other := by
  cases record with
  | record fields =>
    obtain ⟨old, hold, rfl⟩ := Option.map_eq_some_iff.mp h
    exact lookup_replaceEntry key other value fields (by simp [hold])
  | _ => cases h

/-- A new value for a field changes nothing off the path to that field. -/
theorem SameOff.field {whole stored : Value} {path : List String} (h : SameOff path whole stored)
    (hrecord : whole.at? path = some record) (hupdated : stored.at? path = some updated)
    (hset : record.setField? key value = some updated) :
    SameOff (path ++ [key]) whole stored := by
  intro route hoff hnot
  by_cases hpath : path <+: route
  · obtain ⟨rest, rfl⟩ := hpath
    rw [at?_append, at?_append, hrecord, hupdated]
    cases rest with
    | nil => exact absurd ⟨[key], by simp⟩ hnot
    | cons other rest =>
      have hne : other ≠ key := by
        rintro rfl
        exact hoff ⟨rest, by simp⟩
      simp only [Option.bind_some, at?, field?_setField? hset, if_neg hne]
  · exact h route hpath fun hleads => hnot (hleads.trans (List.prefix_append path [key]))

end Value

def Place.path : Place → List String
  | name _ _ => []
  | deref _ _ => []
  | field base key _ => base.path ++ [key]

namespace Activation

/-- The representation that a name was declared with: as a local, or else as a register. -/
def declared? (act : Activation) (name : String) : Option Rep :=
  ((act.frame.get? name).map Slot.rep).or ((act.registers.get? name).map Register.rep)

/-- Every local and every register holds a value that fits it, and the fields of every struct are
distinct. -/
structure Conforms (act : Activation) : Prop where
  locals : ∀ name slot, act.frame.get? name = some slot →
    slot.rep.isDistinct = true ∧ slot.rep.Fits slot.value
  registers : ∀ name register, act.registers.get? name = some register →
    register.rep.isDistinct = true ∧ register.rep.Fits register.value

/-- Only one name has changed, as a local if it is one and else as a register, and of its value only
what is on a path. -/
structure ChangesAt (act after : Activation) (root : String) (path : List String) : Prop where
  locals : ∀ name, name ≠ root → after.frame.get? name = act.frame.get? name
  registers : ∀ name, name ≠ root → after.registers.get? name = act.registers.get? name
  root :
    (∃ slot stored, act.frame.get? root = some slot ∧ slot.value.SameOff path stored ∧
      after.frame.get? root = some { slot with value := stored } ∧
      after.registers = act.registers) ∨
    ∃ register stored, act.frame.get? root = none ∧ act.registers.get? root = some register ∧
      register.value.SameOff path stored ∧ after.frame = act.frame ∧
      after.registers.get? root = some { register with value := stored }

end Activation

/-- A place carries the representations that its root and its fields were declared with. -/
def Place.Typed (act : Activation) : Place → Prop
  | name key rep => act.declared? key = some rep
  | deref key rep => act.declared? key = some rep
  | field base key rep => base.Typed act ∧ base.rep.fields.lookup key = some rep

namespace Activation

variable {program : Program} {act after : Activation} {name : String} {rep : Rep}
  {value whole : Value}

private theorem Conforms.read (h : act.Conforms) (hrep : act.declared? name = some rep)
    (hread : act.read program name = .ok value) : rep.isDistinct = true ∧ rep.Fits value := by
  unfold Activation.read at hread
  unfold declared? at hrep
  cases hslot : act.frame.get? name with
  | some slot =>
    simp only [hslot, Option.map_some, Option.some_or, Option.some.injEq] at hrep
    simp only [NameTable.contains, hslot, Option.isSome_some, if_true, Frame.read] at hread
    split at hread
    · cases hread
    · cases hread
      exact hrep ▸ h.locals name slot hslot
  | none =>
    simp only [hslot, Option.map_none, Option.none_or] at hrep
    obtain ⟨register, hregister, rfl⟩ := Option.map_eq_some_iff.mp hrep
    simp only [NameTable.contains, hslot, hregister] at hread
    cases hread
    exact h.registers name register hregister

/-- The value at a place is at the end of the path from the root. -/
theorem load_eq_ok {place : Place} :
    act.load program place = .ok value ↔
      ∃ whole, act.read program place.root = .ok whole ∧ whole.at? place.path = some value := by
  induction place generalizing value with
  | name key rep => simp [load, Place.root, Place.path, Value.at?]
  | deref key rep => simp [load, Place.root, Place.path, Value.at?]
  | field base key rep ih =>
    simp only [load, except_bind_eq_ok, ih, Place.root, Place.path, Value.at?_append,
      Option.bind_eq_some_iff]
    constructor
    · rintro ⟨record, ⟨whole, hwhole, hrecord⟩, hproject⟩
      refine ⟨whole, hwhole, record, hrecord, ?_⟩
      unfold project at hproject
      split at hproject
      · rename_i part hpart
        cases hproject
        simp [Value.at?, hpart]
      · cases hproject
    · rintro ⟨whole, hwhole, record, hrecord, hpart⟩
      refine ⟨record, ⟨whole, hwhole, hrecord⟩, ?_⟩
      have hfield : record.field? key = some value := by simpa [Value.at?] using hpart
      simp [project, hfield]

private theorem Conforms.load (h : act.Conforms) {place : Place} (hplace : place.Typed act)
    (hload : act.load program place = .ok value) :
    place.rep.isDistinct = true ∧ place.rep.Fits value := by
  induction place generalizing value with
  | name key rep => exact h.read hplace hload
  | deref key rep => exact h.read hplace hload
  | field base key rep ih =>
    obtain ⟨hbase, hpart⟩ := hplace
    obtain ⟨record, hrecord, hproject⟩ := except_bind_eq_ok.mp hload
    obtain ⟨hdistinct, hfits⟩ := ih hbase hrecord
    refine ⟨Rep.isDistinct_of_lookup hdistinct hpart, ?_⟩
    obtain ⟨values, rfl⟩ := hfits.eq_record hpart
    obtain ⟨part, hlookup, hpartFits⟩ := (hfits.fieldsFit hdistinct).lookup hpart
    simp only [project, Value.field?, hlookup] at hproject
    cases hproject
    exact hpartFits

/-- A write that succeeds changes the value of one name, which could be read before. -/
theorem write_eq_ok {stored : Value} (hwrite : act.write name stored = .ok after)
    (program : Program) :
    ∃ whole, act.read program name = .ok whole ∧ after.read program name = .ok stored ∧
      ∀ path, whole.SameOff path stored → act.ChangesAt after name path := by
  unfold Activation.write at hwrite
  unfold Activation.read
  cases hslot : act.frame.get? name with
  | some slot =>
    simp only [NameTable.contains, hslot, Option.isSome_some, if_true, Frame.write] at hwrite
    split at hwrite
    · cases hwrite
    · rename_i hreleased
      cases hwrite
      refine ⟨slot.value, ?_, ?_, fun path hoff => ?_⟩
      · simp [NameTable.contains, Frame.read, hslot, hreleased]
      · simp [NameTable.contains, Frame.read, hreleased]
      · exact ⟨fun key hkey => by simp [hkey], fun _ _ => rfl,
          .inl ⟨slot, stored, hslot, hoff, by simp, rfl⟩⟩
  | none =>
    simp only [NameTable.contains, hslot] at hwrite
    cases hregister : act.registers.get? name with
    | none => simp [hregister] at hwrite
    | some register =>
      simp only [hregister] at hwrite
      cases hwrite
      refine ⟨register.value, ?_, ?_, fun path hoff => ?_⟩
      · simp [NameTable.contains, hslot]
      · simp [NameTable.contains, hslot]
      · exact ⟨fun _ _ => rfl, fun key hkey => by simp [hkey],
          .inr ⟨register, stored, hslot, hregister, hoff, rfl, by simp⟩⟩

/-- A store that succeeds writes the root once. The induction goes from the field to the record around
it, which already fits and is written as it is. -/
theorem Conforms.store (h : act.Conforms) {dest : Place} (hdest : dest.Typed act)
    (hstore : act.store program dest value = .ok after) :
    ∃ given whole stored, dest.rep.conform value = .ok given ∧
      act.read program dest.root = .ok whole ∧ act.write dest.root stored = .ok after ∧
      stored.at? dest.path = some given ∧ whole.SameOff dest.path stored := by
  induction dest generalizing value with
  | name key rep =>
    obtain ⟨given, hgiven, hwrite⟩ := except_bind_eq_ok.mp hstore
    obtain ⟨whole, hread, _⟩ := write_eq_ok hwrite program
    exact ⟨given, whole, given, hgiven, hread, hwrite, rfl, Value.sameOff_nil whole given⟩
  | deref key rep =>
    obtain ⟨given, hgiven, hwrite⟩ := except_bind_eq_ok.mp hstore
    obtain ⟨whole, hread, _⟩ := write_eq_ok hwrite program
    exact ⟨given, whole, given, hgiven, hread, hwrite, rfl, Value.sameOff_nil whole given⟩
  | field base key rep ih =>
    obtain ⟨hbase, hpart⟩ := hdest
    obtain ⟨given, hgiven, hstore⟩ := except_bind_eq_ok.mp hstore
    obtain ⟨record, hrecord, hstore⟩ := except_bind_eq_ok.mp hstore
    split at hstore
    · rename_i updated hset
      obtain ⟨shaped, whole, stored, hshaped, hread, hwrite, hat, hoff⟩ := ih hbase hstore
      -- the record fits before and after, so shaping it again does nothing
      obtain ⟨hdistinct, hfits⟩ := h.load hbase hrecord
      have hupdated : base.rep.conform updated = .ok updated := by
        obtain ⟨values, rfl⟩ := hfits.eq_record hpart
        obtain ⟨old, _, rfl⟩ := Option.map_eq_some_iff.mp hset
        have hgivenFits := Rep.conform_fits (Rep.isDistinct_of_lookup hdistinct hpart) hgiven
        exact ((hfits.fieldsFit hdistinct).replace hpart hgivenFits).fits hdistinct hpart
      obtain rfl : updated = shaped := Except.ok.inj (hupdated.symm.trans hshaped)
      obtain ⟨other, hother, hwhole⟩ := load_eq_ok.mp hrecord
      obtain rfl : other = whole := Except.ok.inj (hother.symm.trans hread)
      refine ⟨given, other, stored, hgiven, hread, hwrite, ?_, hoff.field hwhole hat hset⟩
      rw [Place.path, Value.at?_append, hat]
      simp [Value.at?, Value.field?_setField? hset]
    · cases hstore

/-- In a state that conforms, a store to a place with the declared representations either succeeds,
and then the place has the value in the shape of its representation and nothing off the path to it has
changed, or it fails and the state is as before. -/
theorem store_changes_place_only (program : Program) (act : Activation) (dest : Place)
    (value : Value) (hconforms : act.Conforms) (hdest : dest.Typed act) :
    match Exec.store program dest value act with
    | .ok _ after => after.load program dest = dest.rep.conform value ∧
        act.ChangesAt after dest.root dest.path
    | .error _ after => after = act := by
  cases hstore : act.store program dest value with
  | error cause => rw [Exec.store_of_error hstore]
  | ok after =>
    rw [Exec.store_of_ok hstore]
    obtain ⟨given, whole, stored, hgiven, hread, hwrite, hat, hoff⟩ := hconforms.store hdest hstore
    obtain ⟨other, hother, hafter, hchanges⟩ := write_eq_ok hwrite program
    obtain rfl : other = whole := Except.ok.inj (hother.symm.trans hread)
    exact ⟨(load_eq_ok.mpr ⟨stored, hafter, hat⟩).trans hgiven.symm, hchanges dest.path hoff⟩

/-- A local with a record in a record, and a register of the same name. -/
def nesting : Activation where
  registers := ⟨[("point", ⟨.int 7, .bigInt⟩)]⟩
  fuel := 0
  frame := ⟨[("point",
    { value := .record [("name", .text "p"), ("at", .record [("tup0", .int 1), ("tup1", .int 2)])]
      rep := .struct "Point" [("name", .string), ("at", .tuple [.machInt, .machInt])]
      owned := true })]⟩

def innerPlace : Place :=
  .field (.field (.name "point" (.struct "Point" [("name", .string), ("at", .tuple [.machInt,
    .machInt])])) "at" (.tuple [.machInt, .machInt])) "tup1" .machInt

theorem nesting_changes_inner_only :
    nesting.Conforms ∧ innerPlace.Typed nesting ∧
      (nesting.store ⟨[]⟩ innerPlace (.int 5)).isOk = true ∧
      match Exec.store ⟨[]⟩ innerPlace (.int 5) nesting with
      | .ok _ after => after.load ⟨[]⟩ innerPlace = innerPlace.rep.conform (.int 5) ∧
          nesting.ChangesAt after innerPlace.root innerPlace.path
      | .error _ after => after = nesting := by
  have hconforms : nesting.Conforms := by
    constructor
    · intro name slot h
      cases List.mem_singleton.mp (NameTable.mem_of_get? h)
      exact ⟨rfl, rfl⟩
    · intro name register h
      cases List.mem_singleton.mp (NameTable.mem_of_get? h)
      exact ⟨rfl, rfl⟩
  have hplace : innerPlace.Typed nesting := ⟨⟨rfl, rfl⟩, rfl⟩
  exact ⟨hconforms, hplace, rfl, store_changes_place_only ⟨[]⟩ nesting innerPlace (.int 5) hconforms
    hplace⟩

end Activation

end IsaBackend
