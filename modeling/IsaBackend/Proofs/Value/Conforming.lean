import IsaBackend.Proofs.Effects
import IsaBackend.Proofs.Names
import IsaBackend.Value.Conform

/-!
# Values that fit their representation

A value fits a representation if bringing it into the shape of the representation leaves it as it is.
Whatever conforming gives fits, and so does the value of fresh storage, as long as no struct has two
fields of one name and every union has a constructor.
-/

namespace IsaBackend

namespace Rep

mutual

/-- The fields of every struct are distinct, and every union has a constructor. Conforming does not
look at the payloads of unions. -/
def isSound : Rep → Bool
  | tuple elems => allSound elems
  | struct _ fields => decide (fields.map Prod.fst).Nodup && fieldsSound fields
  | union _ ctors => !ctors.isEmpty
  | _ => true

def allSound : List Rep → Bool
  | [] => true
  | rep :: rest => rep.isSound && allSound rest

def fieldsSound : List (String × Rep) → Bool
  | [] => true
  | (_, rep) :: rest => rep.isSound && fieldsSound rest

end

mutual

def isDistinct : Rep → Bool
  | tuple elems => allDistinct elems
  | struct _ fields => decide (fields.map Prod.fst).Nodup && fieldsDistinct fields
  | _ => true

def allDistinct : List Rep → Bool
  | [] => true
  | rep :: rest => rep.isDistinct && allDistinct rest

def fieldsDistinct : List (String × Rep) → Bool
  | [] => true
  | (_, rep) :: rest => rep.isDistinct && fieldsDistinct rest

end

mutual

private theorem isDistinct_of_isSound : ∀ {rep : Rep}, rep.isSound = true → rep.isDistinct = true
  | .tuple _, h => allDistinct_of_allSound h
  | .struct _ _, h => by
    obtain ⟨hnames, hfields⟩ := Bool.and_eq_true_iff.mp h
    exact Bool.and_eq_true_iff.mpr ⟨hnames, fieldsDistinct_of_fieldsSound hfields⟩
  | .bigInt, _ | .machInt, _ | .wideBits _, _ | .packedBits _ _, _ | .unit, _ | .bool, _
  | .string, _ | .enum _ _, _ | .union _ _, _ | .ref _, _ => rfl

theorem allDistinct_of_allSound : ∀ {elems : List Rep}, allSound elems = true →
    allDistinct elems = true
  | [], _ => rfl
  | _ :: _, h => by
    obtain ⟨hrep, hrest⟩ := Bool.and_eq_true_iff.mp h
    exact Bool.and_eq_true_iff.mpr ⟨isDistinct_of_isSound hrep, allDistinct_of_allSound hrest⟩

theorem fieldsDistinct_of_fieldsSound : ∀ {fields : List (String × Rep)},
    fieldsSound fields = true → fieldsDistinct fields = true
  | [], _ => rfl
  | _ :: _, h => by
    obtain ⟨hrep, hrest⟩ := Bool.and_eq_true_iff.mp h
    exact Bool.and_eq_true_iff.mpr
      ⟨isDistinct_of_isSound hrep, fieldsDistinct_of_fieldsSound hrest⟩

end

/-- Storage of the representation can hold the value as it is. -/
def Fits (rep : Rep) (value : Value) : Prop := rep.conform value = .ok value

inductive FieldsFit : List (String × Rep) → List (String × Value) → Prop where
  | nil : FieldsFit [] []
  | cons {name : String} {rep : Rep} {value : Value} {fields : List (String × Rep)}
      {values : List (String × Value)} :
      rep.Fits value → FieldsFit fields values →
        FieldsFit ((name, rep) :: fields) ((name, value) :: values)

private theorem tupleField_inj {index other : Nat} (h : tupleField index = tupleField other) :
    index = other := by
  have htext : toString index = toString other := (String.append_right_inj "tup").mp h
  exact FreshNames.name_inj.mp (congrArg (FreshNames.mark ++ ·) htext)

private theorem conformElems_eq (values : List (String × Value)) : ∀ (index : Nat)
    (elems : List Rep),
    conformElems values index elems = conformFields values (numbered index elems)
  | _, [] => rfl
  | index, rep :: rest => by
    simp only [conformElems, numbered, conformFields, conformElems_eq values (index + 1) rest]

private theorem le_of_mem_numbered {name : String} :
    ∀ {index : Nat} {elems : List Rep}, name ∈ (numbered index elems).map Prod.fst →
      ∃ position, index ≤ position ∧ name = tupleField position
  | index, rep :: rest, h => by
    rcases List.mem_cons.mp h with rfl | hrest
    · exact ⟨index, Nat.le_refl _, rfl⟩
    · obtain ⟨position, hle, hname⟩ := le_of_mem_numbered hrest
      exact ⟨position, by omega, hname⟩

private theorem numbered_nodup : ∀ (index : Nat) (elems : List Rep),
    ((numbered index elems).map Prod.fst).Nodup
  | _, [] => List.nodup_nil
  | index, rep :: rest => by
    refine List.nodup_cons.mpr ⟨fun hmem => ?_, numbered_nodup (index + 1) rest⟩
    obtain ⟨position, hle, hname⟩ := le_of_mem_numbered hmem
    have heq := tupleField_inj hname
    omega

/-- A record whose fields fit keeps them: each field finds its own entry, because the names are
distinct. -/
theorem FieldsFit.conformFields_eq {fields : List (String × Rep)} {values : List (String × Value)}
    (h : FieldsFit fields values) (hnames : (fields.map Prod.fst).Nodup)
    {whole : List (String × Value)}
    (hwhole : ∀ name ∈ fields.map Prod.fst, whole.lookup name = values.lookup name) :
    conformFields whole fields = .ok values := by
  induction h with
  | nil => rfl
  | @cons key rep value fields values hfits hrest ih =>
    obtain ⟨hnew, hnames⟩ := List.nodup_cons.mp hnames
    have hfound : whole.lookup key = some value := by
      rw [hwhole key List.mem_cons_self, NameTable.lookup_cons_entry, if_pos rfl]
    have hothers : ∀ name ∈ fields.map Prod.fst, whole.lookup name = values.lookup name := by
      intro name hname
      have hne : name ≠ key := fun heq => hnew (heq ▸ hname)
      rw [hwhole name (List.mem_cons_of_mem _ hname), NameTable.lookup_cons_entry, if_neg hne]
    simp only [conformFields, hfound, Option.getD_some, ih hnames hothers]
    rw [show rep.conform value = .ok value from hfits]
    rfl

theorem FieldsFit.struct {name : String} {fields : List (String × Rep)}
    {values : List (String × Value)} (h : FieldsFit fields values)
    (hnames : (fields.map Prod.fst).Nodup) : (Rep.struct name fields).Fits (.record values) := by
  rw [Fits, conform, h.conformFields_eq hnames fun _ _ => rfl]
  rfl

theorem FieldsFit.tuple {elems : List Rep} {values : List (String × Value)}
    (h : FieldsFit (numbered 0 elems) values) : (Rep.tuple elems).Fits (.record values) := by
  rw [Fits, conform, conformElems_eq, h.conformFields_eq (numbered_nodup 0 elems) fun _ _ => rfl]
  rfl

private theorem fieldsFit_of_conform {values : List (String × Value)} :
    ∀ {fields : List (String × Rep)} {result : List (String × Value)},
      (∀ field ∈ fields, ∀ value given, field.2.conform value = .ok given → field.2.Fits given) →
      conformFields values fields = .ok result → FieldsFit fields result
  | [], result, _, h => by
    cases h
    exact .nil
  | (name, rep) :: rest, result, hfits, h => by
    rw [conformFields] at h
    obtain ⟨value, hvalue, h⟩ := except_bind_eq_ok.mp h
    obtain ⟨others, hothers, h⟩ := except_bind_eq_ok.mp h
    cases h
    refine .cons (hfits (name, rep) List.mem_cons_self _ _ hvalue) ?_
    exact fieldsFit_of_conform (fun field hmem => hfits field (List.mem_cons_of_mem _ hmem)) hothers

mutual

theorem conform_fits : ∀ {rep : Rep} {value given : Value}, rep.isDistinct = true →
    rep.conform value = .ok given → rep.Fits given
  | .tuple elems, value, given, hdistinct, h => by
    cases value with
    | record values =>
      rw [conform, conformElems_eq] at h
      obtain ⟨result, hresult, h⟩ := except_bind_eq_ok.mp h
      cases h
      exact (fieldsFit_of_conform (elems_fit hdistinct 0) hresult).tuple
    | _ => cases h
  | .struct name fields, value, given, hdistinct, h => by
    obtain ⟨hnames, hfields⟩ := Bool.and_eq_true_iff.mp hdistinct
    cases value with
    | record values =>
      rw [conform] at h
      obtain ⟨result, hresult, h⟩ := except_bind_eq_ok.mp h
      cases h
      exact (fieldsFit_of_conform (fields_fit hfields) hresult).struct (of_decide_eq_true hnames)
    | _ => cases h
  | .machInt, value, given, _, h => by
    cases value with
    | int number =>
      rw [conform] at h
      split at h
      · rename_i hrange
        cases h
        exact if_pos hrange
      · cases h
    | _ => cases h
  | .packedBits width order, value, given, _, h => by
    cases value with
    | bits number size =>
      cases h
      simp only [Fits, conform, lowBits, Nat.mod_mod]
    | _ => cases h
  | .bigInt, value, given, _, h => by
    cases value <;> cases h
    rfl
  | .wideBits _, value, given, _, h => by
    cases value <;> cases h
    rfl
  | .unit, value, given, _, h => by
    cases value <;> cases h
    rfl
  | .bool, value, given, _, h => by
    cases value <;> cases h
    rfl
  | .string, value, given, _, h => by
    cases value <;> cases h
    rfl
  | .enum _ _, value, given, _, h => by
    cases value <;> cases h
    rfl
  | .union _ _, value, given, _, h => by
    cases value <;> cases h
    rfl
  | .ref _, value, given, _, h => by
    cases value <;> cases h
    rfl

private theorem elems_fit : ∀ {elems : List Rep}, allDistinct elems = true → ∀ index : Nat,
    ∀ field ∈ numbered index elems, ∀ value given, field.2.conform value = .ok given →
      field.2.Fits given
  | rep :: rest, hdistinct, index, field, hmem, value, given, h => by
    obtain ⟨hrep, hrest⟩ := Bool.and_eq_true_iff.mp hdistinct
    rcases List.mem_cons.mp hmem with rfl | hmem
    · exact conform_fits hrep h
    · exact elems_fit hrest (index + 1) field hmem value given h

private theorem fields_fit : ∀ {fields : List (String × Rep)}, fieldsDistinct fields = true →
    ∀ field ∈ fields, ∀ value given, field.2.conform value = .ok given → field.2.Fits given
  | (name, rep) :: rest, hdistinct, field, hmem, value, given, h => by
    obtain ⟨hrep, hrest⟩ := Bool.and_eq_true_iff.mp hdistinct
    rcases List.mem_cons.mp hmem with rfl | hmem
    · exact conform_fits hrep h
    · exact fields_fit hrest field hmem value given h

end

theorem fits_of_conform {rep : Rep} {value given : Value} (hsound : rep.isSound = true)
    (h : rep.conform value = .ok given) : rep.Fits given :=
  conform_fits (isDistinct_of_isSound hsound) h

mutual

theorem initial_fits : ∀ {rep : Rep}, rep.isSound = true → rep.Fits rep.initial
  | .tuple elems, hsound => (initialElems_fit hsound 0).tuple
  | .struct name fields, hsound => by
    obtain ⟨hnames, hfields⟩ := Bool.and_eq_true_iff.mp hsound
    exact (initialFields_fit hfields).struct (of_decide_eq_true hnames)
  | .union _ ctors, hsound => by
    cases ctors with
    | nil => cases hsound
    | cons ctor rest => rfl
  | .packedBits width order, _ => by simp only [Fits, initial, conform, lowBits, Nat.zero_mod]
  | .machInt, _ => rfl
  | .bigInt, _ => rfl
  | .wideBits _, _ => rfl
  | .unit, _ => rfl
  | .bool, _ => rfl
  | .string, _ => rfl
  | .enum _ _, _ => rfl
  | .ref _, _ => rfl

theorem initialElems_fit : ∀ {elems : List Rep}, allSound elems = true → ∀ index : Nat,
    FieldsFit (numbered index elems) (initialElems index elems)
  | [], _, _ => .nil
  | rep :: rest, hsound, index => by
    obtain ⟨hrep, hrest⟩ := Bool.and_eq_true_iff.mp hsound
    exact .cons (initial_fits hrep) (initialElems_fit hrest (index + 1))

theorem initialFields_fit : ∀ {fields : List (String × Rep)}, fieldsSound fields = true →
    FieldsFit fields (initialFields fields)
  | [], _ => .nil
  | (name, rep) :: rest, hsound => by
    obtain ⟨hrep, hrest⟩ := Bool.and_eq_true_iff.mp hsound
    exact .cons (initial_fits hrep) (initialFields_fit hrest)

end

/-! ## Records -/

section Records

variable {rep part : Rep} {values : List (String × Value)} {key : String} {value : Value}

theorem Fits.eq_record (h : rep.Fits value) (hpart : rep.fields.lookup key = some part) :
    ∃ values, value = .record values := by
  cases rep with
  | struct _ _ | tuple _ =>
    cases value with
    | record values => exact ⟨values, rfl⟩
    | _ => cases h
  | _ => cases hpart

theorem Fits.fieldsFit (hdistinct : rep.isDistinct = true) (h : rep.Fits (.record values)) :
    FieldsFit rep.fields values := by
  cases rep with
  | struct name fields =>
    rw [Fits, conform] at h
    obtain ⟨result, hresult, h⟩ := except_bind_eq_ok.mp h
    cases h
    exact fieldsFit_of_conform (fields_fit (Bool.and_eq_true_iff.mp hdistinct).2) hresult
  | tuple elems =>
    rw [Fits, conform, conformElems_eq] at h
    obtain ⟨result, hresult, h⟩ := except_bind_eq_ok.mp h
    cases h
    exact fieldsFit_of_conform (elems_fit hdistinct 0) hresult
  | _ => cases h

theorem FieldsFit.fits (h : FieldsFit rep.fields values) (hdistinct : rep.isDistinct = true)
    (hpart : rep.fields.lookup key = some part) : rep.Fits (.record values) := by
  cases rep with
  | struct name fields =>
    exact FieldsFit.struct h (of_decide_eq_true (Bool.and_eq_true_iff.mp hdistinct).1)
  | tuple elems => exact FieldsFit.tuple h
  | _ => cases hpart

theorem isDistinct_of_lookup (hdistinct : rep.isDistinct = true)
    (hpart : rep.fields.lookup key = some part) : part.isDistinct = true := by
  have hfields : ∀ fields : List (String × Rep), fieldsDistinct fields = true →
      fields.lookup key = some part → part.isDistinct = true := by
    intro fields
    induction fields with
    | nil => exact fun _ h => by cases h
    | cons field rest ih =>
      intro h hlookup
      obtain ⟨hfirst, hrest⟩ := Bool.and_eq_true_iff.mp h
      rw [NameTable.lookup_cons_entry] at hlookup
      split at hlookup
      · cases hlookup
        exact hfirst
      · exact ih hrest hlookup
  have hnumbered : ∀ (elems : List Rep) (index : Nat), allDistinct elems = true →
      fieldsDistinct (numbered index elems) = true := by
    intro elems
    induction elems with
    | nil => exact fun _ _ => rfl
    | cons elem rest ih =>
      intro index h
      obtain ⟨hfirst, hrest⟩ := Bool.and_eq_true_iff.mp h
      exact Bool.and_eq_true_iff.mpr ⟨hfirst, ih (index + 1) hrest⟩
  cases rep with
  | struct name fields => exact hfields fields (Bool.and_eq_true_iff.mp hdistinct).2 hpart
  | tuple elems => exact hfields _ (hnumbered elems 0 hdistinct) hpart
  | _ => cases hpart

theorem FieldsFit.lookup {fields : List (String × Rep)} (h : FieldsFit fields values)
    (hpart : fields.lookup key = some part) :
    ∃ value, values.lookup key = some value ∧ part.Fits value := by
  induction h with
  | nil => cases hpart
  | @cons name rep value fields values hfits _ ih =>
    rw [NameTable.lookup_cons_entry] at hpart ⊢
    by_cases hname : key = name
    · rw [if_pos hname] at hpart ⊢
      cases hpart
      exact ⟨value, rfl, hfits⟩
    · rw [if_neg hname] at hpart ⊢
      exact ih hpart

theorem FieldsFit.replace {fields : List (String × Rep)} (h : FieldsFit fields values)
    (hpart : fields.lookup key = some part) (hvalue : part.Fits value) :
    FieldsFit fields (Value.replaceEntry key value values) := by
  induction h with
  | nil => exact .nil
  | @cons name rep old fields values hfits hrest ih =>
    rw [NameTable.lookup_cons_entry] at hpart
    by_cases hname : key = name
    · rw [if_pos hname] at hpart
      cases hpart
      simp only [Value.replaceEntry, if_pos hname.symm]
      exact .cons hvalue hrest
    · rw [if_neg hname] at hpart
      simp only [Value.replaceEntry, if_neg (Ne.symm hname)]
      exact .cons hfits (ih hpart)

end Records

end Rep

end IsaBackend
