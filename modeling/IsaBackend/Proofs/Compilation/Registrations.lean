import IsaBackend.Compilation
import IsaBackend.Proofs.Effects
import Mathlib.Data.List.Find
import Mathlib.Data.List.Induction

/-!
# Layouts and their registrations

A table of layouts is what a sequence of registrations makes of the empty one. Each kind of named
types has its own table, and a registration of one kind leaves the tables of the others alone. A
name that is only ever registered under one kind is therefore found as it was registered last. A
name that is registered under several kinds is found as its last struct, else as its last
enumeration, whichever of them came last.
-/

namespace IsaBackend

inductive Registration where
  | struct (name : String) (fields : List (String × Rep))
  | enum (name : String) (members : List String)
  | union (name : String) (ctors : List (String × Rep))

namespace Registration

inductive Kind where
  | struct
  | enum
  | union
  deriving DecidableEq

def name : Registration → String
  | struct name _ => name
  | enum name _ => name
  | union name _ => name

def kind : Registration → Kind
  | struct _ _ => .struct
  | enum _ _ => .enum
  | union _ _ => .union

def rep : Registration → Rep
  | struct name fields => .struct name fields
  | enum name members => .enum name members
  | union name ctors => .union name ctors

def enter (layouts : Layouts) : Registration → Layouts
  | struct name fields => layouts.addStruct name fields
  | enum name members => layouts.addEnum name members
  | union name ctors => layouts.addUnion name ctors

/-- The most recent registration of a name. -/
def latest? (registrations : List Registration) (name : String) : Option Registration :=
  registrations.reverse.find? fun registration => registration.name = name

/-- The most recent registration of a name under one kind. -/
def latestOf? (registrations : List Registration) (name : String) (kind : Kind) :
    Option Registration :=
  registrations.reverse.find? fun registration =>
    registration.name = name ∧ registration.kind = kind

/-- All registrations of a name are of one kind. -/
def OneKind (registrations : List Registration) (name : String) : Prop :=
  ∃ kind, ∀ registration ∈ registrations, registration.name = name → registration.kind = kind

end Registration

inductive Definition.Registers (around : Surroundings) : Definition → Registration → Prop where
  | struct {name : String} {fields : List (String × Ty)} {reps : List (String × Rep)}
    (h : Function.partReps around .generated fields = .ok reps) :
    Registers around (.struct name fields) (.struct name reps)
  | enum (name : String) (members : List String) :
    Registers around (.enum name members) (.enum name members)
  | union {name : String} {ctors : List (String × Ty)} {reps : List (String × Rep)}
    (h : Function.partReps around .generated ctors = .ok reps) :
    Registers around (.union name ctors) (.union name reps)

namespace Layouts

open Registration

/-- The layouts after some registrations. -/
def ofRegistrations (registrations : List Registration) : Layouts :=
  registrations.foldl enter {}

private theorem ofRegistrations_concat (registrations : List Registration) (last : Registration) :
    ofRegistrations (registrations ++ [last]) = last.enter (ofRegistrations registrations) := by
  rw [ofRegistrations, List.foldl_append]
  rfl

def at? (layouts : Layouts) (name : String) : Kind → Option Rep
  | .struct => (layouts.structs.get? name).map (.struct name)
  | .enum => (layouts.enums.get? name).map (.enum name)
  | .union => (layouts.unions.get? name).map (.union name)

private theorem lookup?_eq_at? (layouts : Layouts) (name : String) : layouts.lookup? name =
    ((layouts.at? name .struct).or (layouts.at? name .enum)).or (layouts.at? name .union) := by
  unfold lookup? at?
  cases layouts.structs.get? name with
  | some fields => rfl
  | none => cases layouts.enums.get? name <;> rfl

private theorem contains_eq_isSome_lookup? (layouts : Layouts) (name : String) :
    layouts.contains name = (layouts.lookup? name).isSome := by
  simp [lookup?_eq_at?, at?, contains, NameTable.contains]

private theorem at?_enter (layouts : Layouts) (registration : Registration) (name : String)
    (kind : Kind) : (registration.enter layouts).at? name kind =
      if registration.name = name ∧ registration.kind = kind then some registration.rep
      else layouts.at? name kind := by
  by_cases h : registration.name = name
  · subst h
    cases registration <;> cases kind <;>
      simp [enter, at?, addStruct, addEnum, addUnion, Registration.name, Registration.kind, rep]
  · have hne := Ne.symm h
    cases registration <;> cases kind <;>
      simp_all [enter, at?, addStruct, addEnum, addUnion, Registration.name]

/-- Each table holds what was last registered under its kind. -/
theorem at?_ofRegistrations (registrations : List Registration) (name : String) (kind : Kind) :
    (ofRegistrations registrations).at? name kind =
      (latestOf? registrations name kind).map rep := by
  induction registrations using List.reverseRecOn with
  | nil => cases kind <;> rfl
  | append_singleton registrations last ih =>
    rw [ofRegistrations_concat, at?_enter, ih, latestOf?, latestOf?, List.reverse_concat,
      List.find?_cons]
    by_cases h : last.name = name ∧ last.kind = kind <;> simp [h]

private theorem lookup?_ofRegistrations (registrations : List Registration) (name : String) :
    (ofRegistrations registrations).lookup? name =
      (((latestOf? registrations name .struct).or (latestOf? registrations name .enum)).or
        (latestOf? registrations name .union)).map rep := by
  simp only [lookup?_eq_at?, at?_ofRegistrations, Option.map_or]

private theorem contains_ofRegistrations (registrations : List Registration) (name : String) :
    (ofRegistrations registrations).contains name = true ↔
      ∃ registration ∈ registrations, registration.name = name := by
  rw [contains_eq_isSome_lookup?, lookup?_ofRegistrations]
  simp only [latestOf?, Option.isSome_or, Option.isSome_map, Bool.or_eq_true,
    List.find?_isSome, List.mem_reverse, decide_eq_true_eq]
  constructor
  · rintro ((⟨registration, hmem, hname, _⟩ | ⟨registration, hmem, hname, _⟩) |
      ⟨registration, hmem, hname, _⟩) <;> exact ⟨registration, hmem, hname⟩
  · rintro ⟨registration, hmem, hname⟩
    cases hkind : registration.kind with
    | struct => exact .inl (.inl ⟨registration, hmem, hname, hkind⟩)
    | enum => exact .inl (.inr ⟨registration, hmem, hname, hkind⟩)
    | union => exact .inr ⟨registration, hmem, hname, hkind⟩

section OneKind

variable {registrations : List Registration} {name : String} {kind : Kind}
  (h : ∀ registration ∈ registrations, registration.name = name → registration.kind = kind)
include h

private theorem at?_eq_none {other : Kind} (hne : other ≠ kind) :
    (ofRegistrations registrations).at? name other = none := by
  rw [at?_ofRegistrations, Option.map_eq_none_iff, latestOf?, List.find?_eq_none]
  rintro registration hmem hfound
  obtain ⟨hname, hkind⟩ := of_decide_eq_true hfound
  exact hne (hkind.symm.trans (h registration (List.mem_reverse.mp hmem) hname))

private theorem lookup?_eq_at?_kind : (ofRegistrations registrations).lookup? name =
    (ofRegistrations registrations).at? name kind := by
  rw [lookup?_eq_at?]
  cases kind with
  | struct => simp [at?_eq_none h]
  | enum => simp [at?_eq_none h]
  | union => simp [at?_eq_none h]

private theorem lookup?_eq_latest? : (ofRegistrations registrations).lookup? name =
    (latest? registrations name).map rep := by
  rw [lookup?_eq_at?_kind h, at?_ofRegistrations, latest?, latestOf?]
  congr 1
  refine List.find?_congr fun registration hmem => ?_
  have hkind := h registration (List.mem_reverse.mp hmem)
  exact decide_eq_decide.mpr ⟨And.left, fun hname => ⟨hname, hkind hname⟩⟩

end OneKind

private theorem ctor?_eq_some {layouts : Layouts} {ctor : String} {union payload : Rep}
    (h : layouts.ctor? ctor = some (union, payload)) : ∃ owner ctors,
      union = .union owner ctors ∧ layouts.at? owner .union = some union ∧
        ctors.lookup ctor = some payload := by
  obtain ⟨owner, _, h⟩ := Option.bind_eq_some_iff.mp h
  obtain ⟨ctors, hctors, h⟩ := Option.bind_eq_some_iff.mp h
  obtain ⟨found, hfound, h⟩ := Option.bind_eq_some_iff.mp h
  cases h
  exact ⟨owner, ctors, rfl, by simp [at?, hctors], hfound⟩

end Layouts

/-- A definition of a named type enters what it registers and reports what is then found. -/
theorem Definition.Registers.compile {interface : Interface} {definition : Definition}
    {progress : Progress} {registration : Registration} {found : Rep}
    (h : definition.Registers ⟨progress.layouts, interface⟩ registration)
    (hfound : (registration.enter progress.layouts).lookup? registration.name = some found)
    (options : CompileOptions) : definition.compile options interface progress =
      .ok (.layout found) { progress with layouts := registration.enter progress.layouts } := by
  have henrol : ∀ layouts : Layouts, layouts.lookup? registration.name = some found →
      enrol layouts registration.name progress = .ok (.layout found) { progress with layouts } := by
    intro layouts hlookup
    change lift (registered layouts registration.name) { progress with layouts } = _
    rw [registered, hlookup]
    rfl
  cases h with
  | struct hreps =>
    exact (bind_of_ok rfl).trans
      ((bind_of_ok (lift_eq_ok.mpr ⟨hreps, rfl⟩)).trans (henrol _ hfound))
  | enum name members => exact (bind_of_ok rfl).trans (henrol _ hfound)
  | union hreps =>
    exact (bind_of_ok rfl).trans
      ((bind_of_ok (lift_eq_ok.mpr ⟨hreps, rfl⟩)).trans (henrol _ hfound))

namespace Registration

/-- A name is found as its last struct, else its last enumeration, else its last union, and counts
as declared exactly if it was registered. A constructor leads to the last union of its owner's name.
As long as a name is registered under one kind only, it is found as it was registered last, so that
a definition reports its own layout and a constructor's union is the one found under its name. -/
theorem layouts_reflect_registrations (registrations : List Registration) :
    (∀ name, (Layouts.ofRegistrations registrations).lookup? name =
      (((latestOf? registrations name .struct).or (latestOf? registrations name .enum)).or
        (latestOf? registrations name .union)).map rep) ∧
    (∀ name, OneKind registrations name →
      (Layouts.ofRegistrations registrations).lookup? name =
        (latest? registrations name).map rep) ∧
    (∀ name, (Layouts.ofRegistrations registrations).contains name = true ↔
      ∃ registration ∈ registrations, registration.name = name) ∧
    (∀ ctor union payload,
      (Layouts.ofRegistrations registrations).ctor? ctor = some (union, payload) →
      ∃ owner ctors, union = .union owner ctors ∧ ctors.lookup ctor = some payload ∧
        (latestOf? registrations owner .union).map rep = some union ∧
        (OneKind registrations owner →
          (Layouts.ofRegistrations registrations).lookup? owner = some union)) ∧
    ∀ (interface : Interface) (definition : Definition) (registration : Registration),
      definition.Registers ⟨Layouts.ofRegistrations registrations, interface⟩ registration →
      OneKind (registrations ++ [registration]) registration.name → ∀ options names,
      definition.compile options interface ⟨Layouts.ofRegistrations registrations, names⟩ =
        .ok (.layout registration.rep)
          ⟨Layouts.ofRegistrations (registrations ++ [registration]), names⟩ := by
  refine ⟨Layouts.lookup?_ofRegistrations registrations, ?_,
    Layouts.contains_ofRegistrations registrations, ?_, ?_⟩
  · rintro name ⟨kind, hkind⟩
    exact Layouts.lookup?_eq_latest? hkind
  · intro ctor union payload h
    obtain ⟨owner, ctors, hunion, hat, hpayload⟩ := Layouts.ctor?_eq_some h
    refine ⟨owner, ctors, hunion, hpayload, Layouts.at?_ofRegistrations .. ▸ hat, ?_⟩
    rintro ⟨kind, hkind⟩
    rw [Layouts.lookup?_eq_at?_kind hkind]
    by_cases hown : Kind.union = kind
    · exact hown ▸ hat
    · rw [Layouts.at?_eq_none hkind hown] at hat
      cases hat
  · rintro interface definition registration h ⟨kind, hkind⟩ options names
    have hlatest : latest? (registrations ++ [registration]) registration.name =
        some registration := by simp [latest?]
    have hfound := Layouts.lookup?_eq_latest? hkind
    rw [hlatest] at hfound
    rw [Layouts.ofRegistrations_concat] at hfound ⊢
    exact h.compile hfound options

theorem redeclared_struct_reflected :
    OneKind [.struct "s" [("f", .bool)], .union "u" [("K", .bigInt)], .struct "s" []] "s" ∧
      (Layouts.ofRegistrations [.struct "s" [("f", .bool)], .union "u" [("K", .bigInt)],
        .struct "s" []]).lookup? "s" = some (.struct "s" []) := by
  have hkind : OneKind [.struct "s" [("f", .bool)], .union "u" [("K", .bigInt)], .struct "s" []]
      "s" := ⟨.struct, by simp [name, kind]⟩
  exact ⟨hkind, (layouts_reflect_registrations _).2.1 "s" hkind⟩

/-- An enumeration that takes the name of a struct is not found. The constructor of a union that
lost its name to a struct still leads to the union. -/
theorem later_kinds_unreflected :
    (Layouts.ofRegistrations [.struct "s" [], .enum "s" ["A"]]).lookup? "s" =
      some (.struct "s" []) ∧
    (Layouts.ofRegistrations [.union "u" [("K", .bigInt)], .struct "u" []]).ctor? "K" =
      some (.union "u" [("K", .bigInt)], .bigInt) ∧
    (Layouts.ofRegistrations [.union "u" [("K", .bigInt)], .struct "u" []]).lookup? "u" =
      some (.struct "u" []) :=
  ⟨rfl, rfl, rfl⟩

end Registration

end IsaBackend
