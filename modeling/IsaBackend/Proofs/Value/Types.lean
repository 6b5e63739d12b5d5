import IsaBackend.Proofs.Value.Bridges
import IsaBackend.Rep.OfTy

/-!
# Values of source types

A source type has values of its own, before any representation is chosen: the integers between its
bounds, the bit-vectors of its length, the tuples of values of its components. The representation
of a type holds all of them as they are, and it is a machine word exactly when that is certain from
the bounds or from the length.
-/

namespace IsaBackend

namespace Size

/-- The value of a size by its arithmetic. A size with an unknown variable has none, and neither has a
power of two whose exponent cannot be a number of bits. -/
def Denotes (decls : Declarations) : Size → Int → Prop
  | const number, value => number = value
  | var name, value => decls.sizes.get? name = some value
  | add left right, value => ∃ a b, left.Denotes decls a ∧ right.Denotes decls b ∧ a + b = value
  | sub left right, value => ∃ a b, left.Denotes decls a ∧ right.Denotes decls b ∧ a - b = value
  | mul left right, value => ∃ a b, left.Denotes decls a ∧ right.Denotes decls b ∧ a * b = value
  | neg operand, value => ∃ a, operand.Denotes decls a ∧ -a = value
  | pow2 exponent, value =>
    ∃ count : Nat, exponent.Denotes decls count ∧ count < 2 ^ 32 ∧ 2 ^ count = value

private theorem pow2?_eq_some {exponent value : Int} :
    pow2? exponent = some value ↔
      ∃ count : Nat, exponent = count ∧ count < 2 ^ 32 ∧ 2 ^ count = value := by
  have hpower (count : Nat) : ((1 <<< count : Nat) : Int) = 2 ^ count := by
    rw [Nat.one_shiftLeft, Int.natCast_pow]
    rfl
  unfold pow2?
  split
  · rename_i hfits
    obtain ⟨count, rfl⟩ : ∃ count : Nat, exponent = count := by
      simp only [fitsCount, Bool.and_eq_true, decide_eq_true_eq] at hfits
      exact ⟨exponent.toNat, by omega⟩
    rw [Int.toNat_natCast, hpower, Option.some.injEq]
    constructor
    · rintro rfl
      exact ⟨count, rfl, (fitsCount_iff count).mp hfits, rfl⟩
    · rintro ⟨other, hother, _, rfl⟩
      rw [Int.natCast_inj.mp hother]
  · rename_i hfits
    constructor
    · rintro ⟨⟩
    · rintro ⟨count, rfl, hlt, _⟩
      exact absurd ((fitsCount_iff count).mpr hlt) hfits

private theorem size_eq_some_iff (decls : Declarations) (size : Size) (value : Int) :
    decls.interface.size size = some value ↔ size.Denotes decls value := by
  change size.eval decls.sizes.get? = some value ↔ _
  induction size generalizing value with
  | const number => simp [eval, Denotes]
  | var name => rfl
  | add left right ihl ihr | sub left right ihl ihr | mul left right ihl ihr =>
    simp [eval, Denotes, Option.bind_eq_some_iff, ihl, ihr]
  | neg operand ih => simp [eval, Denotes, Option.bind_eq_some_iff, ih]
  | pow2 exponent ih =>
    simp only [eval, Denotes, Option.bind_eq_bind, Option.bind_eq_some_iff, ih, pow2?_eq_some]
    constructor
    · rintro ⟨_, hcount, count, rfl, hlt, hvalue⟩
      exact ⟨count, hcount, hlt, hvalue⟩
    · rintro ⟨count, hcount, hlt, hvalue⟩
      exact ⟨count, hcount, count, rfl, hlt, hvalue⟩

end Size

mutual

/-- The value is one of the type. A bound or a length that cannot be told allows anything. Fields
of structs are given by their representations. -/
inductive Value.HasTy (layouts : Layouts) (decls : Declarations) : Value → Ty → Prop where
  | unit : HasTy layouts decls .unit .unit
  | bit {number : Nat} : number < 2 → HasTy layouts decls (.bits number 1) .bit
  | bool (truth : Bool) : HasTy layouts decls (.bool truth) .bool
  | string (text : String) : HasTy layouts decls (.text text) .string
  | int (number : Int) : HasTy layouts decls (.int number) .int
  | range {lo hi : Size} {number : Int} : (∀ bound, lo.Denotes decls bound → bound ≤ number) →
      (∀ bound, hi.Denotes decls bound → number ≤ bound) →
      HasTy layouts decls (.int number) (.range lo hi)
  | atom {size : Size} {number : Int} : (∀ value, size.Denotes decls value → number = value) →
      HasTy layouts decls (.int number) (.atom size)
  | bits {length : Size} {order : Direction} {number width : Nat} :
      (∀ value, length.Denotes decls value → width = value) → number < 2 ^ width →
      HasTy layouts decls (.bits number width) (.bits length order)
  | tuple {elems : List Ty} {values : List (String × Value)} :
      Value.HaveTys layouts decls 0 values elems → HasTy layouts decls (.record values) (.tuple elems)
  | struct {name : String} {fields : List (String × Rep)} {values : List (String × Value)} :
      layouts.lookup? name = some (.struct name fields) → (values.map Prod.fst).Nodup →
      Rep.FieldsFit fields values → HasTy layouts decls (.record values) (.named name)
  | enum {name member : String} {members : List String} :
      layouts.lookup? name = some (.enum name members) → member ∈ members →
      HasTy layouts decls (.member member) (.named name)
  | union {name ctor : String} {ctors : List (String × Rep)} {rep : Rep} {payload : Value} :
      layouts.lookup? name = some (.union name ctors) → ctors.lookup ctor = some rep →
      rep.Fits payload → HasTy layouts decls (.variant ctor payload) (.named name)
  | ref (register : String) (inner : Ty) : HasTy layouts decls (.ref register) (.ref inner)

inductive Value.HaveTys (layouts : Layouts) (decls : Declarations) :
    Nat → List (String × Value) → List Ty → Prop where
  | nil (index : Nat) : HaveTys layouts decls index [] []
  | cons {index : Nat} {value : Value} {ty : Ty} {values : List (String × Value)} {tys : List Ty} :
      Value.HasTy layouts decls value ty → HaveTys layouts decls (index + 1) values tys →
      HaveTys layouts decls index ((Rep.tupleField index, value) :: values) (ty :: tys)

end

namespace Ty

/-- The bounds of an integer type. -/
def bounds? : Ty → Option (Size × Size)
  | range lo hi => some (lo, hi)
  | atom value => some (value, value)
  | _ => none

/-- The length and the order of a bit-vector type. -/
def length? : Ty → Option (Size × Direction)
  | bit => some (.const 1, .dec)
  | bits length order => some (length, order)
  | _ => none

end Ty

namespace Rep

variable {layouts : Layouts} {decls : Declarations} {pos : Position}

/-! ## The choice of a representation -/

private theorem ofBounds_eq_machInt {lo hi : Size} : ofBounds decls.interface lo hi = machInt ↔
    ∃ least greatest, lo.Denotes decls least ∧ hi.Denotes decls greatest ∧
      fitsWord least = true ∧ fitsWord greatest = true := by
  simp only [← Size.size_eq_some_iff]
  unfold ofBounds
  split
  · rename_i least greatest hlo hhi
    split <;> simp_all
  · rename_i hunknown
    simp only [reduceCtorEq, false_iff]
    rintro ⟨least, greatest, hlo, hhi, _⟩
    exact hunknown least greatest hlo hhi

private theorem ofBounds_eq_or (interface : Interface) (lo hi : Size) :
    ofBounds interface lo hi = machInt ∨ ofBounds interface lo hi = bigInt := by
  unfold ofBounds
  split
  · split <;> simp
  · exact .inr rfl

private theorem ofLength_eq_packedBits {length : Size} {order order' : Direction} {width : Nat} :
    ofLength decls.interface length order = packedBits width order' ↔
      order = order' ∧ length.Denotes decls width ∧ width ≤ 64 := by
  have hmax : maxPackedWidth = 64 := rfl
  rw [← Size.size_eq_some_iff]
  unfold ofLength
  split
  · rename_i value hvalue
    split
    · rename_i hpacked
      simp only [Bool.and_eq_true, decide_eq_true_eq] at hpacked
      rw [hvalue, packedBits.injEq, Option.some.injEq]
      constructor
      · rintro ⟨rfl, rfl⟩
        exact ⟨rfl, by omega, by omega⟩
      · rintro ⟨rfl, rfl, _⟩
        exact ⟨Int.toNat_natCast width, rfl⟩
    · rename_i hwide
      simp only [Bool.and_eq_true, decide_eq_true_eq] at hwide
      simp only [reduceCtorEq, false_iff, hvalue, Option.some.injEq]
      rintro ⟨_, rfl, hle⟩
      omega
  · rename_i hunknown
    simp [hunknown]

private theorem ofLength_eq_or (interface : Interface) (length : Size) (order : Direction) :
    (∃ width, ofLength interface length order = packedBits width order) ∨
      ofLength interface length order = wideBits order := by
  unfold ofLength
  split
  · split
    · exact .inl ⟨_, rfl⟩
    · exact .inr rfl
  · exact .inr rfl

/-! ## Every value is held -/

private theorem FieldsFit.names_eq {fields : List (String × Rep)} {values : List (String × Value)}
    (h : FieldsFit fields values) : fields.map Prod.fst = values.map Prod.fst := by
  induction h with
  | nil => rfl
  | cons _ _ ih => simp [ih]

private theorem ofBounds_fits {lo hi : Size} {number : Int}
    (hlo : ∀ bound, lo.Denotes decls bound → bound ≤ number)
    (hhi : ∀ bound, hi.Denotes decls bound → number ≤ bound) :
    (ofBounds decls.interface lo hi).Fits (.int number) := by
  rcases ofBounds_eq_or decls.interface lo hi with h | h
  · obtain ⟨least, greatest, hleast, hgreatest, hfirst, hlast⟩ := ofBounds_eq_machInt.mp h
    have hle := hlo least hleast
    have hge := hhi greatest hgreatest
    rw [fitsWord_iff] at hfirst hlast
    rw [h]
    exact fits_machInt.mpr ⟨number, rfl, (fitsWord_iff number).mpr ⟨by omega, by omega⟩⟩
  · rw [h]
    rfl

private theorem ofLength_fits {length : Size} {order : Direction} {number width : Nat}
    (hlength : ∀ value, length.Denotes decls value → width = value) (hnumber : number < 2 ^ width) :
    (ofLength decls.interface length order).Fits (.bits number width) := by
  rcases ofLength_eq_or decls.interface length order with ⟨packed, h⟩ | h
  · obtain ⟨_, hpacked, _⟩ := ofLength_eq_packedBits.mp h
    obtain rfl : width = packed := Int.natCast_inj.mp (hlength packed hpacked)
    rw [h]
    exact fits_packedBits.mpr ⟨number, rfl, hnumber⟩
  · rw [h]
    rfl

private theorem lookup_fits {name : String} {rep : Rep} {value : Value}
    (hlookup : layouts.lookup? name = some rep) (h : value.HasTy layouts decls (.named name)) :
    rep.Fits value := by
  cases h with
  | struct hstruct hnames hfields =>
    obtain rfl := Option.some.inj (hlookup.symm.trans hstruct)
    exact hfields.struct (hfields.names_eq ▸ hnames)
  | enum henum _ =>
    obtain rfl := Option.some.inj (hlookup.symm.trans henum)
    rfl
  | union hunion _ _ =>
    obtain rfl := Option.some.inj (hlookup.symm.trans hunion)
    rfl

mutual

/-- The representation of a type holds every value of the type as it is. -/
theorem ofTy_fits : ∀ {ty : Ty} {rep : Rep} {value : Value},
    ofTy ⟨layouts, decls.interface⟩ pos ty = .ok rep → value.HasTy layouts decls ty → rep.Fits value
  | .unit, _, _, h, .unit => by
    cases h
    rfl
  | .bit, _, _, h, .bit hlt => by
    cases h
    exact fits_packedBits.mpr ⟨_, rfl, hlt⟩
  | .bool, _, _, h, .bool _ | .string, _, _, h, .string _ | .int, _, _, h, .int _ => by
    cases h
    rfl
  | .range _ _, _, _, h, .range hlo hhi => by
    cases h
    exact ofBounds_fits hlo hhi
  | .atom _, _, _, h, .atom hvalue => by
    cases h
    exact ofBounds_fits (fun bound hbound => Int.le_of_eq (hvalue bound hbound).symm)
      fun bound hbound => Int.le_of_eq (hvalue bound hbound)
  | .bits _ _, _, _, h, .bits hlength hnumber => by
    cases h
    exact ofLength_fits hlength hnumber
  | .tuple _, _, _, h, .tuple hvalues => by
    obtain ⟨reps, hreps, h⟩ := except_bind_eq_ok.mp h
    cases h
    exact (ofTys_fit hreps hvalues).tuple
  | .named name, _, _, h, hvalue => by
    unfold ofTy at h
    split at h
    · cases h
      exact lookup_fits ‹_› hvalue
    · cases h
  | .ref _, _, _, h, .ref _ _ => by
    obtain ⟨rep, _, h⟩ := except_bind_eq_ok.mp h
    cases h
    rfl

theorem ofTys_fit : ∀ {tys : List Ty} {reps : List Rep} {values : List (String × Value)} {index : Nat},
    ofTys ⟨layouts, decls.interface⟩ pos tys = .ok reps →
      Value.HaveTys layouts decls index values tys → FieldsFit (numbered index reps) values
  | [], _, _, _, h, .nil _ => by
    cases h
    exact .nil
  | _ :: _, _, _, _, h, .cons hvalue hvalues => by
    obtain ⟨rep, hrep, h⟩ := except_bind_eq_ok.mp h
    obtain ⟨reps, hreps, h⟩ := except_bind_eq_ok.mp h
    cases h
    exact .cons (ofTy_fits hrep hvalue) (ofTys_fit hreps hvalues)

end

private theorem lookup?_cases {name : String} {rep : Rep} (h : layouts.lookup? name = some rep) :
    (∃ fields, rep = struct name fields) ∨ (∃ members, rep = enum name members) ∨
      ∃ ctors, rep = union name ctors := by
  unfold Layouts.lookup? at h
  split at h
  · exact .inl ⟨_, (Option.some.inj h).symm⟩
  · split at h
    · exact .inr (.inl ⟨_, (Option.some.inj h).symm⟩)
    · obtain ⟨ctors, _, rfl⟩ := Option.map_eq_some_iff.mp h
      exact .inr (.inr ⟨ctors, rfl⟩)

/-- Only integers with bounds and bit-vectors with a length may be machine words. -/
theorem ofTy_cases {ty : Ty} {rep : Rep} (h : ofTy ⟨layouts, decls.interface⟩ pos ty = .ok rep) :
    (∃ lo hi, ty.bounds? = some (lo, hi) ∧ ty.length? = none ∧
        rep = ofBounds decls.interface lo hi) ∨
      (∃ length order, ty.bounds? = none ∧ ty.length? = some (length, order) ∧
        rep = ofLength decls.interface length order) ∨
      (ty.bounds? = none ∧ ty.length? = none ∧ rep ≠ machInt ∧
        ∀ width order, rep ≠ packedBits width order) := by
  cases ty with
  | range lo hi => exact .inl ⟨lo, hi, rfl, rfl, (Except.ok.inj h).symm⟩
  | atom value => exact .inl ⟨value, value, rfl, rfl, (Except.ok.inj h).symm⟩
  | bits length order => exact .inr (.inl ⟨length, order, rfl, rfl, (Except.ok.inj h).symm⟩)
  | bit => exact .inr (.inl ⟨.const 1, .dec, rfl, rfl, (Except.ok.inj h).symm⟩)
  | unit | bool | string | int =>
    cases h
    exact .inr (.inr ⟨rfl, rfl, nofun, nofun⟩)
  | tuple elems | ref inner =>
    obtain ⟨parts, _, h⟩ := except_bind_eq_ok.mp h
    cases h
    exact .inr (.inr ⟨rfl, rfl, nofun, nofun⟩)
  | named name =>
    unfold ofTy at h
    split at h
    · rename_i hlookup
      cases h
      rcases lookup?_cases hlookup with ⟨_, rfl⟩ | ⟨_, rfl⟩ | ⟨_, rfl⟩ <;>
        exact .inr (.inr ⟨rfl, rfl, nofun, nofun⟩)
    · cases h
  | vector _ _ _ | list _ | abbreviation _ | bitfield _ => cases h

/-- The representation of a type holds every value of the type as it is. It is a machine integer
exactly for integers with known bounds in the range of a signed word, and packed bits exactly for
bit-vectors of a known length of at most 64. -/
theorem ofTy_holds_values {ty : Ty} {rep : Rep}
    (h : ofTy ⟨layouts, decls.interface⟩ pos ty = .ok rep) :
    (∀ value, value.HasTy layouts decls ty → rep.conform value = .ok value) ∧
      (rep = machInt ↔ ∃ lo hi least greatest, ty.bounds? = some (lo, hi) ∧
        lo.Denotes decls least ∧ hi.Denotes decls greatest ∧
        (-2 ^ 63 ≤ least ∧ least < 2 ^ 63) ∧ -2 ^ 63 ≤ greatest ∧ greatest < 2 ^ 63) ∧
      ∀ (width : Nat) (order : Direction), rep = packedBits width order ↔
        ∃ length, ty.length? = some (length, order) ∧ length.Denotes decls width ∧ width ≤ 64 := by
  refine ⟨fun value => ofTy_fits h, ?_⟩
  simp only [← fitsWord_iff]
  rcases ofTy_cases h with ⟨lo, hi, hbounds, hlength, rfl⟩ | ⟨length, order, hbounds, hlength, rfl⟩ |
    ⟨hbounds, hlength, hint, hbits⟩
  · refine ⟨?_, fun width order => ?_⟩
    · rw [ofBounds_eq_machInt, hbounds]
      constructor
      · rintro ⟨least, greatest, hvalues⟩
        exact ⟨lo, hi, least, greatest, rfl, hvalues⟩
      · rintro ⟨_, _, least, greatest, ⟨⟩, hvalues⟩
        exact ⟨least, greatest, hvalues⟩
    · rcases ofBounds_eq_or decls.interface lo hi with heq | heq <;> simp [heq, hlength]
  · refine ⟨?_, fun width order' => ?_⟩
    · rcases ofLength_eq_or decls.interface length order with ⟨width, heq⟩ | heq <;>
        simp [heq, hbounds]
    · rw [ofLength_eq_packedBits, hlength]
      constructor
      · rintro ⟨rfl, hwidth⟩
        exact ⟨length, rfl, hwidth⟩
      · rintro ⟨_, ⟨⟩, hwidth⟩
        exact ⟨rfl, hwidth⟩
  · exact ⟨by simp [hint, hbounds], fun width order => by simp [hbits, hlength]⟩

/-- Integers down to the least machine word, paired with bit-vectors of a length with a name. -/
def extremes : Ty := .tuple [.range (.neg (.pow2 (.const 63))) (.const 0), .bits (.var "xlen") .dec]

def wordLength : Declarations := Declarations.addSize {} "xlen" 64

/-- The least integer and the greatest bit-vector of such a pair are held as they are. -/
theorem extremes_hold_values :
    ofTy ⟨{}, wordLength.interface⟩ .generated extremes =
        .ok (tuple [machInt, packedBits 64 .dec]) ∧
      (Value.record [("tup0", .int (-2 ^ 63)), ("tup1", .bits (2 ^ 64 - 1) 64)]).HasTy {} wordLength
        extremes ∧
      (tuple [machInt, packedBits 64 .dec]).conform
          (.record [("tup0", .int (-2 ^ 63)), ("tup1", .bits (2 ^ 64 - 1) 64)]) =
        .ok (.record [("tup0", .int (-2 ^ 63)), ("tup1", .bits (2 ^ 64 - 1) 64)]) := by
  have hrep : ofTy ⟨{}, wordLength.interface⟩ .generated extremes =
      .ok (tuple [machInt, packedBits 64 .dec]) := rfl
  have hvalue : (Value.record [("tup0", .int (-2 ^ 63)), ("tup1", .bits (2 ^ 64 - 1) 64)]).HasTy {}
      wordLength extremes := by
    refine .tuple (.cons (.range ?_ ?_) (.cons (.bits ?_ (by decide)) (.nil 2)))
    · rintro _ ⟨_, ⟨count, hcount, _, rfl⟩, rfl⟩
      obtain rfl : count = 63 := Int.natCast_inj.mp hcount.symm
      decide
    · rintro _ rfl
      decide
    · intro value hlength
      exact Option.some.inj hlength
  exact ⟨hrep, hvalue, (ofTy_holds_values hrep).1 _ hvalue⟩

end Rep

end IsaBackend
