import IsaBackend.Proofs.Staging.Functions

/-!
# Staged code conforms to its declarations

Two facts about every instruction in the code of a function, at any nesting. Storage is declared,
written and released as its representation asks for, except that the mask of a narrowed field can
get lost. Calls have the arguments and the result of their callees, except that a constructor that
stands alone is applied to unit whatever it takes.
-/

namespace IsaBackend

namespace Instr

/-- An instruction treats what it declares, writes and releases as the representations ask for. -/
def RespectsStorage : Instr → Prop
  | .decl rep _ => rep.isStack = true
  | .alloc rep _ => rep.isStack = false
  | .init rep _ value => rep.isStack = false ∧
    (value.rep.bridge? rep = some .promote ∨
      rep.IsParsed ∧ ∃ text, value = .inline (.text text) .string)
  | .release rep _ => rep.isStack = false
  | .assign dest value => dest.rep.isStack = true ∧ value.rep.compatible dest.rep = true
  | .copy dest value => dest.rep.isStack = false ∧ value.rep.compatible dest.rep = true
  | .convert dest value => value.rep.Crosses dest.rep
  | _ => True

/-- A conversion to a place where the mask of a narrowed field is lost. -/
def LosesMask (around : Surroundings) (sites : List Site) : Instr → Prop
  | .convert dest value => Site.Unmasks around sites value.rep dest.rep
  | _ => False

private theorem Emitted.respectsStorage {around : Surroundings} {sites : List Site} {instr : Instr}
    (h : Emitted around sites instr) :
    instr.RespectsStorage ∨ instr.LosesMask around sites := by
  cases h with
  | decl h => exact .inl h
  | alloc h => exact .inl h
  | parse h => exact .inl ⟨h.isStack, .inr ⟨h, _, rfl⟩⟩
  | promote h => exact .inl ⟨Rep.isStack_of_promote h, .inl h⟩
  | release h => exact .inl h
  | assign hdest h => exact .inl ⟨hdest, h⟩
  | copy hdest h => exact .inl ⟨hdest, h⟩
  | convert h => exact .inl h
  | unmasked h => exact .inr h
  | call | alone | branch | loop | ret | comment | leave => exact .inl trivial

end Instr

/-- What a constructor that stands alone needs: it takes unit, and is used at its own union. -/
def Site.IsNullary (around : Surroundings) : Site → Prop
  | .access _ => True
  | .ctor name ty => around.Declares name → ∃ rep, Rep.ofTy around .generated ty = .ok rep ∧
    around.callee? name = some ([.unit], rep)

private theorem Call.Alone.suits {around : Surroundings} {sites : List Site} {call : Call}
    (h : call.Alone around sites) (hsites : ∀ site ∈ sites, site.IsNullary around) :
    call.Suits around := by
  intro hdeclares
  obtain ⟨ty, rep, name, hsite, hrep, hdest⟩ := h.site
  obtain ⟨union, hunion, hcallee⟩ := hsites _ hsite hdeclares
  obtain rfl : rep = union := Except.ok.inj (hrep.symm.trans hunion)
  refine ⟨[.unit], rep, hcallee, ?_, ?_⟩
  · rw [h.args]
    exact .cons rfl .nil
  · rw [hdest]
    exact Rep.compatible_self rep

namespace Staging

variable {around : Surroundings} {name : String} {params : List (String × Rep)} {result : Rep}
  {body : Term} {state final : StagingState} {routine : Routine}

private theorem stageFunction_emits
    (h : stageFunction around name params result body state = .ok routine final) :
    Instr.EmittedAll around body.sites routine.body ∧
      Instr.Makes around body.applications routine.body :=
  ((stageFunction_yields_emitted around name params result body state).of_ok h).2

/-- Every instruction in the code of a function treats storage as the representations ask for. The
one exception is a conversion of a field that was read at a narrower type and goes to a place as wide
as the field: then no bits are dropped. -/
theorem stores_respect_storage
    (h : stageFunction around name params result body state = .ok routine final) :
    Instr.EverywhereAll
      (fun instr => instr.RespectsStorage ∨ instr.LosesMask around body.sites) routine.body :=
  (stageFunction_emits h).1.mono fun _ hemitted => hemitted.respectsStorage

/-- A struct that holds a machine word, and a function on integers of any size. -/
def wording : Surroundings where
  layouts := ({} : Layouts).addStruct "Word" [("bits", .packedBits 64 .dec)]
  interface := (({} : Declarations).addFunction "double" [.int] .int).interface

/-- `double` of a machine integer, which is promoted for the call and released after it. -/
theorem promoting_respects_storage :
    let body : Term :=
      .call "double" [.name "n" .immutableLocal (.range (.const 0) (.const 9))] .int
    ∃ routine final, stageFunction wording "twice" [("n", .machInt)] .bigInt body {} =
        .ok routine final ∧
      Instr.EverywhereAll
        (fun instr => instr.RespectsStorage ∨ instr.LosesMask wording body.sites)
        routine.body := by
  intro body
  have hstage : ∃ routine final,
      stageFunction wording "twice" [("n", .machInt)] .bigInt body {} = .ok routine final :=
    ⟨_, _, rfl⟩
  obtain ⟨routine, final, h⟩ := hstage
  exact ⟨routine, final, h, stores_respect_storage h⟩

/-- The low byte of a word that is asked for as a word. The field is converted from a word to a word,
which changes nothing and is no conversion. -/
theorem lowByte_loses_mask :
    let word : Rep := .packedBits 64 .dec
    let body : Term := .field (.name "w" .immutableLocal (.named "Word")) "bits"
      (.bits (.const 8) .dec)
    ∃ routine final,
      stageFunction wording "low" [("w", .struct "Word" [("bits", word)])] word body {} =
        .ok routine final ∧
      ¬Instr.EverywhereAll Instr.RespectsStorage routine.body := by
  refine ⟨_, _, rfl, fun hrespects => ?_⟩
  obtain ⟨_, _, _, hconvert, _⟩ := hrespects
  obtain ⟨bridge, hbridge, hne⟩ := hconvert
  cases hbridge
  exact hne rfl

/-- The code of a function calls constructors and callees with signatures as they are declared, and
every application of the body is such a call, so that one that cannot match is rejected. A
constructor that stands alone is applied to unit; that matches too if it takes unit and is used at
its own union. -/
theorem calls_match_callees
    (h : stageFunction around name params result body state = .ok routine final) :
    (∀ call ∈ Instr.callsAll routine.body,
      call.Suits around ∨ call.Alone around body.sites) ∧
    (∀ application ∈ body.applications, ∃ call ∈ Instr.callsAll routine.body,
      call.callee = application.1 ∧ call.args.length = application.2 ∧ call.Suits around) ∧
    ((∀ site ∈ body.sites, site.IsNullary around) →
      ∀ call ∈ Instr.callsAll routine.body, call.Suits around) := by
  obtain ⟨hemitted, hmakes⟩ := stageFunction_emits h
  have hcalls : ∀ call ∈ Instr.callsAll routine.body,
      call.Suits around ∨ call.Alone around body.sites := by
    intro call hcall
    cases hemitted.of_mem_calls call hcall with
    | call hsuits => exact .inl hsuits
    | alone halone => exact .inr halone
  refine ⟨hcalls, hmakes, fun hsites call hcall => ?_⟩
  exact (hcalls call hcall).elim id fun halone => halone.suits hsites

def choosing : Surroundings where
  layouts := ({} : Layouts).addUnion "Choice" [("some", .machInt), ("none", .unit)]
  interface := ({} : Declarations).interface

/-- A choice between both constructors: the integer is demoted for the one, and the other stands
alone. -/
theorem choosing_matches_callees :
    let body : Term := .cond (.name "c" .immutableLocal .bool)
      (.call "some" [.name "n" .immutableLocal .int] (.named "Choice"))
      (.atom (.name "none" .unionCtor (.named "Choice"))) (.named "Choice")
    ∃ routine final, stageFunction choosing "choose" [("c", .bool), ("n", .bigInt)]
        (.union "Choice" [("some", .machInt), ("none", .unit)]) body {} = .ok routine final ∧
      ∀ call ∈ Instr.callsAll routine.body, call.Suits choosing := by
  intro body
  have hstage : ∃ routine final, stageFunction choosing "choose" [("c", .bool), ("n", .bigInt)]
      (.union "Choice" [("some", .machInt), ("none", .unit)]) body {} = .ok routine final :=
    ⟨_, _, rfl⟩
  obtain ⟨routine, final, h⟩ := hstage
  refine ⟨routine, final, h, (calls_match_callees h).2.2 fun site hsite => ?_⟩
  rw [List.mem_singleton.mp hsite]
  exact fun _ => ⟨_, rfl, rfl⟩

/-- The constructor for integers stands alone, and is applied to unit. -/
theorem loneCtor_takes_unit :
    let union : Rep := .union "Choice" [("some", .machInt), ("none", .unit)]
    ∃ routine final, stageFunction choosing "choose" [] union
        (.atom (.name "some" .unionCtor (.named "Choice"))) {} = .ok routine final ∧
      ∃ call ∈ Instr.callsAll routine.body, call.callee = "some" ∧ ¬call.Suits choosing := by
  refine ⟨_, _, rfl, _, List.mem_cons_self, rfl, fun hsuits => ?_⟩
  obtain ⟨params, result, hcallee, hargs, _⟩ := hsuits (.inl rfl)
  cases hcallee
  cases hargs with
  | cons harg _ => cases harg

end Staging

end IsaBackend
