import IsaBackend.Proofs.Compilation.Matching
import IsaBackend.Proofs.Expr.Renaming
import Mathlib.Data.List.Zip

/-!
# Programs with one function replaced

A function is alike itself, so programs that differ in one function match if the two versions of that
function do. The names that each version may have for itself are the generated ones and some that the
function does not use as globals.
-/

namespace IsaBackend

open FreshNames (IsGenerated)

/-- Each side has the generated names for itself, and some of the source. -/
@[reducible]
def OwnNames.ofNames (names : List String) : OwnNames where
  isOwn name := IsGenerated name ∨ name ∈ names ∧ name ≠ Routine.resultParam
  generated number := .inl ⟨number, rfl⟩
  isSecret := IsGenerated
  secret number := ⟨number, rfl⟩
  byReference := True
  result := by
    rintro - (hgenerated | ⟨_, hne⟩)
    · exact FreshNames.not_isGenerated (by decide) hgenerated
    · exact hne rfl

namespace Function

/-- No name of a function could have been generated. -/
def Ungenerated (function : Function) : Prop := ∀ name ∈ function.names, ¬IsGenerated name

/-- It is enough that no name has the character that marks generated ones. -/
theorem ungenerated_of_unmarked {function : Function}
    (h : ∀ name ∈ function.names, '#' ∉ name.toList) : function.Ungenerated :=
  fun name hn => FreshNames.not_isGenerated (h name hn)

theorem Ungenerated.binders {function : Function} (h : function.Ungenerated) :
    ∀ name ∈ function.binders, ¬IsGenerated name :=
  fun name hn => h name (by simp [names, hn])

/-- The names of a function mean the same on both sides where its body starts, also if its parameters
are renamed: other names are kept, and no parameter gets one of them. -/
theorem settles_renamed [OwnNames] {function : Function} {change : String → String}
    {good : String → Prop}
    (hpairing : Facts.Pairing (function.params.zip (function.params.map change)))
    (hglobals : ∀ name ∈ function.globals, ¬Own name ∧ ¬Secret name)
    (hkept : ∀ name ∈ function.names, name ∉ function.params →
      change name = name ∧ name ∉ function.params.map change)
    (hgood : ∀ name ∈ function.names, good name) :
    Link.Settles change good (Link.ofPairs (function.params.zip (function.params.map change)))
      function.body.free function.body.vars := by
  have hfree : ∀ name ∈ function.body.free, name ∈ function.names := fun name hn => by
    simp [names, hn]
  have hvars : ∀ name ∈ function.body.vars, name ∈ function.names := fun name hn => by
    simp [names, hn]
  have hparams : ∀ name ∈ function.params, Link.Same
      (Link.ofPairs (function.params.zip (function.params.map change))) name (change name) := by
    intro name hname
    refine (Link.same_ofPairs hpairing).mpr (.inl ?_)
    rw [← List.map_prod_left_eq_zip]
    exact List.mem_map_of_mem hname
  refine ⟨fun name hn => ⟨?_, hgood name (hfree name hn)⟩,
    fun name hn => ⟨?_, hgood name (hvars name hn)⟩⟩
  · by_cases hparam : name ∈ function.params
    · exact hparams name hparam
    · rw [(hkept name (hfree name hn) hparam).1]
      refine (Link.same_ofPairs hpairing).mpr (.inr ⟨rfl, hglobals name ?_⟩)
      exact List.mem_filter.mpr ⟨hn, decide_eq_true hparam⟩
  · by_cases hparam : name ∈ function.params
    · exact .inl (hparams name hparam)
    · obtain ⟨hsame, hnew⟩ := hkept name (hvars name hn) hparam
      refine .inr ⟨hsame.symm, fun link hlink => ?_⟩
      obtain ⟨pair, hm, rfl⟩ := List.mem_map.mp hlink
      obtain ⟨hleft, hright⟩ := List.of_mem_zip hm
      exact ⟨fun heq => hparam (heq ▸ hleft), fun heq => hnew (heq ▸ hright)⟩

theorem settles [OwnNames] {function : Function} {good : String → Prop}
    (hglobals : ∀ name ∈ function.globals, ¬Own name ∧ ¬Secret name)
    (hgood : ∀ name ∈ function.names, good name) :
    Link.Settles id good (Link.ofPairs (function.params.zip function.params)) function.body.free
      function.body.vars := by
  have hself : function.params.map id = function.params := List.map_id _
  rw [← congrArg (function.params.zip ·) hself]
  refine settles_renamed (hself.symm ▸ .self function.params) hglobals (fun name _ hparam => ?_) hgood
  exact ⟨rfl, hself.symm ▸ hparam⟩

theorem Ungenerated.settles {function : Function} (h : function.Ungenerated) {own : List String}
    {good : String → Prop} (hglobals : ∀ name ∈ own, name ∉ function.globals)
    (hgood : ∀ name ∈ function.names, good name) :
    letI := OwnNames.ofNames own
    Link.Settles id good (Link.ofPairs (function.params.zip function.params)) function.body.free
      function.body.vars := by
  let := OwnNames.ofNames own
  refine Function.settles (fun name hn => ?_) hgood
  have hplain : ¬IsGenerated name := h name (by simp [names, (List.mem_filter.mp hn).1])
  exact ⟨fun hown => hown.elim hplain fun ⟨hmem, _⟩ => hglobals name hmem hn, hplain⟩

theorem Alike.symm [OwnNames] {function twin : Function} (h : function.Alike .none twin) :
    twin.Alike .none function := by
  have hswap : (function.params.zip twin.params).map Prod.swap = twin.params.zip function.params :=
    List.zip_swap _ _
  have hflip : (Link.ofPairs (function.params.zip twin.params)).map Link.flip =
      Link.ofPairs (twin.params.zip function.params) := by
    rw [← hswap, Link.ofPairs, Link.ofPairs, List.map_map, List.map_map]
    rfl
  have hbody : Expr.Alike .none ((Link.ofPairs (function.params.zip twin.params)).map Link.flip)
      twin.body function.body := h.body.symm fun hrules => hrules.elim
  exact ⟨h.name.symm, h.length.symm, hswap ▸ h.pairing.flip, h.pos.symm, h.right, h.left,
    hflip ▸ hbody⟩

end Function

namespace Definition

variable {options : CompileOptions} {interface : Interface} {layouts : Layouts}

theorem Follows.of_alike {own : OwnNames} {rules : ExprRules} {function twin : Function}
    (h : function.Alike rules twin) (hrules : rules.Sound interface)
    (hreserves : function.Reserves ⟨layouts, interface⟩)
    (hbinders : ∀ name ∈ function.binders, ¬IsGenerated name)
    (htwinBinders : ∀ name ∈ twin.binders, ¬IsGenerated name) :
    Follows options interface layouts (.function function) (.function twin) := by
  refine .function fun names twinNames => ?_
  refine (h.compile_mirrors hrules options hreserves hbinders htwinBinders).mono ?_
  exact fun routine twinRoutine _ _ hmatches => ⟨own, hmatches⟩

private theorem follows_self {definition : Definition}
    (h : ∀ function', definition = function function' → function'.Ungenerated) :
    Follows options interface layouts definition definition := by
  cases definition with
  | function function' =>
    have hnames := h function' rfl
    let := OwnNames.ofNames []
    have hbody := Expr.alike_self .none (fun _ hplain => hplain) function'.body
      (hnames.settles (by simp) hnames)
    have hparams : ∀ name ∈ function'.params, ¬Secret name := fun name hn =>
      hnames.binders name (List.mem_append_left _ hn)
    exact .of_alike ⟨rfl, rfl, .self _, rfl, hparams, hparams, hbody⟩ (ExprRules.sound_none interface)
      (fun _ _ _ _ _ => trivial) hnames.binders hnames.binders
  | _ => exact .same fun _ heq => by cases heq

end Definition

namespace Compilation

variable {options : CompileOptions} {interface : Interface}
  {before after : List Definition}

private theorem FollowAll.prepend {progress : Progress} {rest twins : List Definition}
    (hrest : FollowAll options interface
      (progressAfter options interface progress before).layouts rest twins)
    (h : ∀ function, .function function ∈ before → function.Ungenerated) :
    FollowAll options interface progress.layouts (before ++ rest)
      (before ++ twins) := by
  induction before generalizing progress with
  | nil => exact hrest
  | cons definition before ih =>
    have hknown : (⟨progress.layouts, {}⟩ : Progress).layouts = progress.layouts := rfl
    have hlayouts := Definition.step_layouts_congr options interface hknown definition
    refine .cons (Definition.follows_self fun function heq => h function (heq ▸ by simp)) ?_
    rw [hlayouts]
    exact ih hrest fun function hm => h function (List.mem_cons_of_mem _ hm)

theorem follows_at
    (h : ∀ function, .function function ∈ before ++ after → function.Ungenerated)
    {definition twin : Definition}
    (hplace : Definition.Follows options interface
      (progressAfter options interface {} before).layouts definition twin) :
    FollowAll options interface {} (before ++ definition :: after)
      (before ++ twin :: after) := by
  have hafter : ∀ progress : Progress,
      FollowAll options interface progress.layouts after after := by
    intro progress
    have hnone : FollowAll options interface
        (progressAfter options interface progress after).layouts [] [] := .nil _
    simpa using hnone.prepend fun function hm => h function (List.mem_append_right _ hm)
  have hrest : FollowAll options interface
      (progressAfter options interface {} before).layouts (definition :: after) (twin :: after) :=
    .cons hplace (hafter _)
  exact hrest.prepend fun function hm => h function (List.mem_append_left _ hm)

/-- Programs with matching outcomes that differ in one function run alike. -/
theorem runAlike_at
    (h : ∀ function, .function function ∈ before ++ after → function.Ungenerated)
    {function twin : Function} (hbinders : ∀ name ∈ function.binders, ¬IsGenerated name)
    (htwinBinders : ∀ name ∈ twin.binders, ¬IsGenerated name)
    (hmatch : List.Forall₂ OutcomesMatch
      (outcomes options interface {} (before ++ .function function :: after))
      (outcomes options interface {} (before ++ .function twin :: after))) :
    (ofDefinitions options interface (before ++ .function function :: after)).program.RunAlike
      (ofDefinitions options interface (before ++ .function twin :: after)).program := by
  have hpaired : ∀ {changed : Function}, (∀ name ∈ changed.binders, ¬IsGenerated name) →
      ∀ routine ∈ (ofDefinitions options interface
        (before ++ .function changed :: after)).program.routines, ∃ disc post,
        routine.Sound (·.breaksPairing = false) disc post := by
    intro changed hchanged
    refine routines_paired fun other hother => ?_
    rcases List.mem_append.mp hother with hbefore | hrest
    · exact (h other (List.mem_append_left _ hbefore)).binders
    · rcases List.mem_cons.mp hrest with heq | hafter
      · cases heq
        exact hchanged
      · exact (h other (List.mem_append_right _ hafter)).binders
  exact (program_matches hmatch).runAlike (hpaired hbinders) (hpaired htwinBinders)

/-- A function can stand for another one between some definitions: if they compiled they still do, and
every call does the same. -/
def StandsFor (options : CompileOptions) (interface : Interface) (before after : List Definition)
    (twin function : Function) : Prop :=
  (ofDefinitions options interface (before ++ .function function :: after)).isSuccess = true →
    (ofDefinitions options interface (before ++ .function twin :: after)).isSuccess = true ∧
      (ofDefinitions options interface (before ++ .function function :: after)).program.RunAlike
        (ofDefinitions options interface (before ++ .function twin :: after)).program

private theorem StandsFor.refl (function : Function) :
    StandsFor options interface before after function function :=
  fun hsuccess => ⟨hsuccess, .refl _⟩

theorem StandsFor.of_body {function : Function} {body : Expr} (h : function.body = body) :
    StandsFor options interface before after { function with body } function := by
  subst h
  exact .refl function

theorem StandsFor.trans {function middle twin : Function}
    (h : StandsFor options interface before after twin middle)
    (hmiddle : StandsFor options interface before after middle function) :
    StandsFor options interface before after twin function := by
  intro hsuccess
  obtain ⟨hfirst, halike⟩ := hmiddle hsuccess
  obtain ⟨hsecond, hrest⟩ := h hfirst
  exact ⟨hsecond, halike.trans hrest⟩

theorem StandsFor.of_alike {own : OwnNames} {rules : ExprRules} {function twin : Function}
    (halike : function.Alike rules twin) (hrules : rules.Sound interface)
    (hreserves : ∀ layouts, function.Reserves ⟨layouts, interface⟩)
    (h : ∀ other, .function other ∈ before ++ after → other.Ungenerated)
    (hbinders : ∀ name ∈ function.binders, ¬IsGenerated name)
    (htwinBinders : ∀ name ∈ twin.binders, ¬IsGenerated name) :
    StandsFor options interface before after twin function := by
  intro hsuccess
  have hmatch : List.Forall₂ OutcomesMatch
      (outcomes options interface {} (before ++ .function function :: after))
      (outcomes options interface {} (before ++ .function twin :: after)) :=
    outcomes_match_of_success (follows_at h
      (.of_alike halike hrules (hreserves _) hbinders htwinBinders)) hsuccess
  refine ⟨?_, runAlike_at h hbinders htwinBinders hmatch⟩
  rw [isSuccess_eq] at hsuccess ⊢
  rw [← isOk_outcomes hmatch, hsuccess]

end Compilation

end IsaBackend
