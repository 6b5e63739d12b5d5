import IsaBackend.Proofs.Compilation.Replacement

/-!
# The names of parameters

Parameters can be renamed: a caller gives them values by their positions, and the body that uses the
new names does the same with them. There is one exception. A result that has no place on the stack is
returned through a parameter that has a fixed name, and a parameter of the source that has the same
name is overwritten before the body starts.
-/

namespace IsaBackend

open FreshNames (IsGenerated)

/-- Each side has the generated names for itself, and those that a parameter has on one of them. The
name of the result parameter can be among them if no result is returned through it. -/
@[reducible]
def OwnNames.ofParams (names : List String) : OwnNames where
  isOwn name := IsGenerated name ∨ name ∈ names
  generated number := .inl ⟨number, rfl⟩
  isSecret := IsGenerated
  secret := FreshNames.isGenerated_name
  byReference := Routine.resultParam ∉ names
  result := by
    rintro hnot (hgenerated | hname)
    · exact FreshNames.not_isGenerated (by decide) hgenerated
    · exact hnot hname

namespace Function

/-- Rename a parameter, and its occurrences in the body. -/
def renameParam (function : Function) (old new : String) : Function :=
  { function with
    params := function.params.map (swapName old new)
    body := function.body.renameFree old new }

def renameParams (function : Function) (renames : List (String × String)) : Function :=
  renames.foldl (fun renamed rename => renamed.renameParam rename.1 rename.2) function

/-- The result of a function has a place on the stack, so that it is not returned through a
parameter. -/
def ReturnsByValue (around : Surroundings) (function : Function) : Prop :=
  ∀ signature result, around.interface.signature function.name = some signature →
    Rep.ofTy around function.pos signature.result = .ok result → result.isStack = true

variable {function : Function} {old new : String}

private theorem mem_names_renameParam {name : String}
    (h : name ∈ (function.renameParam old new).names) : name ∈ function.names ∨ name = new := by
  have hswap : ∀ param ∈ function.params, swapName old new param = name →
      name ∈ function.params ∨ name = new := by
    rintro param hparam rfl
    unfold swapName
    split
    · exact .inr rfl
    · exact .inl hparam
  simp only [names, binders, renameParam, Expr.bound_renameFree, List.mem_append,
    List.mem_map] at h ⊢
  rcases h with ((⟨param, hparam, heq⟩ | hbound) | hfree) | hvars
  · rcases hswap param hparam heq with hname | hname
    · exact .inl (.inl (.inl (.inl hname)))
    · exact .inr hname
  · exact .inl (.inl (.inl (.inr hbound)))
  · exact (Expr.mem_free_renameFree _ hfree).imp_left fun hname => .inl (.inr hname)
  · exact (Expr.mem_vars_renameFree _ hvars).imp_left .inr

private theorem Ungenerated.renameParam (h : function.Ungenerated) (old : String)
    (hplain : ¬IsGenerated new) :
    (function.renameParam old new).Ungenerated := by
  intro name hname
  rcases mem_names_renameParam hname with hold | rfl
  · exact h name hold
  · exact hplain

private theorem pairing_renameParam (old : String) (hnew : new ∉ function.params) :
    letI := OwnNames.ofParams [old, new]
    Facts.Pairing (function.params.zip (function.params.map (swapName old new))) := by
  let := OwnNames.ofParams [old, new]
  rw [← List.map_prod_left_eq_zip]
  refine ⟨fun entry he => ?_, fun entry he second hs => ?_⟩
  · obtain ⟨param, hparam, rfl⟩ := List.mem_map.mp he
    by_cases hold : param = old
    · simp only [swapName, if_pos hold]
      exact .inr ⟨.inr (by simp [hold]), .inr (by simp)⟩
    · simp only [swapName, if_neg hold]
      exact .refl param
  · obtain ⟨param, hparam, rfl⟩ := List.mem_map.mp he
    obtain ⟨other, hother, rfl⟩ := List.mem_map.mp hs
    refine ⟨fun heq => congrArg (swapName old new) heq, fun heq => ?_⟩
    have hparamNew : param ≠ new := fun h => hnew (h ▸ hparam)
    have hotherNew : other ≠ new := fun h => hnew (h ▸ hother)
    simp only [swapName] at heq
    grind

private theorem Ungenerated.alike_renameParam (h : function.Ungenerated)
    (hold : old ∈ function.params) (hnew : new ∉ function.names) (hplain : ¬IsGenerated new) :
    letI := OwnNames.ofParams [old, new]
    function.Alike .none (function.renameParam old new) := by
  let := OwnNames.ofParams [old, new]
  have hfresh : new ∉ function.params := fun hm => hnew (by simp [names, Function.binders, hm])
  have hpairing := pairing_renameParam old hfresh
  have hglobals : ∀ name ∈ function.globals, ¬Own name ∧ ¬Secret name := by
    intro name hname
    obtain ⟨hfree, hparam⟩ := List.mem_filter.mp hname
    have hmem : name ∈ function.names := by simp [names, hfree]
    refine ⟨fun hown => ?_, h name hmem⟩
    rcases hown with hgenerated | hrenamed
    · exact h name hmem hgenerated
    · rcases List.mem_cons.mp hrenamed with rfl | hrenamed
      · exact of_decide_eq_true hparam hold
      · exact hnew (List.mem_singleton.mp hrenamed ▸ hmem)
  have hkept : ∀ name ∈ function.names, name ∉ function.params →
      swapName old new name = name ∧ name ∉ function.params.map (swapName old new) := by
    intro name hname hparam
    have hne : name ≠ old := fun heq => hparam (heq ▸ hold)
    refine ⟨if_neg hne, fun hm => ?_⟩
    obtain ⟨param, hp, rfl⟩ := List.mem_map.mp hm
    unfold swapName at hname hparam
    split at hname
    · exact hnew hname
    · rename_i hkept
      rw [if_neg hkept] at hparam
      exact hparam hp
  have hsettles := settles_renamed hpairing hglobals hkept
    fun name hn => (⟨h name hn, fun heq => hnew (heq ▸ hn)⟩ : ¬IsGenerated name ∧ name ≠ new)
  refine ⟨rfl, List.length_map _, hpairing, rfl,
    fun name hn => h.binders name (List.mem_append_left _ hn),
    fun name hn => (h.renameParam old hplain).binders name (List.mem_append_left _ hn), ?_⟩
  exact Expr.renameFree_alike .none (fun _ hgood => hgood.1) function.body
    (fun hgood => absurd rfl hgood.2) hsettles

end Function

namespace Compilation

private theorem runAlike_renameParam {options : CompileOptions} {interface : Interface}
    {before after : List Definition} {function : Function} {old new : String}
    (hungenerated : ∀ other, .function other ∈ before ++ .function function :: after →
      other.Ungenerated)
    (hold : old ∈ function.params) (hnew : new ∉ function.names) (hplain : ¬IsGenerated new)
    (hresult : Routine.resultParam ∈ [old, new] →
      function.ReturnsByValue ⟨(progressAfter options interface {} before).layouts, interface⟩) :
    let definitions := before ++ .function function :: after
    let renamed := before ++ .function (function.renameParam old new) :: after
    (outcomes options interface {} definitions).map Except.isOk =
        (outcomes options interface {} renamed).map Except.isOk ∧
      (ofDefinitions options interface definitions).program.RunAlike
        (ofDefinitions options interface renamed).program := by
  intro definitions renamed
  have hfunction : function.Ungenerated := hungenerated function (by simp)
  have hothers : ∀ other, .function other ∈ before ++ after → other.Ungenerated :=
    fun other hm => hungenerated other (by grind)
  let := OwnNames.ofParams [old, new]
  have halike := hfunction.alike_renameParam hold hnew hplain
  have hbinders := (hfunction.renameParam old hplain).binders
  -- A result that is returned through a parameter leaves that name alone.
  have hreserves : function.Reserves
      ⟨(progressAfter options interface {} before).layouts, interface⟩ := by
    intro signature result hsignature hrep hheap hmem
    have hstack := hresult hmem signature result hsignature hrep
    rw [hheap] at hstack
    cases hstack
  have hsound := ExprRules.sound_none interface
  have hmatch : List.Forall₂ OutcomesMatch (outcomes options interface {} definitions)
      (outcomes options interface {} renamed) :=
    outcomes_match
      (follows_at hothers (.of_alike halike hsound hreserves hfunction.binders hbinders))
      (follows_at hothers (.of_alike halike.symm hsound hreserves hbinders hfunction.binders))
  exact ⟨isOk_outcomes hmatch, runAlike_at hothers hfunction.binders hbinders hmatch⟩

/-- The same definitions compile after parameters are renamed to names that the function does not
have, and every call does the same, unless one of the names is that of the result parameter and the
result is returned through it. -/
theorem renamed_params_run_alike (options : CompileOptions) (interface : Interface)
    (before after : List Definition) (function : Function) {renames : List (String × String)}
    (hungenerated : ∀ other, .function other ∈ before ++ .function function :: after →
      other.Ungenerated)
    (holds : ∀ rename ∈ renames, rename.1 ∈ function.params)
    (hnews : ∀ rename ∈ renames, rename.2 ∉ function.names ∧ ¬IsGenerated rename.2)
    (hdistinct : (renames.map Prod.fst).Nodup) (hinjective : (renames.map Prod.snd).Nodup)
    (hresult : Routine.resultParam ∈ renames.map Prod.fst ++ renames.map Prod.snd →
      function.ReturnsByValue ⟨(progressAfter options interface {} before).layouts, interface⟩) :
    let definitions := before ++ .function function :: after
    let renamed := before ++ .function (function.renameParams renames) :: after
    (outcomes options interface {} definitions).map Except.isOk =
        (outcomes options interface {} renamed).map Except.isOk ∧
      (ofDefinitions options interface definitions).isSuccess =
        (ofDefinitions options interface renamed).isSuccess ∧
      (ofDefinitions options interface definitions).program.RunAlike
        (ofDefinitions options interface renamed).program := by
  intro definitions renamed
  suffices hsame : (outcomes options interface {} definitions).map Except.isOk =
      (outcomes options interface {} renamed).map Except.isOk ∧
      (ofDefinitions options interface definitions).program.RunAlike
        (ofDefinitions options interface renamed).program by
    refine ⟨hsame.1, ?_, hsame.2⟩
    rw [isSuccess_eq, isSuccess_eq, hsame.1]
  induction renames generalizing function with
  | nil => exact ⟨rfl, .refl _⟩
  | cons rename renames ih =>
    obtain ⟨old, new⟩ := rename
    obtain ⟨hold, holds⟩ := List.forall_mem_cons.mp holds
    obtain ⟨⟨hnew, hplain⟩, hnews⟩ := List.forall_mem_cons.mp hnews
    obtain ⟨holdOnce, hdistinct⟩ := List.nodup_cons.mp hdistinct
    obtain ⟨hnewOnce, hinjective⟩ := List.nodup_cons.mp hinjective
    have hfirst := runAlike_renameParam hungenerated hold hnew hplain
      fun hmem => hresult (by grind)
    have hothers : ∀ other,
        .function other ∈ before ++ .function (function.renameParam old new) :: after →
        other.Ungenerated := by
      intro other hmem
      have hfunction := hungenerated function (by simp)
      grind [hfunction.renameParam old hplain]
    have hkept : ∀ rename ∈ renames, rename.1 ∈ (function.renameParam old new).params := by
      intro rename hmem
      refine List.mem_map.mpr ⟨rename.1, holds rename hmem, if_neg fun heq => holdOnce ?_⟩
      exact List.mem_map.mpr ⟨rename, hmem, heq⟩
    have hfresh : ∀ rename ∈ renames,
        rename.2 ∉ (function.renameParam old new).names ∧ ¬IsGenerated rename.2 := by
      intro rename hmem
      refine ⟨fun hname => ?_, (hnews rename hmem).2⟩
      rcases Function.mem_names_renameParam hname with hname | heq
      · exact (hnews rename hmem).1 hname
      · exact hnewOnce (List.mem_map.mpr ⟨rename, hmem, heq⟩)
    have hrest := ih (function.renameParam old new) hothers hkept hfresh hdistinct hinjective
      fun hmem => hresult (by grind)
    exact ⟨hfirst.1.trans hrest.1, hfirst.2.trans hrest.2⟩

end Compilation

/-- A function that gives its second argument if the first one is true. -/
def Function.choosing (first second : String) : Function where
  name := "choose"
  params := [first, second]
  body := .cond ⟨.bool, .generated⟩ (.name ⟨.bool, .generated⟩ first)
    (.name ⟨.bool, .generated⟩ second) (.lit ⟨.bool, .generated⟩ (.bool false))

def Function.giving (param : String) : Function where
  name := "give"
  params := [param]
  body := .name ⟨.int, .generated⟩ param

def Declarations.passing : Declarations :=
  (({} : Declarations).addFunction "choose" [.bool, .bool] .bool).addFunction "give" [.int] .int

namespace Compilation

def passing (function : Function) : Compilation :=
  ofDefinitions {} Declarations.passing.interface [.function function]

def given? (param : String) (arg : Int) : Option Int :=
  match ((Machine.ofProgram (passing (.giving param)).program 100).call "give" [.int arg]).1 with
  | .ok (.int value) => some value
  | _ => none

/-- A result on the stack leaves every name to the parameters. -/
theorem choosing_runs_alike :
    (passing (.choosing "rop" "other")).isSuccess = true ∧
      (passing (.choosing "flag" "last")).isSuccess = true ∧
      (passing (.choosing "rop" "other")).program.RunAlike
        (passing (.choosing "flag" "last")).program := by
  have hplain : (Function.choosing "rop" "other").Ungenerated :=
    Function.ungenerated_of_unmarked (by decide +kernel)
  have hnews : ∀ rename ∈ [("rop", "flag"), ("other", "last")],
      rename.2 ∉ (Function.choosing "rop" "other").names ∧ ¬IsGenerated rename.2 := by
    have hunused : ∀ rename ∈ [("rop", "flag"), ("other", "last")],
        rename.2 ∉ (Function.choosing "rop" "other").names ∧ '#' ∉ rename.2.toList := by
      decide +kernel
    exact fun rename hmem => ⟨(hunused rename hmem).1,
      FreshNames.not_isGenerated (hunused rename hmem).2⟩
  have hvalue : (Function.choosing "rop" "other").ReturnsByValue
      ⟨{}, Declarations.passing.interface⟩ := by
    intro signature result hsignature hresult
    cases hsignature
    cases hresult
    rfl
  have halike := renamed_params_run_alike {} Declarations.passing.interface [] []
    (.choosing "rop" "other") (by simp [hplain]) (by decide +kernel) hnews (by decide) (by decide)
    fun _ => hvalue
  have hsuccess : (passing (.choosing "rop" "other")).isSuccess = true := by decide +kernel
  exact ⟨hsuccess, halike.2.1.symm.trans hsuccess, halike.2.2⟩

/-- A number of any size is returned through the result parameter. An argument of that name is lost,
and one of another name is not. -/
theorem giving_loses_argument :
    (Function.giving "rop").renameParams [("rop", "x")] = Function.giving "x" ∧
      (passing (.giving "rop")).isSuccess = true ∧ (passing (.giving "x")).isSuccess = true ∧
      given? "rop" 41 = some 0 ∧ given? "x" 41 = some 41 := by
  refine ⟨rfl, ?_⟩
  decide +kernel

end Compilation

end IsaBackend
