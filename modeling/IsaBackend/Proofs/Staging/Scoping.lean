import IsaBackend.Proofs.Staging.Functions

/-!
# Staged code is well scoped

The code of a function uses only names that are visible where it uses them: its parameters, the names
that occur free in its body, and names that are declared before in the same block or in one around
it. No name is introduced twice, and none that is a parameter.
-/

namespace IsaBackend

open StagingState

open Instr hiding decl init store call

namespace Staging

def startNames (params : List (String × Rep)) (body : Term) : List String :=
  Routine.resultParam :: params.map Prod.fst ++ body.freeNames

/-- A function may use its parameters and the names that occur free in its body. -/
private theorem allows_startNames (params : List (String × Rep)) (body : Term) :
    ({} : StagingState).Allows (.scope (.ofNames (startNames params body))) body.usage := by
  have hfree : ∀ use ∈ body.occurrencesAs .verbatim, use.name ∈ startNames params body :=
    fun use hu => List.mem_append_right _ (List.mem_map_of_mem hu)
  refine ⟨⟨fun use hu => ?_, fun target ht => ?_⟩, nofun, List.mem_cons_self⟩
  · cases use with
    | source name => exact hfree _ hu
    | verbatim name => exact hfree _ hu
  · exact hfree _ (body.targets_subset ht)

/-- The code of a function introduces every name once, and none that is a parameter. It uses the
parameters, the names that occur free in the body, and names that are introduced before in the same
block or in one around it. -/
theorem staged_code_well_scoped {around : Surroundings} {name : String}
    {params : List (String × Rep)} {result : Rep} {body : Term} {state final : StagingState}
    {routine : Routine}
    (h : stageFunction around name params result body state = .ok routine final)
    (hnames : ∀ name ∈ params.map Prod.fst ++ body.bound, ∀ number,
      name = FreshNames.name number → number < state.names.next) :
    ((introducedAll routine.body).map Prod.fst).Nodup ∧
    (∀ entry ∈ introducedAll routine.body,
      entry.1 ∉ Routine.resultParam :: params.map Prod.fst) ∧
    WellScopedAll (Routine.resultParam :: params.map Prod.fst ++ body.freeNames) routine.body := by
  obtain ⟨rfl, hstages⟩ := (stageFunction_yields around name params result body state).of_ok h
  have hstaged := hstages fun name hname => hnames name (List.mem_append_right _ hname)
  have hscoped : ScopedAll (.ofNames (startNames routine.params body)) routine.body :=
    hstaged.accepts (.scope _) trivial (allows_startNames routine.params body)
  refine ⟨hstaged.distinct, fun entry hentry hparam => ?_, hscoped.wellScopedAll⟩
  rcases hstaged.origin entry hentry with ⟨number, hbase, hname⟩ | ⟨_, hnot⟩
  · rcases List.mem_cons.mp hparam with hresult | hparam
    · have hplain : '#' ∉ Routine.resultParam.toList := by decide
      exact FreshNames.ne_name_of_no_hash hplain number (hresult.symm.trans hname)
    · have hlt := hnames entry.1 (List.mem_append_left _ hparam) number hname
      omega
  · exact hnot hparam

end Staging

/-- Both arms bind the same name, so one of the bindings is renamed. The inline expression in it keeps
the name. -/
def Term.renamedInArm : Term :=
  let small : Ty := .range (.const 0) (.const 9)
  .cond (.name "c" .immutableLocal .bool)
    (.bind "x" small (.atom (.lit (.num 1) small)) (.atom (.lit (.num 0) small)) small)
    (.bind "x" small (.atom (.lit (.num 2) small)) (.atom (.inline (.name "x") small)) small) small

namespace Staging

/-- Two bindings of one name, in arms that both read them. -/
theorem twoArms_well_scoped :
    let small : Ty := .range (.const 0) (.const 9)
    let arm : Int → Term := fun value => .bind "x" small (.atom (.lit (.num value) small))
      (.atom (.name "x" .immutableLocal small)) small
    ∃ routine final, stageFunction .bare "f" [("c", .bool)] .machInt
        (.cond (.name "c" .immutableLocal .bool) (arm 1) (arm 2) small) {} = .ok routine final ∧
      ((introducedAll routine.body).map Prod.fst).Nodup ∧
      WellScopedAll [Routine.resultParam, "c", "c"] routine.body := by
  intro small arm
  have hstage : ∃ routine final, stageFunction .bare "f" [("c", .bool)] .machInt
      (.cond (.name "c" .immutableLocal .bool) (arm 1) (arm 2) small) {} = .ok routine final :=
    ⟨_, _, rfl⟩
  obtain ⟨routine, final, h⟩ := hstage
  have hplain : ∀ name ∈ ["c", "x", "x"], '#' ∉ name.toList := by decide
  have hscoped := staged_code_well_scoped h fun name hname number heq =>
    absurd heq (FreshNames.ne_name_of_no_hash (hplain name hname) number)
  exact ⟨routine, final, h, hscoped.1, hscoped.2.2⟩

/-- It is not enough that an inline expression stands in the scope of a binding. -/
theorem renamedInArm_badly_scoped : ∃ routine final,
    stageFunction .bare "f" [("c", .bool)] .machInt Term.renamedInArm {} = .ok routine final ∧
    (∀ name ∈ ["c"] ++ Term.renamedInArm.bound, '#' ∉ name.toList) ∧
    ¬WellScopedAll (Routine.resultParam :: ["c"] ++ Term.renamedInArm.lexicallyFreeNames)
      routine.body := by
  refine ⟨_, _, rfl, by decide, fun hscoped => ?_⟩
  obtain ⟨_, _, _, ⟨_, _, _, _, hdelivery, _⟩, _⟩ := hscoped
  have hx := hdelivery (List.mem_cons_of_mem _ List.mem_cons_self)
  revert hx
  decide

end Staging

end IsaBackend
