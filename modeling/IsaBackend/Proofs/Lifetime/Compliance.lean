import IsaBackend.Proofs.Lifetime.Acceptance
import IsaBackend.Proofs.Staging.Functions

/-!
# Staged code passes the lifetime check

The check has nothing to say about the code of a function except that a name is used after its
release, and not even that if no name that the body binds also occurs free in it. The names in
inline expressions count as free wherever they stand: the code uses them as they are, while a
binding may be renamed.
-/

namespace IsaBackend

namespace Routine

variable {routine : Routine} {base : Nat} {body : Term}

private theorem eq_of_nodup_fst {entries : List (String × Bool)}
    (h : (entries.map Prod.fst).Nodup) {name : String} {mark other : Bool}
    (hmark : (name, mark) ∈ entries) (hother : (name, other) ∈ entries) : mark = other := by
  induction entries with
  | nil => cases hmark
  | cons entry rest ih =>
    obtain ⟨hnew, hrest⟩ := List.nodup_cons.mp h
    have habsent : ∀ mark, (name, mark) ∈ rest → entry.1 ≠ name := fun mark hm heq =>
      hnew (heq ▸ List.mem_map.mpr ⟨(name, mark), hm, rfl⟩)
    rcases List.mem_cons.mp hmark with hfirst | hmark
    · rcases List.mem_cons.mp hother with hsecond | hother
      · have hboth := hfirst.trans hsecond.symm
        exact (Prod.mk.inj hboth).2
      · exact absurd (congrArg Prod.fst hfirst).symm (habsent other hother)
    · rcases List.mem_cons.mp hother with hsecond | hother
      · exact absurd (congrArg Prod.fst hsecond).symm (habsent mark hmark)
      · exact ih hrest hmark hother

theorem Stages.separates (h : routine.Stages base body) : routine.Separates :=
  fun _ hdeclared hallocated =>
    Bool.false_ne_true (eq_of_nodup_fst h.distinct hdeclared hallocated)

/-- The code allocates no name that the source could mean by a free occurrence. -/
theorem Stages.not_allocated (h : routine.Stages base body) {name : String}
    (hbelow : ∀ number, name = FreshNames.name number → number < base)
    (hfree : name ∈ body.bound → name ∈ resultParam :: routine.params.map Prod.fst) :
    (name, true) ∉ Instr.introducedAll routine.body := by
  intro hmem
  rcases h.origin (name, true) hmem with ⟨number, hbase, hname⟩ | ⟨hbound, hparam⟩
  · exact absurd (hbelow number hname) (by omega)
  · exact hparam (hfree hbound)

/-- What the body uses is never allocated, if it is neither generated later nor bound by the body,
unless it is a parameter. -/
theorem Stages.usable (h : routine.Stages base body)
    (huses : ∀ use ∈ body.mentions,
      (∀ number, use.name = FreshNames.name number → number < base) ∧
      (use.name ∈ body.bound → use.name ∈ resultParam :: routine.params.map Prod.fst)) :
    ∀ use ∈ body.uses, (routine.discipline True).Usable [] use.name := by
  intro use hu
  refine Discipline.usable_of_not_owns ?_ _
  rcases List.mem_cons.mp hu with rfl | hu
  · refine h.not_allocated (fun number heq => ?_) fun _ => List.mem_cons_self
    exact absurd heq (FreshNames.ne_name_of_no_hash (by decide) number)
  · obtain ⟨hbelow, hbound⟩ := huses use hu
    exact h.not_allocated hbelow hbound

theorem Stages.check_passes (h : routine.Stages base body) (watches : Prop)
    (huses : ∀ use ∈ body.uses, (routine.discipline watches).Usable [] use.name) :
    Passes (routine.discipline watches) routine.checkLifetimes fun _ => True := by
  have htidy := h.tidy (routine.discipline watches) (h.separates.covers watches) huses
  have hfits : PathState.Fits (routine.discipline watches) {} := {
    distinct := List.nodup_nil
    owned := fun _ hn => absurd hn List.not_mem_nil
    released := fun _ hr => absurd hr Bool.false_ne_true }
  have hstart : ∀ state ∈ [({} : PathState)],
      Instr.TidyAll (routine.discipline watches) ((none : Option PathState).map PathState.live)
        state.live routine.body (fun _ => False) ∧
      state.Fits (routine.discipline watches) := by
    simpa using ⟨htidy, hfits⟩
  have hfollow := Instr.TidyAll.followAll_passes (fun _ _ => PathState.mem_distinct.mp) hstart
  refine hfollow.bind fun ends hends => ?_
  cases ends with
  | nil => exact .ok trivial
  | cons state rest => exact (hends state List.mem_cons_self).1.elim

end Routine

/-- Staging a function gives code of which the check reports at most a use after release, if the
names of the body that have the form of generated ones were generated before. It reports nothing if
no name that the body binds occurs free in it. Staging never fails with storage that is never
released. -/
theorem Staging.stageFunction_passes_check (around : Surroundings) (name : String)
    (params : List (String × Rep)) (result : Rep) (body : Term) (state : StagingState) :
    (∀ routine final, stageFunction around name params result body state = .ok routine final →
      (∀ name ∈ body.bound ++ body.free, ∀ number, name = FreshNames.name number →
        number < state.names.next) →
      (routine.checkLifetimes = .ok () ∨
        ∃ used, routine.checkLifetimes = .error (.useAfterRelease used)) ∧
      ((∀ name ∈ body.bound, name ∉ body.free) → routine.checkLifetimes = .ok ())) ∧
    ∀ cause final, stageFunction around name params result body state = .error cause final →
      ∀ leaked function, cause ≠ .neverReleased leaked function := by
  have hyields := stageFunction_yields around name params result body state
  unfold Yields at hyields
  refine ⟨fun routine final hok hnames => ?_, fun cause final herror leaked function hcause => ?_⟩
  · rw [hok] at hyields
    obtain ⟨_, hstages⟩ := hyields
    have hstaged := hstages fun name hn => hnames name (List.mem_append_left _ hn)
    refine ⟨?_, fun hfree => ?_⟩
    · rcases hstaged.check_passes False (fun _ _ hwatch => hwatch.elim) with
        ⟨_, hcheck, _⟩ | ⟨_, used, hcheck⟩
      · exact .inl hcheck
      · exact .inr ⟨used, hcheck⟩
    · have huses : ∀ use ∈ body.uses, (routine.discipline True).Usable [] use.name := by
        refine hstaged.usable fun use hu => ?_
        have hname : use.name ∈ body.free := List.mem_map.mpr ⟨use, hu, rfl⟩
        exact ⟨hnames _ (List.mem_append_right _ hname),
          fun hbound => absurd hname (hfree _ hbound)⟩
      rcases hstaged.check_passes True huses with ⟨_, hcheck, _⟩ | ⟨hwatch, _⟩
      · exact hcheck
      · exact absurd trivial hwatch
  · rw [herror] at hyields
    subst hcause
    cases hyields

/-- A binding that shadows another one, around a return on one path only. -/
def Term.returningEarly : Term :=
  .bind "x" .int (.atom (.lit (.num 1) .int))
    (.bind "x" .int (.atom (.name "x" .immutableLocal .int))
      (.cond (.name "c" .immutableLocal .bool) (.ret (.name "x" .immutableLocal .int) .int)
        (.atom (.name "x" .immutableLocal .int)) .int) .int) .int

theorem Staging.returningEarly_passes_check : ∃ routine final,
    stageFunction ⟨{}, Declarations.interface {}⟩ "f" [("c", .bool)] .bigInt Term.returningEarly
      {} = .ok routine final ∧
    routine.checkLifetimes = .ok () := by
  have hplain : ∀ name ∈ Term.returningEarly.bound ++ Term.returningEarly.free,
      '#' ∉ name.toList := by decide
  have hpasses := (stageFunction_passes_check ⟨{}, Declarations.interface {}⟩ "f" [("c", .bool)]
    .bigInt Term.returningEarly {}).1 _ _ rfl fun name hn number h =>
      absurd h (FreshNames.ne_name_of_no_hash (hplain name hn) number)
  exact ⟨_, _, rfl, hpasses.2 (by decide)⟩

/-- A binding that is renamed, since a statement before it took its name. The inline expression
inside it keeps the name. -/
def Term.renamedBinding : Term :=
  .block [.bind "x" .int (.atom (.lit (.num 1) .int)) (.atom .unit) .unit]
    (.bind "x" .int (.atom (.lit (.num 2) .int)) (.atom (.inline (.name "x") .int)) .int) .int

/-- It is not enough that no bound name occurs outside the scope of its binding. -/
theorem Staging.renamedBinding_fails_check : ∃ routine final,
    stageFunction ⟨{}, Declarations.interface {}⟩ "f" [] .bigInt Term.renamedBinding {} =
      .ok routine final ∧
    (∀ name ∈ Term.renamedBinding.bound ++ Term.renamedBinding.free, '#' ∉ name.toList) ∧
    (∀ name ∈ Term.renamedBinding.bound, name ∉ Term.renamedBinding.lexicallyFree) ∧
    routine.checkLifetimes = .error (.useAfterRelease "x") :=
  ⟨_, _, rfl, by decide, by decide, rfl⟩

end IsaBackend
