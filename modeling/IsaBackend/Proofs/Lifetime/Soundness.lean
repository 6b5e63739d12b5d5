import IsaBackend.Proofs.Lifetime.Acceptance
import IsaBackend.Proofs.Machine.Safety

/-!
# The lifetime check is sound

Routines that pass the lifetime check pair their allocations with releases when they run, whatever
the arguments, the registers and the fuel: nothing is allocated twice, released twice, released
without having been allocated or left behind, and what was allocated last is released first.
-/

namespace IsaBackend

/-- Whether an error reports an allocation and a release that do not pair up. -/
def RunError.breaksPairing : RunError → Bool
  | doubleAlloc _ => true
  | unallocated _ => true
  | doubleRelease _ => true
  | leak _ _ => true
  | _ => false

theorem RunError.breaksPairing_of_isLifetime {cause : RunError} (h : cause.isLifetime = false) :
    cause.breaksPairing = false := by
  cases cause <;> simp_all [RunError.isLifetime, RunError.breaksPairing]

namespace Routine

private theorem settled_of_forM {states : List PathState}
    (h : (states.forM fun state => state.settled .leakAtEnd) = .ok ()) :
    ∀ state ∈ states, state.live = [] := by
  induction states with
  | nil => simp
  | cons first rest ih =>
    obtain ⟨_, hfirst, hrest⟩ := except_bind_eq_ok.mp h
    intro state hs
    rcases List.mem_cons.mp hs with rfl | hs
    · exact PathState.live_of_settled hfirst
    · exact ih hrest state hs

/-- A routine that passes the check is tidy from the empty stack on, and ends with it. -/
theorem tidy_of_checkLifetimes {routine : Routine} (hcheck : routine.checkLifetimes = .ok ())
    (hsep : routine.Separates) :
    Instr.TidyAll (routine.discipline False) none [] routine.body (· = []) := by
  obtain ⟨ends, hends, hsettled⟩ := except_bind_eq_ok.mp hcheck
  have htidy := Instr.tidyAll_of_followAll (fun hw => hw)
    (fun states state hs => PathState.mem_distinct.mpr hs) (hsep.covers False) hends {} (by simp)
  refine htidy.mono ?_
  rintro live ⟨state, hs, rfl⟩
  exact settled_of_forM hsettled state hs

private theorem sound_of_checkLifetimes {routine : Routine}
    (hcheck : routine.checkLifetimes = .ok ()) (hsep : routine.Separates) :
    routine.Sound (·.breaksPairing = false) (routine.discipline False) (· = []) where
  admitted := by
    rintro cause (hcalm | ⟨_, name, rfl⟩)
    · exact RunError.breaksPairing_of_isLifetime hcalm
    · rfl
  tidy := tidy_of_checkLifetimes hcheck hsep
  result := fun hw => hw.elim
  missing := fun _ _ => rfl

end Routine

/-- In a program whose routines pass the lifetime check, no call ends in an allocation and a
release that do not pair up. Each activation releases what it allocated last first, and has
released everything when it returns. -/
theorem Program.checked_calls_pair (program : Program)
    (hcheck : ∀ routine ∈ program.routines, routine.checkLifetimes = .ok ())
    (hsep : ∀ routine ∈ program.routines, routine.Separates) :
    (∀ registers fuel name args cause,
      (Machine.call ⟨program, registers, fuel⟩ name args).1 = .error cause →
        cause.breaksPairing = false) ∧
    ∀ routine ∈ program.routines, ∀ depth args store result log,
      routine.runLogged program (program.invoke depth) args store = (result, log) →
        routine.run program (program.invoke depth) args store = result ∧
        (liveAfter? log).isSome ∧
        ∀ value final, result = .ok value final → liveAfter? log = some [] := by
  have hsound : ∀ routine ∈ program.routines, ∃ disc post,
      routine.Sound (·.breaksPairing = false) disc post := fun routine hr =>
    ⟨_, _, Routine.sound_of_checkLifetimes (hcheck routine hr) (hsep routine hr)⟩
  have hcalm : ∀ cause : RunError, cause.isLifetime = false → cause.breaksPairing = false :=
    fun _ => RunError.breaksPairing_of_isLifetime
  refine ⟨fun registers fuel name args cause hcall => Machine.call_admit hcalm hsound hcall, ?_⟩
  intro routine hr depth args store result log hlogged
  have hrun := routine.runLogged_fst program (program.invoke depth) args store
  have hroutine := Routine.sound_of_checkLifetimes (hcheck routine hr) (hsep routine hr)
  have hsafe := hroutine.runLogged_safe program (Program.invoke_admit hcalm hsound depth) args store
  rw [hlogged] at hrun hsafe
  refine ⟨hrun.symm, ?_⟩
  cases result with
  | ok value final =>
    have hlog : liveAfter? log = some [] := hsafe
    exact ⟨by simp [hlog], fun _ _ _ => hlog⟩
  | error cause final => exact ⟨hsafe.2, fun _ _ h => by cases h⟩

/-- A loop that allocates in every round, and returns from inside. -/
def Program.waiting : Program where
  items := [.routine {
    name := "wait"
    params := [("done", .bool)]
    result := .unit
    body := [.loop [
      .alloc .bigInt "tick",
      .branch (.name "done" .bool)
        [.release .bigInt "tick", .ret .unit]
        [.release .bigInt "tick"]
        .unit]] }]

theorem Program.waiting_calls_pair :
    (∀ routine ∈ Program.waiting.routines,
      routine.checkLifetimes = .ok () ∧ routine.Separates) ∧
    ∀ registers fuel args cause,
      (Machine.call ⟨Program.waiting, registers, fuel⟩ "wait" args).1 = .error cause →
        cause.breaksPairing = false := by
  have hcheck : ∀ routine ∈ Program.waiting.routines, routine.checkLifetimes = .ok () :=
    List.forall_mem_singleton.mpr rfl
  have hsep : ∀ routine ∈ Program.waiting.routines, routine.Separates :=
    List.forall_mem_singleton.mpr (by decide)
  exact ⟨fun routine hr => ⟨hcheck routine hr, hsep routine hr⟩, fun registers fuel args cause =>
    (Program.checked_calls_pair _ hcheck hsep).1 registers fuel "wait" args cause⟩

end IsaBackend
