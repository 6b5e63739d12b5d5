import IsaBackend.Proofs.Machine.Access
import IsaBackend.Proofs.Machine.Logged
import IsaBackend.Proofs.Machine.Rules

/-!
# Tidy code is safe

Execution of tidy code moves the stack of live names the way tidiness foresees. It never breaches
the lifetime discipline, its log never releases another name than the last one allocated, and it
returns with nothing left to release.
-/

namespace IsaBackend

/-- How code may end with a stack of live names: it falls through with a condition on the stack,
leaves a loop with the stack of its entry, or returns with the empty stack. -/
def Flow.Lands (entry : Option (List String)) (post : List String → Prop) :
    Flow → List String → Prop
  | .next, live => post live
  | .leave, live => entry = some live
  | .ret _, live => live = []

/-- Every error of a call is admitted. -/
def Callees.Admit (callees : Callees) (admits : RunError → Prop) : Prop :=
  ∀ name args store cause final, callees name args store = .error cause final → admits cause

/-- The frame and the log agree on the stack of live names. -/
def Discipline.InStep (disc : Discipline) (live : List String)
    (state : Activation × List StorageEvent) : Prop :=
  state.1.frame.Follows disc live ∧ liveAfter? state.2 = some live

/-- Logged execution keeps the frame and the log in step, with a condition on how it ends and the stack
that it leaves. If it fails, the error is admitted, and every release was of the last name allocated. -/
def Logged.Keeps (disc : Discipline) (admits : RunError → Prop) (exec : Logged Flow)
    (state : Activation × List StorageEvent) (good : Flow → List String → Prop) : Prop :=
  Meets exec state (fun flow final => ∃ after, good flow after ∧ disc.InStep after final)
    fun cause final => admits cause ∧ (liveAfter? final.2).isSome

namespace Logged

variable {α β : Type} {act : Activation} {log : List StorageEvent}
  {good : α → Activation × List StorageEvent → Prop}
  {bad : RunError → Activation × List StorageEvent → Prop}

private theorem meets_silent {plain : Exec α}
    (h : Meets plain act (fun value final => good value (final, log)) fun cause final =>
      bad cause (final, log)) : Meets (silent plain) (act, log) good bad := by
  simp only [Meets, silent]
  cases hact : plain act with
  | ok value final => exact h.ok hact
  | error cause final => exact h.error hact

private theorem meets_record {event : StorageEvent} {plain : Exec α}
    (h : Meets plain act (fun value final => good value (final, event :: log)) fun cause final =>
      bad cause (final, log)) : Meets (record event plain) (act, log) good bad := by
  simp only [Meets, record]
  cases hact : plain act with
  | ok value final => exact h.ok hact
  | error cause final => exact h.error hact

private theorem meets_spend {rest : Logged α} (hstarved : bad .outOfFuel (act, log))
    (h : ∀ fuel, Meets rest ({ act with fuel }, log) good bad) :
    Meets (silent Exec.spend >>= fun _ => rest) (act, log) good bad := by
  obtain ⟨⟨registers, fuel⟩, frame⟩ := act
  cases fuel with
  | zero => exact hstarved
  | succ fuel => exact h fuel

private theorem meets_ask {question : Activation → Except RunError β} {next : β → Logged α}
    (herror : ∀ cause, question act = .error cause → bad cause (act, log))
    (hok : ∀ value, Meets (next value) (act, log) good bad) :
    Meets (silent (Exec.ask question) >>= next) (act, log) good bad := by
  have h : Meets (silent (Exec.ask question)) (act, log) (fun _ final => final = (act, log)) bad := by
    simp only [Meets, silent, Exec.ask]
    cases hanswer : question act with
    | ok value => rfl
    | error cause => exact herror cause hanswer
  refine h.bind ?_
  rintro value _ rfl
  exact hok value

end Logged

section Code

variable {disc : Discipline} {admits : RunError → Prop} {program : Program} {callees : Callees}
  {live : List String} {post : List String → Prop} {entry : Option (List String)} {act : Activation}
  {log : List StorageEvent}

/-- A step from a state that is in step fails with an admitted error. -/
private theorem admitted {α : Type} (hadmits : ∀ cause, disc.Admits cause → admits cause)
    (hlog : liveAfter? log = some live) {result : Except RunError α} {good : α → Prop}
    (h : disc.Safe result good) (cause : RunError) (hcause : result = .error cause) :
    admits cause ∧ (liveAfter? log).isSome := by
  subst hcause
  exact ⟨hadmits cause h, by simp [hlog]⟩

private theorem calm (hadmits : ∀ cause, disc.Admits cause → admits cause)
    (hlog : liveAfter? log = some live) {cause : RunError} (h : cause.isLifetime = false) :
    admits cause ∧ (liveAfter? log).isSome :=
  ⟨hadmits cause (.inl h), by simp [hlog]⟩

private theorem store_keeps (hadmits : ∀ cause, disc.Admits cause → admits cause)
    (hstate : disc.InStep live (act, log)) {dest : Place} (hdest : disc.Usable live dest.root)
    (hpost : post live) (value : Value) :
    Meets (do
        Exec.store program dest value
        return Flow.next) act
      (fun flow final => ∃ after, flow.Lands entry post after ∧ disc.InStep after (final, log))
      fun cause _ => admits cause ∧ (liveAfter? log).isSome := by
  have hsafe : disc.Safe (act.store program dest value) _ :=
    Activation.store_safe hstate.1 dest value hdest
  refine Exec.meets_store (admitted hadmits hstate.2 hsafe) fun final hfinal => ?_
  rw [hfinal] at hsafe
  exact ⟨live, hpost, hsafe, hstate.2⟩

private theorem transfer_keeps (hadmits : ∀ cause, disc.Admits cause → admits cause)
    (hstate : disc.InStep live (act, log)) {dest : Place} {value : Operand}
    (h : disc.Reads live value ∧ disc.Usable live dest.root ∧ post live) :
    Meets (do
        Exec.spend
        let value ← Exec.ask fun act => act.eval program value
        Exec.store program dest value
        return Flow.next) act
      (fun flow final => ∃ after, flow.Lands entry post after ∧ disc.InStep after (final, log))
      fun cause _ => admits cause ∧ (liveAfter? log).isSome := by
  refine Exec.meets_spend (calm hadmits hstate.2 rfl) fun fuel _ => ?_
  have hpaid : disc.InStep live ({ act with fuel }, log) := hstate
  exact Exec.meets_ask (admitted hadmits hstate.2 (Activation.eval_safe hpaid.1 h.1))
    fun value _ => store_keeps hadmits hpaid h.2.1 h.2.2 value

mutual

theorem Instr.Tidy.execLogged_keeps (hadmits : ∀ cause, disc.Admits cause → admits cause)
    (hcallees : callees.Admit admits) {entry : Option (List String)} {live : List String}
    {post : List String → Prop} {act : Activation} {log : List StorageEvent}
    (hstate : disc.InStep live (act, log)) :
    ∀ {instr : Instr}, instr.Tidy disc entry live post →
      Logged.Keeps disc admits (instr.execLogged program callees) (act, log) (Flow.Lands entry post)
  | .decl rep name, h => by
    refine Logged.meets_silent <| Exec.meets_spend (calm hadmits hstate.2 rfl)
      fun fuel _ => Exec.meets_changeFrame nofun ?_
    rintro _ ⟨⟩
    exact ⟨live, h.2, hstate.1.bind (fun hm => h.1 (hstate.1.owned name hm)) rep _, hstate.2⟩
  | .alloc rep name, h => by
    obtain ⟨next, hnext, hfollows⟩ := hstate.1.allocate h.2.1 h.1 rep rep.initial
    refine Logged.meets_record <| Exec.meets_spend (calm hadmits hstate.2 rfl)
      fun fuel _ => Exec.meets_changeFrame (fun cause hcause => ?_) fun frame hframe => ?_
    · cases hnext.symm.trans hcause
    · cases hnext.symm.trans hframe
      exact ⟨name :: live, h.2.2, hfollows, liveAfter?_allocate hstate.2 name⟩
  | .init rep name operand, h => by
    refine Logged.meets_record <| Exec.meets_spend (calm hadmits hstate.2 rfl) fun fuel _ => ?_
    have hpaid : disc.InStep live ({ act with fuel }, log) := hstate
    refine Exec.meets_ask (admitted hadmits hstate.2 <|
      (Activation.eval_safe hpaid.1 h.1).bind fun value _ =>
        (Exec.initialiser_calm rep value).safe.bind fun value _ =>
          (rep.conform_calm value).safe) fun value _ => ?_
    obtain ⟨next, hnext, hfollows⟩ := hstate.1.allocate h.2.2.1 h.2.1 rep value
    refine Exec.meets_changeFrame (fun cause hcause => ?_) fun frame hframe => ?_
    · cases hnext.symm.trans hcause
    · cases hnext.symm.trans hframe
      exact ⟨name :: live, h.2.2.2, hfollows, liveAfter?_allocate hstate.2 name⟩
  | .release _ name, ⟨rest, hlive, hpost⟩ => by
    subst hlive
    obtain ⟨next, hnext, hfollows⟩ := hstate.1.release
    refine Logged.meets_record <| Exec.meets_spend (calm hadmits hstate.2 rfl)
      fun fuel _ => Exec.meets_changeFrame (fun cause hcause => ?_) fun frame hframe => ?_
    · cases hnext.symm.trans hcause
    · cases hnext.symm.trans hframe
      exact ⟨rest, hpost, hfollows, liveAfter?_release hstate.2⟩
  | .branch test onTrue onFalse _, h => by
    refine Logged.meets_spend (calm hadmits hstate.2 rfl) fun fuel => ?_
    have hpaid : disc.InStep live ({ act with fuel }, log) := hstate
    refine Logged.meets_ask (admitted hadmits hstate.2 (Activation.eval_safe hpaid.1 h.1))
      fun value => ?_
    cases value with
    | bool test =>
      cases test with
      | true => exact Instr.TidyAll.execAllLogged_keeps hadmits hcallees hpaid h.2.1
      | false => exact Instr.TidyAll.execAllLogged_keeps hadmits hcallees hpaid h.2.2
    | _ => exact calm hadmits hstate.2 rfl
  | .loop body, h => by
    refine Logged.meets_spend (calm hadmits hstate.2 rfl) fun fuel => ?_
    have hpaid : disc.InStep live ({ act with fuel }, log) := hstate
    split
    · exact calm hadmits hstate.2 rfl
    · refine Exec.meets_iterate (disc.InStep live)
        (fun state hround => calm hadmits hround.2 rfl) (fun state hround => ?_)
        _ _ hpaid
      refine (Instr.TidyAll.execAllLogged_keeps hadmits hcallees hround h.1).mono ?_
      rintro flow final ⟨after, hlands, hfinal⟩
      cases flow with
      | next =>
        obtain rfl : after = live := hlands
        exact hfinal
      | leave =>
        cases hlands
        exact ⟨live, h.2, hfinal⟩
      | ret value => exact ⟨after, hlands, hfinal⟩
  | .call dest callee args, h => by
    refine Logged.meets_silent <| Exec.meets_spend (calm hadmits hstate.2 rfl)
      fun fuel _ => ?_
    have hpaid : disc.InStep live ({ act with fuel }, log) := hstate
    refine Exec.meets_ask (admitted hadmits hstate.2 (Activation.evalAll_safe hpaid.1 h.1))
      fun values _ => Exec.meets_outside <| .intro (fun result store _ => ?_)
        fun cause store hcause => ⟨hcallees callee values _ cause store hcause, by simp [hstate.2]⟩
    have hback : disc.InStep live (⟨store, act.frame⟩, log) := hstate
    exact store_keeps hadmits hback h.2.1 h.2.2 result
  | .convert _ _, h => Logged.meets_silent (transfer_keeps hadmits hstate h)
  | .assign _ _, h => Logged.meets_silent (transfer_keeps hadmits hstate h)
  | .copy _ _, h => Logged.meets_silent (transfer_keeps hadmits hstate h)
  | .ret operand, h => by
    refine Logged.meets_silent <| Exec.meets_spend (calm hadmits hstate.2 rfl)
      fun fuel _ => ?_
    have hpaid : disc.InStep live ({ act with fuel }, log) := hstate
    exact Exec.meets_ask (admitted hadmits hstate.2 (Activation.eval_safe hpaid.1 h.1))
      fun value _ => ⟨live, h.2, hpaid⟩
  | .comment _, h => Logged.meets_silent <|
    Exec.meets_spend (calm hadmits hstate.2 rfl) fun _ _ => ⟨live, h, hstate⟩
  | .leave, h => Logged.meets_silent <|
    Exec.meets_spend (calm hadmits hstate.2 rfl) fun _ _ => ⟨live, h, hstate⟩

/-- Logged execution of tidy code keeps the frame and the log in step. -/
theorem Instr.TidyAll.execAllLogged_keeps (hadmits : ∀ cause, disc.Admits cause → admits cause)
    (hcallees : callees.Admit admits) {entry : Option (List String)} {live : List String}
    {post : List String → Prop} {state : Activation × List StorageEvent}
    (hstate : disc.InStep live state) :
    ∀ {code : List Instr}, Instr.TidyAll disc entry live code post →
      Logged.Keeps disc admits (Instr.execAllLogged program callees code) state
        (Flow.Lands entry post)
  | [], h => ⟨live, h, hstate⟩
  | instr :: rest, h => by
    refine Meets.bind (Instr.Tidy.execLogged_keeps hadmits hcallees hstate h) ?_
    rintro flow final ⟨after, hlands, hfinal⟩
    cases flow with
    | next => exact Instr.TidyAll.execAllLogged_keeps hadmits hcallees hfinal hlands
    | leave => exact ⟨after, hlands, hfinal⟩
    | ret value => exact ⟨after, hlands, hfinal⟩

end

end Code

/-- A body that is tidy from the empty stack on, in a discipline whose errors are admitted. If it
can fall through, the missing return is admitted as well. -/
structure Routine.Sound (admits : RunError → Prop) (routine : Routine) (disc : Discipline)
    (post : List String → Prop) : Prop where
  admitted : ∀ cause, disc.Admits cause → admits cause
  tidy : Instr.TidyAll disc none [] routine.body post
  result : disc.Usable [] Routine.resultParam
  missing : ∀ live, post live → admits (.noReturn routine.name)

section Routines

variable {disc : Discipline} {admits : RunError → Prop} {program : Program} {callees : Callees}
  {routine : Routine}

private theorem Routine.bindParams_follows {frame next : Frame} {params : List (String × Rep)}
    {args : List Value} (hframe : frame.Follows disc [])
    (h : Routine.bindParams frame params args = .ok next) : next.Follows disc [] := by
  induction params generalizing frame args with
  | nil =>
    cases h
    exact hframe
  | cons param params ih =>
    obtain ⟨name, rep⟩ := param
    cases args with
    | nil =>
      cases h
      exact hframe
    | cons arg args =>
      obtain ⟨value, _, h⟩ := except_bind_eq_ok.mp h
      exact ih (hframe.bind List.not_mem_nil rep value) h

private theorem Routine.entryFrame_follows {args : List Value} {frame : Frame}
    (h : routine.entryFrame args = .ok frame) : frame.Follows disc [] := by
  unfold Routine.entryFrame at h
  split at h
  · cases h
  · obtain ⟨bound, hbound, h⟩ := except_bind_eq_ok.mp h
    have hfollows : bound.Follows disc [] :=
      Routine.bindParams_follows Frame.follows_empty hbound
    split at h
    · cases h
      exact hfollows.bind List.not_mem_nil _ _
    · cases h
      exact hfollows

private theorem Routine.Sound.exitValue_safe {post : List String → Prop}
    (h : routine.Sound admits disc post) {frame : Frame} {live : List String} {flow : Flow}
    (hlands : flow.Lands none post live) (hframe : frame.Follows disc live) :
    match routine.exitValue frame flow with
    | .ok _ => live = []
    | .error cause => admits cause := by
  cases flow with
  | next => exact h.missing live hlands
  | leave => cases hlands
  | ret value =>
    have hlive : live = [] := hlands
    subst hlive
    simp only [Routine.exitValue, hframe.firstLeak?_eq_none]
    have hsafe : disc.Safe (if routine.returnsByReference then frame.read Routine.resultParam
        else routine.result.conform value) fun _ => True := by
      split
      · exact hframe.read_safe h.result
      · exact (routine.result.conform_calm value).safe
    split
    · trivial
    · rename_i cause hcause
      rw [hcause] at hsafe
      exact h.admitted cause hsafe

/-- A run of a sound routine releases what was allocated last first, and if it returns, everything
that it allocated. If it fails, the error is admitted. -/
theorem Routine.Sound.runLogged_safe {post : List String → Prop}
    (h : routine.Sound admits disc post) (program : Program) (hcallees : callees.Admit admits)
    (args : List Value) (store : Store) :
    match routine.runLogged program callees args store with
    | (.ok _ _, log) => liveAfter? log = some []
    | (.error cause _, log) => admits cause ∧ (liveAfter? log).isSome := by
  unfold Routine.runLogged
  cases hentry : routine.entryFrame args with
  | error cause =>
    exact ⟨h.admitted cause (.inl (routine.entryFrame_calm args cause hentry)), rfl⟩
  | ok frame =>
    have hstart : disc.InStep [] (({ store with frame } : Activation), []) :=
      ⟨Routine.entryFrame_follows hentry, rfl⟩
    have hbody : Logged.Keeps disc admits (Instr.execAllLogged program callees routine.body) _ _ :=
      h.tidy.execAllLogged_keeps h.admitted hcallees hstart
    simp only
    cases hrun : Instr.execAllLogged program callees routine.body ({ store with frame }, []) with
    | error cause state =>
      have hfailed := Meets.error hbody hrun
      exact hfailed
    | ok flow state =>
      obtain ⟨live, hlands, hframe, hlog⟩ := Meets.ok hbody hrun
      have hexit := h.exitValue_safe hlands hframe
      simp only
      cases hvalue : routine.exitValue state.1.frame flow with
      | error cause =>
        rw [hvalue] at hexit
        exact ⟨hexit, by simp [hlog]⟩
      | ok value =>
        rw [hvalue] at hexit
        have hlive : live = [] := hexit
        subst hlive
        exact hlog

/-- A call in a program of sound routines fails only with admitted errors. -/
theorem Program.invoke_admit (hcalm : ∀ cause : RunError, cause.isLifetime = false → admits cause)
    (h : ∀ routine ∈ program.routines, ∃ disc post, routine.Sound admits disc post) :
    ∀ depth, Callees.Admit (program.invoke depth) admits
  | 0, _, _, _, _, _, hrun => by
    cases hrun
    exact hcalm _ rfl
  | depth + 1, name, args, store, cause, final, hrun => by
    cases hroutine : program.routine? name with
    | some routine =>
      simp only [Program.invoke, hroutine] at hrun
      obtain ⟨disc, post, hsound⟩ := h routine (List.mem_of_find?_eq_some hroutine)
      have hsafe := hsound.runLogged_safe program (Program.invoke_admit hcalm h depth) args store
      rw [← Routine.runLogged_fst] at hrun
      split at hsafe
      · rename_i hlogged
        rw [hlogged] at hrun
        cases hrun
      · rename_i hlogged
        rw [hlogged] at hrun
        cases hrun
        exact hsafe.1
    | none =>
      simp only [Program.invoke, hroutine] at hrun
      cases hpayload : program.payload? name with
      | some payload =>
        simp only [hpayload] at hrun
        exact hcalm cause (Program.construct_calm _ _ _ cause (lift_eq_error.mp hrun).1)
      | none =>
        simp only [hpayload] at hrun
        cases hresult : Primitive.call? name args with
        | some result =>
          simp only [hresult] at hrun
          obtain ⟨primitive, _, rfl⟩ := Option.map_eq_some_iff.mp hresult
          exact hcalm cause (Primitive.apply_calm _ _ _ cause (lift_eq_error.mp hrun).1)
        | none =>
          simp only [hresult] at hrun
          cases hrun
          exact hcalm _ rfl

theorem Machine.call_admit {machine : Machine}
    (hcalm : ∀ cause : RunError, cause.isLifetime = false → admits cause)
    (h : ∀ routine ∈ machine.program.routines, ∃ disc post, routine.Sound admits disc post)
    {name : String} {args : List Value} {cause : RunError}
    (hcall : (machine.call name args).1 = .error cause) : admits cause := by
  unfold Machine.call at hcall
  split at hcall
  · cases hcall
  · rename_i hrun
    cases hcall
    exact Program.invoke_admit hcalm h _ _ _ _ _ _ hrun

end Routines

end IsaBackend
