import IsaBackend.Proofs.Machine.Stores

/-!
# Rules for executions

What an execution ends with is found step by step, from the front: one rule for each step that an
instruction can make.
-/

namespace IsaBackend

variable {ε σ α β : Type}

/-- What a computation ends with meets one condition if it succeeds, and another one if it fails. -/
def Meets (act : EStateM ε σ α) (state : σ) (good : α → σ → Prop) (bad : ε → σ → Prop) : Prop :=
  match act state with
  | .ok value final => good value final
  | .error cause final => bad cause final

namespace Meets

variable {act : EStateM ε σ α} {next : α → EStateM ε σ β} {state : σ} {good better : α → σ → Prop}
  {best : β → σ → Prop} {bad : ε → σ → Prop}

theorem ok {value : α} {final : σ} (h : Meets act state good bad) (hact : act state = .ok value final) :
    good value final := by
  rwa [Meets, hact] at h

theorem error {cause : ε} {final : σ} (h : Meets act state good bad)
    (hact : act state = .error cause final) : bad cause final := by
  rwa [Meets, hact] at h

theorem intro (hok : ∀ value final, act state = .ok value final → good value final)
    (herror : ∀ cause final, act state = .error cause final → bad cause final) :
    Meets act state good bad := by
  unfold Meets
  cases hact : act state with
  | ok value final => exact hok value final hact
  | error cause final => exact herror cause final hact

private theorem of_error {cause : ε} {final : σ} (hact : act state = .error cause final)
    (h : bad cause final) : Meets act state good bad := by
  rwa [Meets, hact]

protected theorem pure {value : α} (h : good value state) :
    Meets (pure value : EStateM ε σ α) state good bad := h

protected theorem throw {cause : ε} (h : bad cause state) :
    Meets (throw cause : EStateM ε σ α) state good bad := h

protected theorem bind (h : Meets act state good bad)
    (hnext : ∀ value final, good value final → Meets (next value) final best bad) :
    Meets (act >>= next) state best bad := by
  cases hact : act state with
  | ok value final =>
    rw [Meets, bind_of_ok hact]
    exact hnext value final (h.ok hact)
  | error cause final => exact of_error (bind_of_error hact) (h.error hact)

private theorem imp {worse : ε → σ → Prop} (h : Meets act state good bad)
    (hgood : ∀ value final, good value final → better value final)
    (hbad : ∀ cause final, bad cause final → worse cause final) : Meets act state better worse :=
  intro (fun value final hact => hgood value final (h.ok hact)) fun cause final hact =>
    hbad cause final (h.error hact)

theorem mono (h : Meets act state good bad)
    (himp : ∀ value final, good value final → better value final) : Meets act state better bad :=
  h.imp himp fun _ _ hbad => hbad

end Meets

namespace Exec

variable {act : Activation} {good : β → Activation → Prop} {bad : RunError → Activation → Prop}

private theorem meets_pay {rest : Exec β} (hstarved : act.fuel = 0 → bad .outOfFuel act)
    (h : ∀ fuel, act.fuel = fuel + 1 → Meets rest { act with fuel } good bad) :
    Meets (spend >>= fun _ => rest) act good bad := by
  obtain ⟨⟨registers, fuel⟩, frame⟩ := act
  cases fuel with
  | zero => exact hstarved rfl
  | succ fuel => exact h fuel rfl

theorem meets_spend {rest : Exec β} (hstarved : bad .outOfFuel act)
    (h : ∀ fuel, act.fuel = fuel + 1 → Meets rest { act with fuel } good bad) :
    Meets (spend >>= fun _ => rest) act good bad :=
  meets_pay (fun _ => hstarved) h

theorem meets_ask {question : Activation → Except RunError α} {next : α → Exec β}
    (herror : ∀ cause, question act = .error cause → bad cause act)
    (hok : ∀ value, question act = .ok value → Meets (next value) act good bad) :
    Meets (ask question >>= next) act good bad := by
  cases hanswer : question act with
  | ok value =>
    rw [Meets, bind_of_ok (ask_of_ok hanswer)]
    exact hok value hanswer
  | error cause => exact .of_error (bind_of_error (ask_of_error hanswer)) (herror cause hanswer)

private theorem meets_change {update : Activation → Except RunError Activation} {rest : Exec β}
    (herror : ∀ cause, update act = .error cause → bad cause act)
    (hok : ∀ final, update act = .ok final → Meets rest final good bad) :
    Meets (change update >>= fun _ => rest) act good bad := by
  cases hanswer : update act with
  | ok final =>
    rw [Meets, bind_of_ok (change_of_ok hanswer)]
    exact hok final hanswer
  | error cause => exact .of_error (bind_of_error (change_of_error hanswer)) (herror cause hanswer)

theorem meets_store {program : Program} {dest : Place} {value : Value} {rest : Exec β}
    (herror : ∀ cause, act.store program dest value = .error cause → bad cause act)
    (hok : ∀ final, act.store program dest value = .ok final → Meets rest final good bad) :
    Meets (store program dest value >>= fun _ => rest) act good bad := by
  rw [store_eq_change]
  exact meets_change herror hok

theorem changeFrame_of_ok {update : Frame → Except RunError Frame} {frame : Frame}
    (h : update act.frame = .ok frame) : changeFrame update act = .ok () { act with frame } :=
  change_of_ok (by rw [h]; rfl)

theorem changeFrame_of_error {update : Frame → Except RunError Frame} {cause : RunError}
    (h : update act.frame = .error cause) : changeFrame update act = .error cause act :=
  change_of_error (by rw [h]; rfl)

theorem meets_changeFrame {update : Frame → Except RunError Frame} {rest : Exec β}
    (herror : ∀ cause, update act.frame = .error cause → bad cause act)
    (hok : ∀ frame, update act.frame = .ok frame → Meets rest { act with frame } good bad) :
    Meets (changeFrame update >>= fun _ => rest) act good bad := by
  cases hanswer : update act.frame with
  | ok frame =>
    rw [Meets, bind_of_ok (changeFrame_of_ok hanswer)]
    exact hok frame hanswer
  | error cause =>
    exact .of_error (bind_of_error (changeFrame_of_error hanswer)) (herror cause hanswer)

theorem outside_of_ok {call : EStateM RunError Store α} {value : α} {store : Store}
    (h : call act.toStore = .ok value store) :
    outside call act = .ok value { act with toStore := store } := by
  simp only [outside, h]

theorem outside_of_error {call : EStateM RunError Store α} {cause : RunError} {store : Store}
    (h : call act.toStore = .error cause store) :
    outside call act = .error cause { act with toStore := store } := by
  simp only [outside, h]

theorem meets_outside {call : EStateM RunError Store α} {next : α → Exec β}
    (h : Meets call act.toStore
      (fun value store => Meets (next value) { act with toStore := store } good bad)
      fun cause store => bad cause { act with toStore := store }) :
    Meets (outside call >>= next) act good bad := by
  cases hcall : call act.toStore with
  | ok value store =>
    rw [Meets, bind_of_ok (outside_of_ok hcall)]
    exact h.ok hcall
  | error cause store => exact .of_error (bind_of_error (outside_of_error hcall)) (h.error hcall)

end Exec

/-- What a round of a loop ends with: the start of another round, or the end of the loop. -/
def Flow.Round (start : σ → Prop) (good : Flow → σ → Prop) : Flow → σ → Prop
  | .next, state => start state
  | .leave, state => good .next state
  | .ret value, state => good (.ret value) state

theorem Exec.meets_iterate {body : EStateM RunError σ Flow} (start : σ → Prop)
    {good : Flow → σ → Prop} {bad : RunError → σ → Prop}
    (hstarved : ∀ state, start state → bad .outOfFuel state)
    (hbody : ∀ state, start state → Meets body state (Flow.Round start good) bad) :
    ∀ rounds state, start state → Meets (iterate body rounds) state good bad
  | 0, state, hstart => hstarved state hstart
  | rounds + 1, state, hstart => by
    refine (hbody state hstart).bind fun flow final hfinal => ?_
    cases flow with
    | next => exact meets_iterate start hstarved hbody rounds final hfinal
    | leave => exact hfinal
    | ret value => exact hfinal

/-- A routine ends as its body does, unless its locals at the start or its value at the end fail. -/
theorem Routine.meets_run {program : Program} {callees : Callees} {routine : Routine}
    {args : List Value} {store : Store} {good : Value → Store → Prop} {bad : RunError → Store → Prop}
    (hentry : ∀ cause, routine.entryFrame args = .error cause → bad cause store)
    (hbody : ∀ frame, routine.entryFrame args = .ok frame →
      Meets (Instr.execAll program callees routine.body) { store with frame }
        (fun flow final =>
          (∀ cause, routine.exitValue final.frame flow = .error cause → bad cause final.toStore) ∧
          ∀ value, routine.exitValue final.frame flow = .ok value → good value final.toStore)
        fun cause final => bad cause final.toStore) :
    Meets (routine.run program callees args) store good bad := by
  unfold Meets Routine.run
  cases hframe : routine.entryFrame args with
  | error cause => exact hentry cause hframe
  | ok frame =>
    have hmeets := hbody frame hframe
    simp only
    cases hexec : Instr.execAll program callees routine.body { store with frame } with
    | error cause final => exact hmeets.error hexec
    | ok flow final =>
      obtain ⟨herror, hok⟩ := hmeets.ok hexec
      simp only
      cases hexit : routine.exitValue final.frame flow with
      | error cause => exact herror cause hexit
      | ok value => exact hok value hexit

end IsaBackend
