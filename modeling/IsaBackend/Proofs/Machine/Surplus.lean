import IsaBackend.Proofs.Machine.Costs

/-!
# Surplus fuel

Fuel only cuts runs off. A run that ends in any other way than by running out of fuel ends in the same
way from more fuel, with the same registers, and has the surplus left. Loops and calls are the only
places that look at the fuel, to bound their rounds and their depth; a larger bound changes nothing.
-/

namespace IsaBackend

open Fueled (fill)

section Computations

variable {σ α β : Type} {more : σ → σ}

/-- One computation does from a state with more fuel what another does without, unless the other one
runs out of fuel. -/
def Outlasts (more : σ → σ) (act longer : EStateM RunError σ α) : Prop :=
  ∀ state,
    (∀ value final, act state = .ok value final → longer (more state) = .ok value (more final)) ∧
    ∀ cause final, act state = .error cause final → cause ≠ .outOfFuel →
      longer (more state) = .error cause (more final)

namespace Outlasts

private theorem ended {value : α} {final : σ} {longer : EStateM.Result RunError σ α}
    (h : longer = .ok value (more final)) :
    (∀ given last, (.ok value final : EStateM.Result RunError σ α) = .ok given last →
      longer = .ok given (more last)) ∧
    ∀ cause last, (.ok value final : EStateM.Result RunError σ α) = .error cause last →
      cause ≠ .outOfFuel → longer = .error cause (more last) := by
  constructor
  · rintro _ _ ⟨⟩
    exact h
  · rintro _ _ ⟨⟩

private theorem failed {cause : RunError} {final : σ} {longer : EStateM.Result RunError σ α}
    (h : cause ≠ .outOfFuel → longer = .error cause (more final)) :
    (∀ given last, (.error cause final : EStateM.Result RunError σ α) = .ok given last →
      longer = .ok given (more last)) ∧
    ∀ other last, (.error cause final : EStateM.Result RunError σ α) = .error other last →
      other ≠ .outOfFuel → longer = .error other (more last) := by
  constructor
  · rintro _ _ ⟨⟩
  · rintro _ _ ⟨⟩
    exact h

protected theorem pure (value : α) : Outlasts more (pure value) (pure value) :=
  fun _ => ended rfl

protected theorem throw (cause : RunError) :
    Outlasts more (throw cause : EStateM RunError σ α) (throw cause) :=
  fun _ => failed fun _ => rfl

/-- A computation that runs out of fuel at once is outlasted by any other. -/
theorem starved (longer : EStateM RunError σ α) :
    Outlasts more (throw .outOfFuel) longer :=
  fun _ => failed fun hcause => absurd rfl hcause

protected theorem lift (result : Except RunError α) : Outlasts more (lift result) (lift result) := by
  cases result with
  | ok value => exact .pure value
  | error cause => exact .throw cause

protected theorem bind {act longer : EStateM RunError σ α} {next longerNext : α → EStateM RunError σ β}
    (h : Outlasts more act longer) (hnext : ∀ value, Outlasts more (next value) (longerNext value)) :
    Outlasts more (act >>= next) (longer >>= longerNext) := by
  intro state
  obtain ⟨hok, herror⟩ := h state
  cases hact : act state with
  | ok value middle =>
    rw [bind_of_ok hact, bind_of_ok (hok value middle hact)]
    exact hnext value middle
  | error cause final =>
    rw [bind_of_error hact]
    exact failed fun hcause => bind_of_error (herror cause final hact hcause)

private theorem iterate {body longer : EStateM RunError σ Flow} (h : Outlasts more body longer) :
    ∀ {rounds moreRounds : Nat}, rounds ≤ moreRounds →
      Outlasts more (Exec.iterate body rounds) (Exec.iterate longer moreRounds)
  | 0, _, _ => starved _
  | _ + 1, 0, hle => absurd hle (by omega)
  | rounds + 1, moreRounds + 1, hle => by
    refine h.bind fun flow => ?_
    cases flow with
    | next => exact iterate h (by omega)
    | leave => exact .pure _
    | ret value => exact .pure _

end Outlasts

end Computations

def Store.topUp (extra : Nat) (store : Store) : Store := { store with fuel := store.fuel + extra }

def Activation.topUp (extra : Nat) (act : Activation) : Activation :=
  { act with fuel := act.fuel + extra }

def Callees.Outlast (extra : Nat) (callees longer : Callees) : Prop :=
  ∀ name args, Outlasts (Store.topUp extra) (callees name args) (longer name args)

section Steps

variable {extra : Nat} {α : Type}

private theorem Exec.spend_outlasts : Outlasts (Activation.topUp extra) Exec.spend Exec.spend := by
  intro act
  cases hfuel : act.fuel with
  | zero =>
    have hspend : Exec.spend act = .error .outOfFuel act := by simp only [Exec.spend, hfuel]
    rw [hspend]
    exact Outlasts.failed fun hcause => absurd rfl hcause
  | succ left =>
    have hspend : Exec.spend act = .ok () { act with fuel := left } := by
      simp only [Exec.spend, hfuel]
    have hmore : Exec.spend (act.topUp extra) =
        .ok () (Activation.topUp extra { act with fuel := left }) := by
      have hadd : left + 1 + extra = (left + extra) + 1 := by omega
      simp only [Exec.spend, Activation.topUp, hfuel, hadd]
    rw [hspend, hmore]
    exact Outlasts.ended rfl

private theorem Exec.ask_outlasts {question : Activation → Except RunError α}
    (h : ∀ act fuel, question (fill act fuel) = question act) :
    Outlasts (Activation.topUp extra) (Exec.ask question) (Exec.ask question) := by
  intro act
  have hsame : question (act.topUp extra) = question act := h act (act.fuel + extra)
  simp only [Exec.ask, hsame]
  cases question act with
  | ok value => exact Outlasts.pure value act
  | error cause => exact Outlasts.throw cause act

private theorem Exec.change_outlasts {update : Activation → Except RunError Activation}
    (h : ∀ act fuel, update (fill act fuel) = (fun next => fill next fuel) <$> update act)
    (hfuel : ∀ act next, update act = .ok next → next.fuel = act.fuel) :
    Outlasts (Activation.topUp extra) (Exec.change update) (Exec.change update) := by
  intro act
  have hmore : update (act.topUp extra) = _ := h act (act.fuel + extra)
  simp only [Exec.change, hmore]
  cases hupdate : update act with
  | ok next =>
    have hkept := hfuel act next hupdate
    refine Outlasts.ended ?_
    change EStateM.Result.ok () (fill next (act.fuel + extra)) = _
    rw [← hkept]
    rfl
  | error cause => exact Outlasts.throw cause act

private theorem Exec.changeFrame_outlasts (update : Frame → Except RunError Frame) :
    Outlasts (Activation.topUp extra) (Exec.changeFrame update) (Exec.changeFrame update) := by
  refine Exec.change_outlasts (fun act fuel => ?_) fun act next hnext => ?_
  · change (update act.frame >>= _) = _ <$> (update act.frame >>= _)
    cases update act.frame <;> rfl
  · obtain ⟨frame, _, hpure⟩ := except_bind_eq_ok.mp hnext
    cases hpure
    rfl

private theorem Exec.store_outlasts (program : Program) (dest : Place) (value : Value) :
    Outlasts (Activation.topUp extra) (Exec.store program dest value)
      (Exec.store program dest value) := by
  rw [Exec.store_eq_change]
  exact Exec.change_outlasts (fun _ fuel => Activation.store_fill fuel dest value)
    fun _ _ => Activation.store_fuel

private theorem Exec.outside_outlasts {call longer : EStateM RunError Store α}
    (h : Outlasts (Store.topUp extra) call longer) :
    Outlasts (Activation.topUp extra) (Exec.outside call) (Exec.outside longer) := by
  intro act
  obtain ⟨hok, herror⟩ := h act.toStore
  have htop : (act.topUp extra).toStore = act.toStore.topUp extra := rfl
  simp only [Exec.outside, htop]
  cases hcall : call act.toStore with
  | ok value store =>
    rw [hok value store hcall]
    exact Outlasts.ended rfl
  | error cause store =>
    refine Outlasts.failed fun hcause => ?_
    rw [herror cause store hcall hcause]
    rfl

/-- A loop is bounded by the fuel at its start, and more fuel bounds it less. -/
theorem Exec.loop_outlasts {body longer : Exec Flow}
    (h : Outlasts (Activation.topUp extra) body longer) :
    Outlasts (Activation.topUp extra) (get >>= fun act => Exec.iterate body (act.fuel + 1))
      (get >>= fun act => Exec.iterate longer (act.fuel + 1)) := by
  intro act
  rw [bind_of_ok (get_apply act), bind_of_ok (get_apply (act.topUp extra))]
  exact h.iterate (show act.fuel + 1 ≤ act.fuel + extra + 1 by omega) act

end Steps

section Code

variable {extra : Nat} {program : Program} {callees longer : Callees}

private theorem move_outlasts (dest : Place) (operand : Operand) :
    Outlasts (Activation.topUp extra) (do
        let value ← Exec.ask fun act => act.eval program operand
        Exec.store program dest value
        return Flow.next) (do
        let value ← Exec.ask fun act => act.eval program operand
        Exec.store program dest value
        return Flow.next) :=
  (Exec.ask_outlasts fun _ fuel => Activation.eval_fill fuel operand).bind fun value =>
    (Exec.store_outlasts program dest value).bind fun _ => .pure _

mutual

/-- An instruction does the same from more fuel, if the calls in it do. -/
theorem Instr.exec_outlasts (h : callees.Outlast extra longer) :
    ∀ instr : Instr, Outlasts (Activation.topUp extra) (instr.exec program callees)
      (instr.exec program longer)
  | .decl _ _ => Exec.spend_outlasts.bind fun _ =>
    (Exec.changeFrame_outlasts _).bind fun _ => .pure _
  | .alloc _ _ => Exec.spend_outlasts.bind fun _ =>
    (Exec.changeFrame_outlasts _).bind fun _ => .pure _
  | .init rep name operand => by
    refine Exec.spend_outlasts.bind fun _ => (Exec.ask_outlasts fun act fuel => ?_).bind fun _ =>
      (Exec.changeFrame_outlasts _).bind fun _ => .pure _
    rw [Activation.eval_fill]
  | .branch test onTrue onFalse _ => by
    refine Exec.spend_outlasts.bind fun _ =>
      (Exec.ask_outlasts fun _ fuel => Activation.eval_fill fuel test).bind fun value => ?_
    cases value with
    | bool test =>
      cases test with
      | true => exact Instr.execAll_outlasts h onTrue
      | false => exact Instr.execAll_outlasts h onFalse
    | _ => exact .throw _
  | .call dest callee args => by
    refine Exec.spend_outlasts.bind fun _ =>
      (Exec.ask_outlasts fun _ fuel => Activation.evalAll_fill fuel args).bind fun values => ?_
    exact (Exec.outside_outlasts (h callee values)).bind fun result =>
      (Exec.store_outlasts program dest result).bind fun _ => .pure _
  | .convert dest operand => Exec.spend_outlasts.bind fun _ => move_outlasts dest operand
  | .assign dest operand => Exec.spend_outlasts.bind fun _ => move_outlasts dest operand
  | .copy dest operand => Exec.spend_outlasts.bind fun _ => move_outlasts dest operand
  | .release _ _ => Exec.spend_outlasts.bind fun _ =>
    (Exec.changeFrame_outlasts _).bind fun _ => .pure _
  | .ret operand => Exec.spend_outlasts.bind fun _ =>
    (Exec.ask_outlasts fun _ fuel => Activation.eval_fill fuel operand).bind fun _ => .pure _
  | .comment _ => Exec.spend_outlasts.bind fun _ => .pure _
  | .loop body => by
    have hrounds := Exec.loop_outlasts (Instr.execAll_outlasts h body)
    refine Exec.spend_outlasts.bind fun _ => ?_
    split
    · exact (Outlasts.throw _).bind fun _ => hrounds
    · exact hrounds
  | .leave => Exec.spend_outlasts.bind fun _ => .pure _

private theorem Instr.execAll_outlasts (h : callees.Outlast extra longer) :
    ∀ code : List Instr, Outlasts (Activation.topUp extra) (Instr.execAll program callees code)
      (Instr.execAll program longer code)
  | [] => .pure _
  | instr :: rest => by
    refine (Instr.exec_outlasts h instr).bind fun flow => ?_
    cases flow with
    | next => exact Instr.execAll_outlasts h rest
    | leave => exact .pure _
    | ret value => exact .pure _

end

private theorem Routine.run_outlasts (h : callees.Outlast extra longer) (routine : Routine)
    (args : List Value) :
    Outlasts (Store.topUp extra) (routine.run program callees args)
      (routine.run program longer args) := by
  intro store
  unfold Routine.run
  cases routine.entryFrame args with
  | error cause => exact Outlasts.throw cause store
  | ok frame =>
    have hbodies : Outlasts (Activation.topUp extra) (Instr.execAll program callees routine.body)
        (Instr.execAll program longer routine.body) := Instr.execAll_outlasts h routine.body
    obtain ⟨hok, herror⟩ := hbodies { store with frame }
    have htop : Activation.topUp extra { store with frame } =
        { store.topUp extra with frame } := rfl
    rw [htop] at hok herror
    simp only
    cases hbody : Instr.execAll program callees routine.body { store with frame } with
    | ok flow act =>
      simp only [hok flow act hbody]
      have hframe : (act.topUp extra).frame = act.frame := rfl
      rw [hframe]
      cases routine.exitValue act.frame flow with
      | ok value => exact Outlasts.ended rfl
      | error cause => exact Outlasts.failed fun _ => rfl
    | error cause act =>
      refine Outlasts.failed fun hcause => ?_
      simp only [herror cause act hbody hcause]
      rfl

end Code

private theorem Program.invoke_outlasts (program : Program) (extra : Nat) :
    ∀ {depth deeper : Nat}, depth ≤ deeper →
      (program.invoke depth).Outlast extra (program.invoke deeper)
  | 0, _, _ => fun _ _ => .starved _
  | _ + 1, 0, hle => absurd hle (by omega)
  | depth + 1, deeper + 1, hle => by
    intro name args
    rw [Program.invoke_succ, Program.invoke_succ]
    unfold Program.answer
    cases program.routine? name with
    | some routine => exact routine.run_outlasts (program.invoke_outlasts extra (by omega)) args
    | none =>
      cases program.payload? name with
      | some payload => exact .lift _
      | none =>
        cases Primitive.call? name args with
        | some result => exact .lift result
        | none => exact .throw _

/-- A call of a machine that does not run out of fuel gives the same result or error, and leaves the
same registers, with any more fuel. -/
theorem Machine.more_fuel_same_outcome (program : Program) (registers : NameTable Register)
    (name : String) (args : List Value) {fuel larger : Nat} (hle : fuel ≤ larger)
    (hends : (Machine.call ⟨program, registers, fuel⟩ name args).1 ≠ .error .outOfFuel) :
    (Machine.call ⟨program, registers, larger⟩ name args).1 =
        (Machine.call ⟨program, registers, fuel⟩ name args).1 ∧
      (Machine.call ⟨program, registers, larger⟩ name args).2.registers =
        (Machine.call ⟨program, registers, fuel⟩ name args).2.registers := by
  obtain ⟨extra, rfl⟩ := Nat.exists_eq_add_of_le hle
  have houtlasts := program.invoke_outlasts extra (show fuel + 1 ≤ fuel + extra + 1 by omega) name args
  obtain ⟨hok, herror⟩ := houtlasts ⟨registers, fuel⟩
  change ∀ value final, program.call name args ⟨registers, fuel⟩ = .ok value final →
    program.call name args ⟨registers, fuel + extra⟩ = _ at hok
  change ∀ cause final, program.call name args ⟨registers, fuel⟩ = .error cause final → _ →
    program.call name args ⟨registers, fuel + extra⟩ = _ at herror
  unfold Machine.call at hends ⊢
  cases hcall : program.call name args ⟨registers, fuel⟩ with
  | ok value final =>
    simp only [hok value final hcall]
    exact ⟨trivial, rfl⟩
  | error cause final =>
    have hcause : cause ≠ .outOfFuel := by
      rintro rfl
      simp only [hcall] at hends
      exact hends rfl
    simp only [herror cause final hcall hcause]
    exact ⟨trivial, rfl⟩

/-- A loop that counts a register down to zero and calls a primitive in every round. -/
def Program.draining : Program where
  items := [.register "left" .machInt, .routine {
    name := "drain"
    params := []
    result := .unit
    body := [
      .loop [
        .branch (.inline (.binary .lt (.name "left") (.int 1)) .bool) [.leave] [] .unit,
        .call (.name "left" .machInt) "sub_int" [.name "left" .machInt, .inline (.int 1) .machInt]],
      .ret .unit] }]

theorem Machine.draining_same_outcome :
    (Machine.call ⟨Program.draining, ⟨[("left", ⟨.int 2, .machInt⟩)]⟩, 7⟩ "drain" []).1 =
        .error .outOfFuel ∧
      ∀ larger, 8 ≤ larger →
        (Machine.call ⟨Program.draining, ⟨[("left", ⟨.int 2, .machInt⟩)]⟩, larger⟩ "drain" []).1 =
            .ok .unit ∧
          (Machine.call ⟨Program.draining, ⟨[("left", ⟨.int 2, .machInt⟩)]⟩, larger⟩
            "drain" []).2.registers = ⟨[("left", ⟨.int 0, .machInt⟩)]⟩ := by
  have hends : (Machine.call ⟨Program.draining, ⟨[("left", ⟨.int 2, .machInt⟩)]⟩, 8⟩ "drain" []).1 =
      .ok .unit := rfl
  refine ⟨rfl, fun larger hle => ?_⟩
  exact Machine.more_fuel_same_outcome Program.draining ⟨[("left", ⟨.int 2, .machInt⟩)]⟩ "drain" [] hle
    (by rw [hends]; exact nofun)

end IsaBackend
