import IsaBackend.Proofs.Machine.Stores

/-!
# Fuel

Execution never gains fuel, and every instruction spends some. A call therefore sees less fuel
than the code around it, and the bound on the depth of calls is never reached before the fuel is.
Calls satisfy the equation of a recursive procedure, without a depth.
-/

namespace IsaBackend

/-- A call that succeeds has not gained fuel. -/
def Callees.Thrifty (callees : Callees) : Prop :=
  ∀ name args store value final, callees name args store = .ok value final →
    final.fuel ≤ store.fuel

/-- Calls mean the same where less fuel is left than a bound. -/
def Callees.AgreeBelow (bound : Nat) (callees other : Callees) : Prop :=
  ∀ name args store, store.fuel < bound → callees name args store = other name args store

/-- Up to a bound on the fuel, two executions do the same, and spend at least so much if they
succeed. -/
def Exec.Stable {α : Type} (bound least : Nat) (exec other : Exec α) : Prop :=
  ∀ act : Activation, act.fuel ≤ bound → exec act = other act ∧
    ∀ value final, exec act = .ok value final → final.fuel + least ≤ act.fuel

namespace Exec.Stable

variable {α β : Type} {bound least : Nat}

private theorem mono {exec other : Exec α} {less : Nat} (h : Exec.Stable bound least exec other)
    (hle : less ≤ least) : Exec.Stable bound less exec other := by
  intro act hfuel
  refine ⟨(h act hfuel).1, fun value final hok => ?_⟩
  have := (h act hfuel).2 value final hok
  omega

protected theorem pure (value : α) : Exec.Stable bound 0 (pure value) (pure value) := by
  refine fun act _ => ⟨rfl, fun _ _ hok => ?_⟩
  cases hok
  exact Nat.le_refl _

protected theorem throw (cause : RunError) :
    Exec.Stable bound least (throw cause : Exec α) (throw cause) :=
  fun _ _ => ⟨rfl, fun _ _ hok => by cases hok⟩

protected theorem get : Exec.Stable bound 0 (get : Exec Activation) get := by
  refine fun act _ => ⟨rfl, fun _ _ hok => ?_⟩
  cases hok
  exact Nat.le_refl _

protected theorem bind {exec other : Exec α} {next otherNext : α → Exec β}
    (h : Exec.Stable bound least exec other)
    (hnext : ∀ value, Exec.Stable bound 0 (next value) (otherNext value)) :
    Exec.Stable bound least (exec >>= next) (other >>= otherNext) := by
  intro act hfuel
  obtain ⟨heq, hspent⟩ := h act hfuel
  cases hexec : exec act with
  | error cause final =>
    rw [hexec] at heq
    rw [bind_of_error hexec, bind_of_error heq.symm]
    exact ⟨rfl, fun _ _ hok => by cases hok⟩
  | ok value middle =>
    rw [hexec] at heq
    have hfirst := hspent value middle hexec
    obtain ⟨hsame, hrest⟩ := hnext value middle (by omega)
    rw [bind_of_ok hexec, bind_of_ok heq.symm]
    refine ⟨hsame, fun result final hok => ?_⟩
    have := hrest result final hok
    omega

private theorem paid {exec other : Exec α}
    (h : ∀ left, left < bound → Exec.Stable left 0 exec other) :
    Exec.Stable bound 1 (Exec.spend >>= fun _ => exec) (Exec.spend >>= fun _ => other) := by
  intro act hfuel
  cases hf : act.fuel with
  | zero =>
    have hspend : Exec.spend act = .error .outOfFuel act := by simp [Exec.spend, hf]
    rw [bind_of_error hspend, bind_of_error hspend]
    exact ⟨rfl, fun _ _ hok => by cases hok⟩
  | succ left =>
    have hspend : Exec.spend act = .ok () { act with fuel := left } := by
      simp [Exec.spend, hf]
    rw [bind_of_ok hspend, bind_of_ok hspend]
    obtain ⟨heq, hspent⟩ := h left (by omega) { act with fuel := left } (Nat.le_refl _)
    refine ⟨heq, fun value final hok => ?_⟩
    have := hspent value final hok
    simp only at this
    omega

private theorem ask (question : Activation → Except RunError α) :
    Exec.Stable bound 0 (Exec.ask question) (Exec.ask question) := by
  refine fun act _ => ⟨rfl, fun value final hok => ?_⟩
  unfold Exec.ask at hok
  split at hok
  · cases hok
    exact Nat.le_refl _
  · cases hok

private theorem change {update : Activation → Except RunError Activation}
    (h : ∀ act after, update act = .ok after → after.fuel = act.fuel) :
    Exec.Stable bound 0 (Exec.change update) (Exec.change update) := by
  refine fun act _ => ⟨rfl, fun value final hok => ?_⟩
  unfold Exec.change at hok
  split at hok
  · rename_i after hafter
    cases hok
    exact Nat.le_of_eq (h _ _ hafter)
  · cases hok

private theorem changeFrame (update : Frame → Except RunError Frame) :
    Exec.Stable bound 0 (Exec.changeFrame update) (Exec.changeFrame update) := by
  refine change fun act after hafter => ?_
  obtain ⟨frame, _, hpure⟩ := except_bind_eq_ok.mp hafter
  cases hpure
  rfl

private theorem outside {callees other : Callees} (hthrifty : callees.Thrifty)
    (hagree : callees.AgreeBelow (bound + 1) other) (callee : String) (values : List Value) :
    Exec.Stable bound 0 (Exec.outside (callees callee values))
      (Exec.outside (other callee values)) := by
  intro act hfuel
  have hsame := hagree callee values act.toStore (by omega)
  unfold Exec.outside
  rw [← hsame]
  refine ⟨rfl, fun value final hok => ?_⟩
  cases hcall : callees callee values act.toStore with
  | ok result store =>
    simp only [hcall] at hok
    cases hok
    exact hthrifty _ _ _ _ _ hcall
  | error cause store =>
    simp only [hcall] at hok
    cases hok

private theorem iterate {body other : Exec Flow} (h : Exec.Stable bound 0 body other) :
    ∀ rounds, Exec.Stable bound 0 (Exec.iterate body rounds) (Exec.iterate other rounds)
  | 0 => .throw _
  | rounds + 1 => by
    refine h.bind fun flow => ?_
    cases flow with
    | next => exact iterate h rounds
    | leave => exact .pure _
    | ret value => exact .pure _

end Exec.Stable

namespace Activation

private theorem write_fuel {act next : Activation} {name : String} {value : Value}
    (h : act.write name value = .ok next) : next.fuel = act.fuel := by
  unfold write at h
  split at h
  · obtain ⟨frame, _, hpure⟩ := except_bind_eq_ok.mp h
    cases hpure
    rfl
  · split at h
    · cases h
      rfl
    · cases h

theorem store_fuel {program : Program} {act next : Activation} :
    ∀ {dest : Place} {value : Value}, act.store program dest value = .ok next →
      next.fuel = act.fuel
  | .name _ _, _, h => by
    obtain ⟨_, _, h⟩ := except_bind_eq_ok.mp h
    exact write_fuel h
  | .deref _ _, _, h => by
    obtain ⟨_, _, h⟩ := except_bind_eq_ok.mp h
    exact write_fuel h
  | .field base _ _, _, h => by
    obtain ⟨_, _, h⟩ := except_bind_eq_ok.mp h
    obtain ⟨record, _, h⟩ := except_bind_eq_ok.mp h
    split at h
    · exact store_fuel h
    · cases h

end Activation

section Code

variable {program : Program} {callees other : Callees}

private theorem Callees.AgreeBelow.mono {bound less : Nat} (h : callees.AgreeBelow bound other)
    (hle : less ≤ bound) : callees.AgreeBelow less other :=
  fun name args store hlt => h name args store (Nat.lt_of_lt_of_le hlt hle)

private theorem store_stable {bound : Nat} (dest : Place) (value : Value) :
    Exec.Stable bound 0 (Exec.store program dest value) (Exec.store program dest value) := by
  rw [Exec.store_eq_change]
  exact Exec.Stable.change fun _ _ => Activation.store_fuel

private theorem move_stable {bound : Nat} (dest : Place) (operand : Operand) :
    Exec.Stable bound 0 (do
        let value ← Exec.ask fun act => act.eval program operand
        Exec.store program dest value
        return Flow.next) (do
        let value ← Exec.ask fun act => act.eval program operand
        Exec.store program dest value
        return Flow.next) :=
  (Exec.Stable.ask _).bind fun _ =>
    (store_stable dest _).bind fun _ => .pure _

mutual

/-- An instruction spends fuel, and depends on calls only where less fuel is left. -/
theorem Instr.exec_stable (hthrifty : callees.Thrifty) {bound : Nat}
    (hagree : callees.AgreeBelow bound other) :
    ∀ instr : Instr, Exec.Stable bound 1 (instr.exec program callees) (instr.exec program other)
  | .decl _ _ => .paid fun _ _ => (Exec.Stable.changeFrame _).bind fun _ => .pure _
  | .alloc _ _ => .paid fun _ _ => (Exec.Stable.changeFrame _).bind fun _ => .pure _
  | .init _ _ _ => .paid fun _ _ => (Exec.Stable.ask _).bind fun _ =>
    (Exec.Stable.changeFrame _).bind fun _ => .pure _
  | .release _ _ => .paid fun _ _ => (Exec.Stable.changeFrame _).bind fun _ => .pure _
  | .branch test onTrue onFalse _ => by
    refine .paid fun left hlt => (Exec.Stable.ask _).bind fun value => ?_
    cases value with
    | bool test =>
      cases test with
      | true => exact Instr.execAll_stable hthrifty (hagree.mono (Nat.le_of_lt hlt)) onTrue
      | false => exact Instr.execAll_stable hthrifty (hagree.mono (Nat.le_of_lt hlt)) onFalse
    | _ => exact .throw _
  | .call dest callee args => by
    refine .paid fun left hlt => (Exec.Stable.ask _).bind fun values => ?_
    refine (Exec.Stable.outside hthrifty (hagree.mono hlt) callee values).bind fun result => ?_
    exact (store_stable dest result).bind fun _ => .pure _
  | .convert dest operand => .paid fun _ _ => move_stable dest operand
  | .assign dest operand => .paid fun _ _ => move_stable dest operand
  | .copy dest operand => .paid fun _ _ => move_stable dest operand
  | .ret operand => .paid fun _ _ => (Exec.Stable.ask _).bind fun _ => .pure _
  | .comment _ => .paid fun _ _ => .pure _
  | .loop body => by
    refine .paid fun left hlt => ?_
    have hbody := Instr.execAll_stable hthrifty (hagree.mono (Nat.le_of_lt hlt)) body
    have hrounds : Exec.Stable left 0
        (get >>= fun act => Exec.iterate (Instr.execAll program callees body) (act.fuel + 1))
        (get >>= fun act => Exec.iterate (Instr.execAll program other body) (act.fuel + 1)) :=
      Exec.Stable.get.bind fun act => hbody.iterate _
    split
    · exact (Exec.Stable.throw _).bind fun _ => hrounds
    · exact hrounds
  | .leave => .paid fun _ _ => .pure _

private theorem Instr.execAll_stable (hthrifty : callees.Thrifty) {bound : Nat}
    (hagree : callees.AgreeBelow bound other) :
    ∀ code : List Instr, Exec.Stable bound 0 (Instr.execAll program callees code)
      (Instr.execAll program other code)
  | [] => .pure _
  | instr :: rest => by
    refine ((Instr.exec_stable hthrifty hagree instr).mono (Nat.zero_le 1)).bind fun flow => ?_
    cases flow with
    | next => exact Instr.execAll_stable hthrifty hagree rest
    | leave => exact .pure _
    | ret value => exact .pure _

end

theorem Instr.execAll_spends (hthrifty : callees.Thrifty) {code : List Instr} (hcode : code ≠ [])
    {act final : Activation} {flow : Flow}
    (h : Instr.execAll program callees code act = .ok flow final) : final.fuel < act.fuel := by
  cases code with
  | nil => exact absurd rfl hcode
  | cons instr rest =>
    have hagree : callees.AgreeBelow act.fuel callees := fun _ _ _ _ => rfl
    obtain ⟨first, middle, hfirst, hrest⟩ := bind_eq_ok.mp h
    have hspent := (Instr.exec_stable hthrifty hagree instr act (Nat.le_refl _)).2 _ _ hfirst
    cases first with
    | next =>
      have hmore := (Instr.execAll_stable hthrifty (hagree.mono (by omega)) rest middle
        (Nat.le_refl _)).2 _ _ hrest
      omega
    | leave =>
      cases hrest
      omega
    | ret value =>
      cases hrest
      omega

private theorem Routine.run_stable (hthrifty : callees.Thrifty) (routine : Routine)
    (args : List Value) {store : Store} (hagree : callees.AgreeBelow store.fuel other) :
    routine.run program callees args store = routine.run program other args store ∧
      ∀ value final, routine.run program callees args store = .ok value final →
        final.fuel ≤ store.fuel := by
  unfold Routine.run
  cases routine.entryFrame args with
  | error cause => exact ⟨rfl, fun _ _ hok => by cases hok⟩
  | ok frame =>
    obtain ⟨heq, hspent⟩ := Instr.execAll_stable hthrifty hagree routine.body { store with frame }
      (Nat.le_refl _)
    simp only
    rw [← heq]
    refine ⟨rfl, fun value final hok => ?_⟩
    cases hbody : Instr.execAll program callees routine.body { store with frame } with
    | error cause act =>
      simp only [hbody] at hok
      cases hok
    | ok flow act =>
      have hact := hspent flow act hbody
      simp only [hbody] at hok
      cases hexit : routine.exitValue act.frame flow with
      | error cause =>
        simp only [hexit] at hok
        cases hok
      | ok result =>
        simp only [hexit] at hok
        cases hok
        exact hact

end Code

namespace Program

/-- What a name means for calls of it, if calls in routines mean something. -/
def answer (program : Program) (callees : Callees) : Callees := fun name args =>
  match program.routine? name with
  | some routine => routine.run program callees args
  | none =>
    match program.payload? name with
    | some payload => lift (construct name payload args)
    | none =>
      match Primitive.call? name args with
      | some result => lift result
      | none => throw (.unknownFunction name)

theorem invoke_succ (program : Program) (depth : Nat) :
    program.invoke (depth + 1) = program.answer (program.invoke depth) := by
  funext name args
  rfl

theorem answer_outside {program : Program} {name : String} (h : program.routine? name = none)
    (args : List Value) :
    ∃ result : Except RunError Value, ∀ callees, program.answer callees name args = lift result := by
  simp only [answer, h]
  cases program.payload? name with
  | some payload => exact ⟨_, fun _ => rfl⟩
  | none =>
    cases Primitive.call? name args with
    | some result => exact ⟨result, fun _ => rfl⟩
    | none => exact ⟨.error (.unknownFunction name), fun _ => rfl⟩

private theorem answer_stable (program : Program) {callees other : Callees}
    (hthrifty : callees.Thrifty) (name : String) (args : List Value) {store : Store}
    (hagree : callees.AgreeBelow store.fuel other) :
    program.answer callees name args store = program.answer other name args store ∧
      ∀ value final, program.answer callees name args store = .ok value final →
        final.fuel ≤ store.fuel := by
  have hlift : ∀ (result : Except RunError Value) value final,
      (lift result : EStateM RunError Store Value) store = .ok value final →
        final.fuel ≤ store.fuel := by
    intro result value final hok
    obtain ⟨_, rfl⟩ := lift_eq_ok.mp hok
    exact Nat.le_refl _
  unfold answer
  cases program.routine? name with
  | some routine => exact routine.run_stable hthrifty args hagree
  | none =>
    cases program.payload? name with
    | some payload => exact ⟨rfl, hlift _⟩
    | none =>
      cases Primitive.call? name args with
      | some result => exact ⟨rfl, hlift _⟩
      | none => exact ⟨rfl, fun _ _ hok => by cases hok⟩

private theorem invoke_thrifty (program : Program) : ∀ depth, (program.invoke depth).Thrifty
  | 0 => fun _ _ _ _ _ hok => by cases hok
  | depth + 1 => by
    rw [invoke_succ]
    intro name args store
    exact (program.answer_stable (program.invoke_thrifty depth) name args fun _ _ _ _ => rfl).2

theorem call_thrifty (program : Program) : Callees.Thrifty program.call :=
  fun name args store => program.invoke_thrifty (store.fuel + 1) name args store

/-- The depth of calls is no bound where it exceeds the fuel. -/
theorem invoke_eq_call (program : Program) :
    ∀ depth, Callees.AgreeBelow depth (program.invoke depth) program.call := by
  intro depth
  induction depth using Nat.strongRecOn with
  | _ depth ih =>
    intro name args store hlt
    obtain ⟨less, rfl⟩ : ∃ less, depth = less + 1 := ⟨depth - 1, by omega⟩
    -- Both sides unfold once. The calls below them see less fuel, where the claim is known.
    have hdeep := (program.answer_stable (program.invoke_thrifty less) name args
      ((ih less (by omega)).mono (show store.fuel ≤ less by omega))).1
    have hshallow := (program.answer_stable (program.invoke_thrifty store.fuel) name args
      (ih store.fuel hlt)).1
    rw [invoke_succ, hdeep, ← hshallow, ← invoke_succ]
    rfl

theorem call_eq (program : Program) : program.call = program.answer program.call := by
  funext name args store
  have hfix := (program.answer_stable (program.invoke_thrifty store.fuel) name args
    (program.invoke_eq_call store.fuel)).1
  rw [← hfix, ← invoke_succ]
  rfl

end Program

end IsaBackend
