import IsaBackend.Proofs.Machine.Costs
import IsaBackend.Proofs.Machine.Rules

/-!
# Evaluation without bounds

The machine bounds the rounds of a loop and the depth of calls by the fuel at hand. Here evaluation
is a relation without such bounds: a loop goes on until a round leaves it, and a call nests as deep
as it will. Evaluations are finite, so what has none never ends. The relation counts the instructions
that are executed.

The machine gives what an evaluation gives. Every instruction is paid for, so the fuel bounds the
count, and a call has an evaluation if no loop that it can come to is empty.
-/

namespace IsaBackend

/-- How a computation with a state ends. -/
abbrev Ending (σ α : Type) := EStateM.Result RunError σ α

namespace Ending

def fuelLeft {α : Type} : Ending Activation α → Nat
  | .ok _ act => act.fuel
  | .error _ act => act.fuel

def store {α : Type} : Ending Store α → Store
  | .ok _ store => store
  | .error _ store => store

/-- Whether the instructions that follow are executed. -/
def falls : Ending Activation Flow → Bool
  | .ok .next _ => true
  | _ => false

end Ending

namespace Instr

/-- Whether an instruction has no code in it and calls nothing. -/
def isPlain : Instr → Bool
  | branch _ _ _ _ => false
  | call _ _ _ => false
  | loop _ => false
  | _ => true

end Instr

/-- The truth value of an operand. -/
def Activation.truth (program : Program) (act : Activation) (test : Operand) :
    Except RunError Bool := do
  match ← act.eval program test with
  | .bool value => return value
  | other => throw (.typeMismatch "bool" other.kind)

/-- How a routine ends whose body ends in some way. -/
def Routine.finish (routine : Routine) : Ending Activation Flow → Ending Store Value
  | .error cause act => .error cause act.toStore
  | .ok flow act =>
    match routine.exitValue act.frame flow with
    | .error cause => .error cause act.toStore
    | .ok value => .ok value act.toStore

mutual

/-- The evaluation of an instruction: how many instructions it executes, and how it ends. -/
inductive Instr.Evaluates (program : Program) :
    Instr → Activation → Nat → Ending Activation Flow → Prop where
  | starved {act : Activation} (instr : Instr) : act.fuel = 0 →
    Instr.Evaluates program instr act 0 (.error .outOfFuel act)
  | plain {instr : Instr} {act : Activation} {ending : Ending Activation Flow} :
    act.fuel ≠ 0 → instr.isPlain = true →
    (∀ callees, instr.exec program callees act = ending) →
    Instr.Evaluates program instr act 1 ending
  | branch {test : Operand} {onTrue onFalse : List Instr} {rep : Rep} {act : Activation}
    {left steps : Nat} {value : Bool} {ending : Ending Activation Flow} :
    act.fuel = left + 1 → Activation.truth program { act with fuel := left } test = .ok value →
    CodeEvaluates program (bif value then onTrue else onFalse) { act with fuel := left } steps
      ending →
    Instr.Evaluates program (.branch test onTrue onFalse rep) act (steps + 1) ending
  | branchFails {test : Operand} {onTrue onFalse : List Instr} {rep : Rep} {act : Activation}
    {left : Nat} {cause : RunError} :
    act.fuel = left + 1 → Activation.truth program { act with fuel := left } test = .error cause →
    Instr.Evaluates program (.branch test onTrue onFalse rep) act 1
      (.error cause { act with fuel := left })
  | call {dest : Place} {callee : String} {args : List Operand} {act final : Activation}
    {left steps : Nat} {values : List Value} {value : Value} {store : Store} :
    act.fuel = left + 1 →
    Activation.evalAll program { act with fuel := left } args = .ok values →
    CallEvaluates program callee values ⟨act.registers, left⟩ steps (.ok value store) →
    Activation.store program { act with toStore := store } dest value = .ok final →
    Instr.Evaluates program (.call dest callee args) act (steps + 1) (.ok .next final)
  | callRefused {dest : Place} {callee : String} {args : List Operand} {act : Activation}
    {left : Nat} {cause : RunError} :
    act.fuel = left + 1 →
    Activation.evalAll program { act with fuel := left } args = .error cause →
    Instr.Evaluates program (.call dest callee args) act 1 (.error cause { act with fuel := left })
  | callFails {dest : Place} {callee : String} {args : List Operand} {act : Activation}
    {left steps : Nat} {values : List Value} {cause : RunError} {store : Store} :
    act.fuel = left + 1 →
    Activation.evalAll program { act with fuel := left } args = .ok values →
    CallEvaluates program callee values ⟨act.registers, left⟩ steps (.error cause store) →
    Instr.Evaluates program (.call dest callee args) act (steps + 1)
      (.error cause { act with toStore := store })
  | callUnstored {dest : Place} {callee : String} {args : List Operand} {act : Activation}
    {left steps : Nat} {values : List Value} {value : Value} {store : Store} {cause : RunError} :
    act.fuel = left + 1 →
    Activation.evalAll program { act with fuel := left } args = .ok values →
    CallEvaluates program callee values ⟨act.registers, left⟩ steps (.ok value store) →
    Activation.store program { act with toStore := store } dest value = .error cause →
    Instr.Evaluates program (.call dest callee args) act (steps + 1)
      (.error cause { act with toStore := store })
  | loop {body : List Instr} {act : Activation} {left steps : Nat}
    {ending : Ending Activation Flow} :
    act.fuel = left + 1 → RoundsEvaluate program body { act with fuel := left } steps ending →
    Instr.Evaluates program (.loop body) act (steps + 1) ending

/-- The evaluation of a list of instructions. -/
inductive CodeEvaluates (program : Program) :
    List Instr → Activation → Nat → Ending Activation Flow → Prop where
  | nil (act : Activation) : CodeEvaluates program [] act 0 (.ok .next act)
  | next {instr : Instr} {rest : List Instr} {act middle : Activation} {steps more : Nat}
    {ending : Ending Activation Flow} :
    Instr.Evaluates program instr act steps (.ok .next middle) →
    CodeEvaluates program rest middle more ending →
    CodeEvaluates program (instr :: rest) act (steps + more) ending
  | stop {instr : Instr} {act : Activation} {steps : Nat} {ending : Ending Activation Flow}
    (rest : List Instr) : Instr.Evaluates program instr act steps ending → ending.falls = false →
    CodeEvaluates program (instr :: rest) act steps ending

/-- The evaluation of a loop, from the start of a round on. -/
inductive RoundsEvaluate (program : Program) :
    List Instr → Activation → Nat → Ending Activation Flow → Prop where
  | again {body : List Instr} {act middle : Activation} {steps more : Nat}
    {ending : Ending Activation Flow} : CodeEvaluates program body act steps (.ok .next middle) →
    RoundsEvaluate program body middle more ending →
    RoundsEvaluate program body act (steps + more) ending
  | leave {body : List Instr} {act final : Activation} {steps : Nat} :
    CodeEvaluates program body act steps (.ok .leave final) →
    RoundsEvaluate program body act steps (.ok .next final)
  | ret {body : List Instr} {act final : Activation} {steps : Nat} {value : Value} :
    CodeEvaluates program body act steps (.ok (.ret value) final) →
    RoundsEvaluate program body act steps (.ok (.ret value) final)
  | fails {body : List Instr} {act final : Activation} {steps : Nat} {cause : RunError} :
    CodeEvaluates program body act steps (.error cause final) →
    RoundsEvaluate program body act steps (.error cause final)

/-- The evaluation of a call. Constructors and primitives execute no instructions. -/
inductive CallEvaluates (program : Program) :
    String → List Value → Store → Nat → Ending Store Value → Prop where
  | routine {name : String} {args : List Value} {store : Store} {routine : Routine} {frame : Frame}
    {steps : Nat} {ending : Ending Activation Flow} : program.routine? name = some routine →
    routine.entryFrame args = .ok frame →
    CodeEvaluates program routine.body { store with frame } steps ending →
    CallEvaluates program name args store steps (routine.finish ending)
  | refused {name : String} {args : List Value} {routine : Routine} {cause : RunError}
    (store : Store) : program.routine? name = some routine →
    routine.entryFrame args = .error cause →
    CallEvaluates program name args store 0 (.error cause store)
  | outside {name : String} {args : List Value} {store : Store} {ending : Ending Store Value} :
    program.routine? name = none → (∀ callees, program.answer callees name args store = ending) →
    CallEvaluates program name args store 0 ending

end

section Costs

variable {α β : Type}

/-- A step that costs no fuel, whether it succeeds or fails. -/
def Exec.Free (exec : Exec α) : Prop := ∀ act, Ending.fuelLeft (exec act) = act.fuel

private theorem Exec.Free.pure (value : α) : Exec.Free (pure value) := fun _ => rfl

private theorem Exec.Free.bind {exec : Exec α} {next : α → Exec β} (h : exec.Free)
    (hnext : ∀ value, (next value).Free) : Exec.Free (exec >>= next) := by
  intro act
  have hfirst := h act
  cases hact : exec act with
  | ok value middle =>
    rw [hact] at hfirst
    rw [bind_of_ok hact]
    exact (hnext value middle).trans hfirst
  | error cause final =>
    rw [hact] at hfirst
    rw [bind_of_error hact]
    exact hfirst

private theorem Exec.free_ask (question : Activation → Except RunError α) :
    (Exec.ask question).Free := by
  intro act
  unfold Exec.ask
  cases question act <;> rfl

private theorem Exec.free_change {update : Activation → Except RunError Activation}
    (h : ∀ act next, update act = .ok next → next.fuel = act.fuel) : (Exec.change update).Free := by
  intro act
  unfold Exec.change
  cases hupdate : update act with
  | ok next => exact h act next hupdate
  | error cause => rfl

private theorem Exec.free_changeFrame (update : Frame → Except RunError Frame) :
    (Exec.changeFrame update).Free := by
  refine Exec.free_change fun act next hnext => ?_
  obtain ⟨frame, _, hpure⟩ := except_bind_eq_ok.mp hnext
  cases hpure
  rfl

private theorem Exec.free_store (program : Program) (dest : Place) (value : Value) :
    (Exec.store program dest value).Free := by
  rw [Exec.store_eq_change]
  exact Exec.free_change fun _ _ => Activation.store_fuel

private theorem Exec.free_move (program : Program) (dest : Place) (operand : Operand) :
    Exec.Free (do
      let value ← Exec.ask fun act => act.eval program operand
      Exec.store program dest value
      return Flow.next) :=
  (Exec.free_ask _).bind fun _ => (Exec.free_store program dest _).bind fun _ => .pure _

private theorem Exec.spend_of_fuel {act : Activation} {left : Nat} (h : act.fuel = left + 1) :
    Exec.spend act = .ok () { act with fuel := left } := by
  simp only [Exec.spend, h]

private theorem Exec.spend_of_none {act : Activation} (h : act.fuel = 0) :
    Exec.spend act = .error .outOfFuel act := by
  simp only [Exec.spend, h]

private theorem Instr.exec_plain_cost {program : Program} {callees : Callees} {instr : Instr}
    (hplain : instr.isPlain = true) {act : Activation} (hfuel : act.fuel ≠ 0) :
    Ending.fuelLeft (instr.exec program callees act) + 1 = act.fuel := by
  obtain ⟨left, hleft⟩ := Nat.exists_eq_succ_of_ne_zero hfuel
  have hspend := Exec.spend_of_fuel hleft
  have hpaid : ∀ {rest : Exec Flow}, rest.Free →
      Ending.fuelLeft ((Exec.spend >>= fun _ => rest) act) + 1 = act.fuel := by
    intro rest hrest
    rw [bind_of_ok hspend, hrest, hleft]
  cases instr with
  | branch | call | loop => cases hplain
  | decl | alloc | release => exact hpaid ((Exec.free_changeFrame _).bind fun _ => .pure _)
  | init =>
    exact hpaid ((Exec.free_ask _).bind fun _ => (Exec.free_changeFrame _).bind fun _ => .pure _)
  | convert dest operand => exact hpaid (Exec.free_move program dest operand)
  | assign dest operand => exact hpaid (Exec.free_move program dest operand)
  | copy dest operand => exact hpaid (Exec.free_move program dest operand)
  | ret => exact hpaid ((Exec.free_ask _).bind fun _ => .pure _)
  | comment | leave => exact hpaid (.pure _)

/-- Calls have no say in a plain instruction. -/
theorem Instr.exec_plain (program : Program) {instr : Instr} (hplain : instr.isPlain = true)
    (callees other : Callees) : instr.exec program callees = instr.exec program other := by
  cases instr with
  | branch | call | loop => cases hplain
  | _ => rfl

end Costs

private theorem Routine.finish_store (routine : Routine) (ending : Ending Activation Flow) :
    (Ending.store (routine.finish ending)).fuel = ending.fuelLeft := by
  cases ending with
  | error cause act => rfl
  | ok flow act =>
    simp only [Routine.finish]
    cases routine.exitValue act.frame flow <;> rfl

section Agreement

variable {program : Program}

private theorem CodeEvaluates.ne_nil {code : List Instr} {act : Activation} {steps : Nat}
    {ending : Ending Activation Flow} (h : CodeEvaluates program code act steps ending)
    (hfalls : ending.falls = false) : code ≠ [] := by
  rintro rfl
  cases h
  cases hfalls

/-- A routine is entered, its body is executed, and it finishes. -/
theorem Routine.run_of_entry {callees : Callees} {routine : Routine} {args : List Value}
    {frame : Frame} (hentry : routine.entryFrame args = .ok frame) (store : Store) :
    routine.run program callees args store =
      routine.finish (Instr.execAll program callees routine.body { store with frame }) := by
  simp only [Routine.run, hentry]
  cases Instr.execAll program callees routine.body { store with frame } <;> rfl

private theorem Routine.run_of_refusal {callees : Callees} {routine : Routine} {args : List Value}
    {cause : RunError} (hentry : routine.entryFrame args = .error cause) (store : Store) :
    routine.run program callees args store = .error cause store := by
  simp only [Routine.run, hentry]

private theorem Program.call_of_routine {name : String} {routine : Routine}
    (h : program.routine? name = some routine) (args : List Value) :
    program.call name args = routine.run program program.call args := by
  rw [program.call_eq]
  simp only [Program.answer, h]
  rw [← program.call_eq]

private theorem Instr.exec_branch {callees : Callees} {test : Operand} {onTrue onFalse : List Instr}
    (rep : Rep) {act : Activation} {left : Nat} (hfuel : act.fuel = left + 1) :
    (Instr.branch test onTrue onFalse rep).exec program callees act =
      match Activation.truth program { act with fuel := left } test with
      | .ok value => Instr.execAll program callees (bif value then onTrue else onFalse)
          { act with fuel := left }
      | .error cause => .error cause { act with fuel := left } := by
  simp only [Instr.exec]
  rw [bind_of_ok (Exec.spend_of_fuel hfuel)]
  unfold Activation.truth
  cases heval : Activation.eval program { act with fuel := left } test with
  | error cause =>
    rw [bind_of_error (Exec.ask_of_error heval)]
    rfl
  | ok value =>
    rw [bind_of_ok (Exec.ask_of_ok heval)]
    cases value with
    | bool test => cases test <;> rfl
    | _ => rfl

private theorem Instr.exec_call {callees : Callees} {dest : Place} {callee : String}
    {args : List Operand} {act : Activation} {left : Nat} (hfuel : act.fuel = left + 1) :
    (Instr.call dest callee args).exec program callees act =
      match Activation.evalAll program { act with fuel := left } args with
      | .error cause => .error cause { act with fuel := left }
      | .ok values =>
        match callees callee values ⟨act.registers, left⟩ with
        | .error cause store => .error cause { act with toStore := store }
        | .ok value store =>
          match Activation.store program { act with toStore := store } dest value with
          | .error cause => .error cause { act with toStore := store }
          | .ok final => .ok .next final := by
  simp only [Instr.exec]
  rw [bind_of_ok (Exec.spend_of_fuel hfuel)]
  cases hargs : Activation.evalAll program { act with fuel := left } args with
  | error cause => rw [bind_of_error (Exec.ask_of_error hargs)]
  | ok values =>
    rw [bind_of_ok (Exec.ask_of_ok hargs)]
    cases hcall : callees callee values ⟨act.registers, left⟩ with
    | error cause store =>
      simp only [hcall]
      exact bind_of_error (Exec.outside_of_error hcall)
    | ok value store =>
      rw [bind_of_ok (Exec.outside_of_ok hcall)]
      cases hstore : Activation.store program { act with toStore := store } dest value with
      | error cause =>
        simp only [hcall, hstore]
        exact bind_of_error (Exec.store_of_error hstore)
      | ok final =>
        simp only [hcall, hstore]
        exact bind_of_ok (Exec.store_of_ok hstore)

private theorem Instr.exec_starved {callees : Callees} (instr : Instr) {act : Activation}
    (hfuel : act.fuel = 0) : instr.exec program callees act = .error .outOfFuel act := by
  cases instr <;> exact bind_of_error (Exec.spend_of_none hfuel)

/-- Rounds of a loop with a body spend fuel. -/
theorem Instr.execAll_pays (program : Program) {body : List Instr} (hbody : body ≠ []) :
    Exec.Pays (Instr.execAll program program.call body) :=
  fun _ _ _ h => Instr.execAll_spends program.call_thrifty hbody h

mutual

/-- The machine gives what the evaluation of an instruction gives. -/
theorem Instr.Evaluates.exec_eq : ∀ {instr : Instr} {act : Activation} {steps : Nat}
    {ending : Ending Activation Flow}, Instr.Evaluates program instr act steps ending →
      instr.exec program program.call act = ending
  | _, _, _, _, .starved instr hfuel => Instr.exec_starved instr hfuel
  | _, _, _, _, .plain _ _ hexec => hexec program.call
  | _, _, _, _, .branch hfuel htest harm => by
    rw [Instr.exec_branch _ hfuel, htest]
    exact harm.exec_eq
  | _, _, _, _, .branchFails hfuel htest => by rw [Instr.exec_branch _ hfuel, htest]
  | _, _, _, _, .call hfuel hargs hcall hstore => by
    simp only [Instr.exec_call hfuel, hargs, hcall.call_eq, hstore]
  | _, _, _, _, .callRefused hfuel hargs => by simp only [Instr.exec_call hfuel, hargs]
  | _, _, _, _, .callFails hfuel hargs hcall => by
    simp only [Instr.exec_call hfuel, hargs, hcall.call_eq]
  | _, _, _, _, .callUnstored hfuel hargs hcall hstore => by
    simp only [Instr.exec_call hfuel, hargs, hcall.call_eq, hstore]
  | _, _, _, _, .loop hfuel hrounds => by
    obtain ⟨hbody, hends⟩ := hrounds.forever_eq
    rw [Instr.exec_loop hbody, bind_of_ok (Exec.spend_of_fuel hfuel), hends]

private theorem CodeEvaluates.exec_eq : ∀ {code : List Instr} {act : Activation} {steps : Nat}
    {ending : Ending Activation Flow}, CodeEvaluates program code act steps ending →
      Instr.execAll program program.call code act = ending
  | _, _, _, _, .nil _ => rfl
  | _, _, _, _, .next hfirst hrest => (bind_of_ok hfirst.exec_eq).trans hrest.exec_eq
  | _, _, _, ending, .stop rest hfirst hfalls => by
    have heq := hfirst.exec_eq
    cases ending with
    | error cause final => exact bind_of_error heq
    | ok flow final =>
      refine (bind_of_ok heq).trans ?_
      cases flow with
      | next => cases hfalls
      | leave => rfl
      | ret value => rfl

/-- A loop that has an evaluation has a body. -/
theorem RoundsEvaluate.forever_eq : ∀ {body : List Instr} {act : Activation} {steps : Nat}
    {ending : Ending Activation Flow}, RoundsEvaluate program body act steps ending →
      body ≠ [] ∧ Exec.forever (Instr.execAll program program.call body) act = ending
  | _, _, _, _, .again hround hrest => by
    obtain ⟨hbody, hends⟩ := hrest.forever_eq
    refine ⟨hbody, ?_⟩
    rw [Exec.forever_eq (Instr.execAll_pays program hbody), bind_of_ok hround.exec_eq]
    exact hends
  | _, _, _, _, .leave hround => by
    have hbody : _ ≠ [] := hround.ne_nil rfl
    rw [Exec.forever_eq (Instr.execAll_pays program hbody), bind_of_ok hround.exec_eq]
    exact ⟨hbody, rfl⟩
  | _, _, _, _, .ret hround => by
    have hbody : _ ≠ [] := hround.ne_nil rfl
    rw [Exec.forever_eq (Instr.execAll_pays program hbody), bind_of_ok hround.exec_eq]
    exact ⟨hbody, rfl⟩
  | _, _, _, _, .fails hround => by
    have hbody : _ ≠ [] := hround.ne_nil rfl
    rw [Exec.forever_eq (Instr.execAll_pays program hbody), bind_of_error hround.exec_eq]
    exact ⟨hbody, rfl⟩

theorem CallEvaluates.call_eq : ∀ {name : String} {args : List Value} {store : Store} {steps : Nat}
    {ending : Ending Store Value}, CallEvaluates program name args store steps ending →
      program.call name args store = ending
  | _, args, store, _, _, .routine hroutine hentry hbody => by
    rw [Program.call_of_routine hroutine, Routine.run_of_entry hentry, hbody.exec_eq]
  | _, args, _, _, _, .refused store hroutine hentry => by
    rw [Program.call_of_routine hroutine, Routine.run_of_refusal hentry]
  | _, _, _, _, _, .outside _ hanswer => by
    rw [program.call_eq]
    exact hanswer program.call

end

mutual

/-- An evaluation executes as many instructions as it spends units of fuel. -/
theorem Instr.Evaluates.cost : ∀ {instr : Instr} {act : Activation} {steps : Nat}
    {ending : Ending Activation Flow}, Instr.Evaluates program instr act steps ending →
      ending.fuelLeft + steps = act.fuel
  | _, _, _, _, .starved _ _ => rfl
  | _, _, _, _, .plain hfuel hplain hexec =>
    hexec program.call ▸ Instr.exec_plain_cost hplain hfuel
  | _, _, _, _, .branch hfuel _ harm => by
    rw [hfuel, ← Nat.add_assoc, harm.cost]
  | _, _, _, _, .branchFails hfuel _ => hfuel.symm
  | _, _, _, _, .call hfuel _ hcall hstore => by
    have hpaid := hcall.cost
    have hkept := Activation.store_fuel hstore
    simp only [Ending.store, Ending.fuelLeft] at hpaid hkept ⊢
    omega
  | _, _, _, _, .callRefused hfuel _ => hfuel.symm
  | _, _, _, _, .callFails hfuel _ hcall => by
    have hpaid := hcall.cost
    simp only [Ending.store, Ending.fuelLeft] at hpaid ⊢
    omega
  | _, _, _, _, .callUnstored hfuel _ hcall _ => by
    have hpaid := hcall.cost
    simp only [Ending.store, Ending.fuelLeft] at hpaid ⊢
    omega
  | _, _, _, _, .loop hfuel hrounds => by
    rw [hfuel, ← Nat.add_assoc, hrounds.cost]

theorem CodeEvaluates.cost : ∀ {code : List Instr} {act : Activation} {steps : Nat}
    {ending : Ending Activation Flow}, CodeEvaluates program code act steps ending →
      ending.fuelLeft + steps = act.fuel
  | _, _, _, _, .nil _ => rfl
  | _, _, _, _, .next hfirst hrest => by
    have hpaid := hfirst.cost
    have hmore := hrest.cost
    simp only [Ending.fuelLeft] at hpaid
    omega
  | _, _, _, _, .stop _ hfirst _ => hfirst.cost

theorem RoundsEvaluate.cost : ∀ {body : List Instr} {act : Activation} {steps : Nat}
    {ending : Ending Activation Flow}, RoundsEvaluate program body act steps ending →
      ending.fuelLeft + steps = act.fuel
  | _, _, _, _, .again hround hrest => by
    have hpaid := hround.cost
    have hmore := hrest.cost
    simp only [Ending.fuelLeft] at hpaid
    omega
  | _, _, _, _, .leave hround => hround.cost
  | _, _, _, _, .ret hround => hround.cost
  | _, _, _, _, .fails hround => hround.cost

private theorem CallEvaluates.cost : ∀ {name : String} {args : List Value} {store : Store}
    {steps : Nat}
    {ending : Ending Store Value}, CallEvaluates program name args store steps ending →
      (Ending.store ending).fuel + steps = store.fuel
  | _, _, _, _, _, .routine _ _ hbody => by
    rw [Routine.finish_store, hbody.cost]
  | _, _, _, _, _, .refused _ _ _ => rfl
  | name, args, store, _, _, .outside hroutine hanswer => by
    obtain ⟨result, hresult⟩ := Program.answer_outside hroutine args
    rw [← hanswer program.call, hresult]
    cases result <;> rfl

end

end Agreement

namespace Instr

mutual

/-- The bodies of the loops in an instruction. -/
def loops : Instr → List (List Instr)
  | branch _ onTrue onFalse _ => loopsAll onTrue ++ loopsAll onFalse
  | loop body => body :: loopsAll body
  | _ => []

def loopsAll : List Instr → List (List Instr)
  | [] => []
  | instr :: rest => instr.loops ++ loopsAll rest

end

end Instr

/-- No loop of a program is empty. -/
def Program.LoopsFilled (program : Program) : Prop :=
  ∀ routine ∈ program.routines, ∀ body ∈ Instr.loopsAll routine.body, body ≠ []

section Existence

variable {program : Program}

/-- Calls with less fuel than a bound have evaluations. -/
def Program.CallsEnd (program : Program) (bound : Nat) : Prop :=
  ∀ name args store, store.fuel < bound →
    ∃ steps, CallEvaluates program name args store steps (program.call name args store)

/-- A loop has an evaluation if its rounds have. Every round spends fuel, so the induction is on the
fuel. -/
private theorem rounds_evaluate {body : List Instr} (hbody : body ≠ []) {bound : Nat}
    (hround : ∀ act : Activation, act.fuel ≤ bound → ∃ steps, CodeEvaluates program body act steps
      (Instr.execAll program program.call body act)) :
    ∀ (fuel : Nat) (act : Activation), act.fuel = fuel → fuel ≤ bound →
      ∃ steps, RoundsEvaluate program body act steps
        (Exec.forever (Instr.execAll program program.call body) act) := by
  have hpays := Instr.execAll_pays program hbody
  intro fuel
  induction fuel using Nat.strongRecOn with
  | _ fuel ih =>
    intro act hfuel hle
    obtain ⟨steps, hfirst⟩ := hround act (by omega)
    rw [Exec.forever_eq hpays]
    cases hexec : Instr.execAll program program.call body act with
    | error cause final =>
      rw [hexec] at hfirst
      rw [bind_of_error hexec]
      exact ⟨steps, .fails hfirst⟩
    | ok flow middle =>
      rw [hexec] at hfirst
      rw [bind_of_ok hexec]
      cases flow with
      | leave => exact ⟨steps, .leave hfirst⟩
      | ret value => exact ⟨steps, .ret hfirst⟩
      | next =>
        have hless := hpays act .next middle hexec
        obtain ⟨more, hrest⟩ := ih middle.fuel (by omega) middle rfl (by omega)
        exact ⟨steps + more, .again hfirst hrest⟩

mutual

/-- An instruction without empty loops has an evaluation, if the calls in it have. -/
theorem Instr.exec_evaluates {bound : Nat} (hcalls : program.CallsEnd bound) :
    ∀ instr : Instr, (∀ body ∈ instr.loops, body ≠ []) → ∀ act : Activation, act.fuel ≤ bound →
      ∃ steps, Instr.Evaluates program instr act steps (instr.exec program program.call act)
  | instr, hloops, act, hle => by
    by_cases hfuel : act.fuel = 0
    · rw [Instr.exec_starved instr hfuel]
      exact ⟨0, .starved instr hfuel⟩
    obtain ⟨left, hleft⟩ := Nat.exists_eq_succ_of_ne_zero hfuel
    by_cases hplain : instr.isPlain = true
    · exact ⟨1, .plain hfuel hplain fun callees =>
        congrFun (Instr.exec_plain program hplain callees program.call) act⟩
    cases instr with
    | branch test onTrue onFalse rep =>
      rw [Instr.exec_branch rep hleft]
      cases htest : Activation.truth program { act with fuel := left } test with
      | error cause => exact ⟨1, .branchFails hleft htest⟩
      | ok value =>
        have harm : ∀ body ∈ Instr.loopsAll (bif value then onTrue else onFalse), body ≠ [] := by
          intro body hbody
          cases value with
          | true => exact hloops body (List.mem_append_left _ hbody)
          | false => exact hloops body (List.mem_append_right _ hbody)
        obtain ⟨steps, hsteps⟩ : ∃ steps, CodeEvaluates program
            (bif value then onTrue else onFalse) { act with fuel := left } steps
            (Instr.execAll program program.call (bif value then onTrue else onFalse)
              { act with fuel := left }) := by
          have hless : left ≤ bound := by omega
          cases value with
          | true => exact Instr.execAll_evaluates hcalls onTrue harm _ hless
          | false => exact Instr.execAll_evaluates hcalls onFalse harm _ hless
        exact ⟨steps + 1, .branch hleft htest hsteps⟩
    | call dest callee args =>
      rw [Instr.exec_call hleft]
      cases hargs : Activation.evalAll program { act with fuel := left } args with
      | error cause => exact ⟨1, .callRefused hleft hargs⟩
      | ok values =>
        obtain ⟨steps, hsteps⟩ := hcalls callee values ⟨act.registers, left⟩ (by simp only; omega)
        simp only
        cases hcall : program.call callee values ⟨act.registers, left⟩ with
        | error cause store =>
          rw [hcall] at hsteps
          exact ⟨steps + 1, .callFails hleft hargs hsteps⟩
        | ok value store =>
          rw [hcall] at hsteps
          simp only
          cases hstore : Activation.store program { act with toStore := store } dest value with
          | error cause => exact ⟨steps + 1, .callUnstored hleft hargs hsteps hstore⟩
          | ok final => exact ⟨steps + 1, .call hleft hargs hsteps hstore⟩
    | loop body =>
      have hbody : body ≠ [] := hloops body List.mem_cons_self
      rw [Instr.exec_loop hbody, bind_of_ok (Exec.spend_of_fuel hleft)]
      have hround : ∀ act : Activation, act.fuel ≤ bound → ∃ steps, CodeEvaluates program body act
          steps (Instr.execAll program program.call body act) :=
        Instr.execAll_evaluates hcalls body fun inner hinner =>
          hloops inner (List.mem_cons_of_mem _ hinner)
      obtain ⟨steps, hsteps⟩ := rounds_evaluate hbody hround left { act with fuel := left } rfl
        (by omega)
      exact ⟨steps + 1, .loop hleft hsteps⟩
    | _ => exact absurd rfl hplain

private theorem Instr.execAll_evaluates {bound : Nat} (hcalls : program.CallsEnd bound) :
    ∀ code : List Instr, (∀ body ∈ Instr.loopsAll code, body ≠ []) →
      ∀ act : Activation, act.fuel ≤ bound → ∃ steps, CodeEvaluates program code act steps
        (Instr.execAll program program.call code act)
  | [], _, act, _ => ⟨0, .nil act⟩
  | instr :: rest, hloops, act, hle => by
    obtain ⟨steps, hfirst⟩ := Instr.exec_evaluates hcalls instr
      (fun body hbody => hloops body (List.mem_append_left _ hbody)) act hle
    cases hexec : instr.exec program program.call act with
    | error cause final =>
      rw [hexec] at hfirst
      refine ⟨steps, ?_⟩
      rw [Instr.execAll, bind_of_error hexec]
      exact .stop rest hfirst rfl
    | ok flow middle =>
      rw [hexec] at hfirst
      rw [Instr.execAll, bind_of_ok hexec]
      cases flow with
      | leave => exact ⟨steps, .stop rest hfirst rfl⟩
      | ret value => exact ⟨steps, .stop rest hfirst rfl⟩
      | next =>
        have hpaid := hfirst.cost
        simp only [Ending.fuelLeft] at hpaid
        obtain ⟨more, hrest⟩ := Instr.execAll_evaluates hcalls rest
          (fun body hbody => hloops body (List.mem_append_right _ hbody)) middle (by omega)
        exact ⟨steps + more, .next hfirst hrest⟩

end

/-- In a program without empty loops every call has an evaluation. Calls in routines cost fuel, so the
induction is on the fuel. -/
theorem Program.LoopsFilled.callsEnd (h : program.LoopsFilled) (bound : Nat) :
    program.CallsEnd bound := by
  induction bound with
  | zero => exact fun _ _ _ hlt => absurd hlt (Nat.not_lt_zero _)
  | succ bound ih =>
    intro name args store hlt
    cases hroutine : program.routine? name with
    | none =>
      refine ⟨0, .outside hroutine fun callees => ?_⟩
      rw [program.call_eq]
      simp only [Program.answer, hroutine]
    | some routine =>
      rw [Program.call_of_routine hroutine]
      cases hentry : routine.entryFrame args with
      | error cause =>
        rw [Routine.run_of_refusal hentry]
        exact ⟨0, .refused store hroutine hentry⟩
      | ok frame =>
        have hloops := h routine (List.mem_of_find?_eq_some hroutine)
        obtain ⟨steps, hbody⟩ := Instr.execAll_evaluates ih routine.body hloops { store with frame }
          (Nat.le_of_lt_succ hlt)
        rw [Routine.run_of_entry hentry]
        exact ⟨steps, .routine hroutine hentry hbody⟩

end Existence

/-- In a program without empty loops every call ends: it has a finite evaluation, which gives what the
machine gives and executes no more instructions than there are units of fuel. Every round of a loop
spends some of them. -/
theorem Program.fuel_bounds_calls (program : Program) (hloops : program.LoopsFilled) :
    (∀ name args registers fuel, ∃ steps, steps ≤ fuel ∧
      CallEvaluates program name args ⟨registers, fuel⟩ steps
        (program.call name args ⟨registers, fuel⟩)) ∧
    ∀ routine ∈ program.routines, ∀ body ∈ Instr.loopsAll routine.body, ∀ act steps flow final,
      CodeEvaluates program body act steps (.ok flow final) → final.fuel < act.fuel := by
  constructor
  · intro name args registers fuel
    obtain ⟨steps, hsteps⟩ := hloops.callsEnd (fuel + 1) name args ⟨registers, fuel⟩
      (Nat.lt_succ_self fuel)
    have hcost := hsteps.cost
    simp only at hcost
    exact ⟨steps, by omega, hsteps⟩
  · intro routine hroutine body hbody act steps flow final hround
    have hfilled := hloops routine hroutine body hbody
    exact Instr.execAll_spends program.call_thrifty hfilled hround.exec_eq

/-- A loop that counts a local up and leaves it when it is large enough. -/
def Program.climbing : Program where
  items := [.routine {
    name := "climb"
    params := [("top", .machInt)]
    result := .machInt
    body := [
      .decl .machInt "n",
      .loop [
        .branch (.inline (.binary .gt (.name "n") (.name "top")) .bool) [.leave] [] .unit,
        .assign (.name "n" .machInt) (.inline (.binary .add (.name "n") (.int 1)) .machInt)],
      .ret (.name "n" .machInt)] }]

theorem Program.climbing_calls_end :
    Program.climbing.LoopsFilled ∧ ∀ top registers fuel, ∃ steps, steps ≤ fuel ∧
      CallEvaluates Program.climbing "climb" [.int top] ⟨registers, fuel⟩ steps
        (Program.climbing.call "climb" [.int top] ⟨registers, fuel⟩) := by
  have hloops : Program.climbing.LoopsFilled :=
    List.forall_mem_singleton.mpr (List.forall_mem_singleton.mpr (List.cons_ne_nil _ _))
  exact ⟨hloops, fun top => (Program.fuel_bounds_calls _ hloops).1 "climb" [.int top]⟩

def Program.spinning : Program where
  items := [.routine {
    name := "spin"
    params := []
    result := .unit
    body := [.loop [], .ret .unit] }]

/-- An empty loop spends no fuel, so no fuel ends it: the call has no evaluation. -/
theorem Program.spinning_never_ends :
    (¬∃ fuel steps ending, CallEvaluates Program.spinning "spin" [] ⟨∅, fuel + 1⟩ steps ending) ∧
      ∀ fuel, (Machine.call ⟨Program.spinning, ∅, fuel + 1⟩ "spin" []).1 = .error .endlessLoop := by
  refine ⟨?_, fun _ => rfl⟩
  rintro ⟨fuel, steps, ending, hcall⟩
  have hloop : ∀ {act : Activation} {steps : Nat} {ending : Ending Activation Flow},
      act.fuel ≠ 0 → ¬Instr.Evaluates Program.spinning (.loop []) act steps ending := by
    intro act steps ending hfuel hends
    cases hends with
    | starved _ hnone => exact hfuel hnone
    | plain _ hplain _ => cases hplain
    | loop _ hrounds => exact hrounds.forever_eq.1 rfl
  cases hcall with
  | routine hroutine hentry hbody =>
    cases hroutine
    cases hentry
    cases hbody with
    | next hfirst _ => exact hloop (Nat.succ_ne_zero fuel) hfirst
    | stop _ hfirst _ => exact hloop (Nat.succ_ne_zero fuel) hfirst
  | refused _ hroutine hentry =>
    cases hroutine
    cases hentry
  | outside hroutine _ => cases hroutine

end IsaBackend
