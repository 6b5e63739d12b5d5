import IsaBackend.Proofs.Machine.Fuel

/-!
# The cost of a computation

A computation that ends does so at a cost: given more fuel it ends alike and leaves the rest, and given
less it starves. Values and stores do not depend on the fuel. A loop is its body, and then what the
round calls for, as long as every round spends fuel.
-/

namespace IsaBackend

/-- States that hold fuel. -/
class Fueled (σ : Type) where
  /-- The state with other fuel. -/
  fill : σ → Nat → σ

open Fueled (fill)

instance : Fueled Store where
  fill store fuel := { store with fuel }

instance : Fueled Activation where
  fill act fuel := { act with fuel }

section Outcomes

variable {σ τ α β γ δ : Type} [Fueled σ] [Fueled τ]

/-- A computation runs out of whatever fuel it is given below a number of units. -/
def Starves (bound : Nat) (act : EStateM RunError σ α) (state : σ) : Prop :=
  ∀ fuel, fuel < bound → ∃ final, act (fill state fuel) = .error .outOfFuel final

def outcome (result : Except RunError α) (state : σ) (fuel : Nat) :
    EStateM.Result RunError σ α :=
  match result with
  | .ok value => .ok value (fill state fuel)
  | .error cause => .error cause (fill state fuel)

/-- A computation ends at a cost, and starves on less. -/
structure Ends (act : EStateM RunError σ α) (state : σ) (cost : Nat)
    (result : Except RunError α) (final : σ) : Prop where
  runs : ∀ fuel, act (fill state (fuel + cost)) = outcome result final fuel
  starves : Starves cost act state

variable {act : EStateM RunError σ α} {next : α → EStateM RunError σ β} {state middle final : σ}
  {cost more bound : Nat} {value : α}

private theorem Starves.bind (h : Starves bound act state) : Starves bound
    (act >>= next) state := by
  intro fuel hlt
  obtain ⟨final, hout⟩ := h fuel hlt
  exact ⟨final, bind_of_error hout⟩

private theorem Ends.bind_starves (h : Ends act state cost (.ok value) middle)
    (hnext : Starves bound (next value) middle) : Starves (bound + cost) (act >>= next) state := by
  intro fuel hlt
  by_cases hcost : fuel < cost
  · obtain ⟨final, hout⟩ := h.starves fuel hcost
    exact ⟨final, bind_of_error hout⟩
  · obtain ⟨left, rfl⟩ : ∃ left, fuel = left + cost := ⟨fuel - cost, by omega⟩
    obtain ⟨final, hout⟩ := hnext left (by omega)
    exact ⟨final, (bind_of_ok (h.runs left)).trans hout⟩

theorem Ends.bind {result : Except RunError β} (h : Ends act state cost (.ok value) middle)
    (hnext : Ends (next value) middle more result final) :
    Ends (act >>= next) state (more + cost) result final where
  runs := by
    intro fuel
    rw [← Nat.add_assoc]
    exact (bind_of_ok (h.runs (fuel + more))).trans (hnext.runs fuel)
  starves := h.bind_starves hnext.starves

theorem Ends.pure (value : α) (state : σ) :
    Ends (pure value : EStateM RunError σ α) state 0 (.ok value) state :=
  ⟨fun _ => rfl, fun _ hlt => absurd hlt (Nat.not_lt_zero _)⟩

end Outcomes

section Steps

variable {α : Type} {act : Activation}

theorem Exec.spend_ends (act : Activation) : Ends Exec.spend act 1 (.ok ()) act where
  runs := fun _ => rfl
  starves := by
    intro fuel hlt
    obtain rfl : fuel = 0 := by omega
    exact ⟨_, rfl⟩

theorem Exec.ask_ends {question : Activation → Except RunError α} {answer : Except RunError α}
    (h : ∀ fuel, question (fill act fuel) = answer) : Ends (Exec.ask question) act 0 answer act where
  runs := by
    intro fuel
    simp only [Nat.add_zero, Exec.ask, h fuel]
    cases answer <;> rfl
  starves := fun _ hlt => absurd hlt (Nat.not_lt_zero _)

theorem Exec.change_ends {update : Activation → Except RunError Activation} {next : Activation}
    (h : ∀ fuel, update (fill act fuel) = .ok (fill next fuel)) :
    Ends (Exec.change update) act 0 (.ok ()) next where
  runs := by
    intro fuel
    simp only [Nat.add_zero, Exec.change, h fuel]
    rfl
  starves := fun _ hlt => absurd hlt (Nat.not_lt_zero _)

end Steps

namespace Activation

variable {program : Program} {act : Activation}

private theorem evalInline_fill (fuel : Nat) (expr : Inline) :
    evalInline program (fill act fuel) expr = act.evalInline program expr := by
  induction expr with
  | field record key ih => simp only [evalInline, ih]
  | binary op left right ihLeft ihRight => simp only [evalInline, ihLeft, ihRight]
  | not operand ih => simp only [evalInline, ih]
  | _ => rfl

theorem eval_fill (fuel : Nat) (operand : Operand) :
    eval program (fill act fuel) operand = act.eval program operand := by
  cases operand with
  | name name rep => rfl
  | inline expr rep => exact evalInline_fill fuel expr

theorem evalAll_fill (fuel : Nat) (operands : List Operand) :
    evalAll program (fill act fuel) operands = act.evalAll program operands := by
  induction operands with
  | nil => rfl
  | cons operand rest ih => simp only [evalAll, eval_fill, ih]

private theorem load_fill (fuel : Nat) (place : Place) :
    load program (fill act fuel) place = act.load program place := by
  induction place with
  | field base key rep ih => simp only [load, ih]
  | _ => rfl

private theorem write_fill (fuel : Nat) (name : String) (value : Value) :
    write (fill act fuel) name value = (fun next => fill next fuel) <$> act.write name value := by
  unfold write
  change (if act.frame.contains name then _ else _) = _
  split
  · change (do return { fill act fuel with frame := ← act.frame.write name value }) = _
    cases act.frame.write name value <;> rfl
  · have hregisters : (fill act fuel).registers = act.registers := rfl
    rw [hregisters]
    cases act.registers.get? name <;> rfl

theorem store_fill (fuel : Nat) (place : Place) (value : Value) :
    store program (fill act fuel) place value =
      (fun next => fill next fuel) <$> act.store program place value := by
  induction place generalizing value with
  | name name rep =>
    simp only [store]
    cases rep.conform value with
    | ok shaped => exact write_fill fuel name shaped
    | error cause => rfl
  | deref name rep =>
    simp only [store]
    cases rep.conform value with
    | ok shaped => exact write_fill fuel name shaped
    | error cause => rfl
  | field base key rep ih =>
    simp only [store, load_fill]
    cases rep.conform value with
    | error cause => rfl
    | ok shaped =>
      simp only [except_ok_bind]
      cases act.load program base with
      | error cause => rfl
      | ok record =>
        simp only [except_ok_bind]
        cases record.setField? key shaped with
        | none => rfl
        | some updated => exact ih updated

end Activation

section Loops

/-- Repeat a loop body until it leaves or returns. -/
def Exec.forever (body : Exec Flow) : Exec Flow := fun act =>
  Exec.iterate body (act.fuel + 1) act

/-- A round that succeeds has spent fuel. -/
def Exec.Pays (body : Exec Flow) : Prop :=
  ∀ act flow final, body act = .ok flow final → final.fuel < act.fuel

variable {body : Exec Flow}

theorem Instr.exec_loop {program : Program} {callees : Callees} {code : List Instr}
    (hcode : code ≠ []) :
    (Instr.loop code).exec program callees =
      Exec.spend >>= fun _ => (Instr.execAll program callees code).forever := by
  have hempty : code.isEmpty = false := by
    cases code with
    | nil => exact absurd rfl hcode
    | cons _ _ => rfl
  rw [Instr.exec]
  simp only [hempty, Bool.false_eq_true, if_false]
  rfl

/-- More rounds than there is fuel make no difference. -/
theorem Exec.iterate_eq_forever (hpays : body.Pays) :
    ∀ (rounds : Nat) (act : Activation), act.fuel < rounds →
      Exec.iterate body rounds act = body.forever act
  | 0, _, hlt => absurd hlt (Nat.not_lt_zero _)
  | rounds + 1, act, hlt => by
    unfold Exec.forever
    cases hbody : body act with
    | error cause final => exact (bind_of_error hbody).trans (bind_of_error hbody).symm
    | ok flow middle =>
      refine (bind_of_ok hbody).trans (Eq.trans ?_ (bind_of_ok hbody).symm)
      cases flow with
      | next =>
        have hless := hpays act .next middle hbody
        refine (Exec.iterate_eq_forever hpays rounds middle (by omega)).trans ?_
        by_cases hfuel : act.fuel = rounds
        · rw [hfuel]
          exact (Exec.iterate_eq_forever hpays rounds middle (by omega)).symm
        · exact (Exec.iterate_eq_forever hpays act.fuel middle hless).symm
      | leave => rfl
      | ret value => rfl

def Exec.resume (body : Exec Flow) : Flow → Exec Flow
  | .next => body.forever
  | .leave => pure .next
  | .ret value => pure (.ret value)

theorem Exec.forever_eq (hpays : body.Pays) : body.forever = body >>= body.resume := by
  funext act
  change Exec.iterate body (act.fuel + 1) act = _
  cases hbody : body act with
  | error cause final => exact (bind_of_error hbody).trans (bind_of_error hbody).symm
  | ok flow middle =>
    refine (bind_of_ok hbody).trans (Eq.trans ?_ (bind_of_ok hbody).symm)
    cases flow with
    | next => exact Exec.iterate_eq_forever hpays act.fuel middle (hpays act .next middle hbody)
    | leave => rfl
    | ret value => rfl

end Loops

end IsaBackend
