import IsaBackend.Machine.Exec
import IsaBackend.Proofs.Effects

/-!
# Execution with a log

The storage events of one activation, in the order in which they happen. Logged execution does
what plain execution does and keeps a log besides, so what is shown about its results holds of
plain execution.
-/

namespace IsaBackend

/-- A change of the storage that an activation owns. -/
inductive StorageEvent where
  | allocate (name : String)
  | release (name : String)
  deriving DecidableEq

/-- The names that are live after the events of a log, latest event first. There is no answer if
some release is not of the name that was allocated last. -/
def liveAfter? : List StorageEvent → Option (List String)
  | [] => some []
  | .allocate name :: log => (liveAfter? log).map (name :: ·)
  | .release name :: log =>
    match liveAfter? log with
    | some (top :: rest) => if top = name then some rest else none
    | _ => none

theorem liveAfter?_allocate {log : List StorageEvent} {live : List String}
    (h : liveAfter? log = some live) (name : String) :
    liveAfter? (.allocate name :: log) = some (name :: live) := by
  simp [liveAfter?, h]

theorem liveAfter?_release {log : List StorageEvent} {name : String} {rest : List String}
    (h : liveAfter? log = some (name :: rest)) :
    liveAfter? (.release name :: log) = some rest := by
  simp [liveAfter?, h]

/-- Execution that logs storage events, latest event first. -/
abbrev Logged := EStateM RunError (Activation × List StorageEvent)

namespace Logged

variable {α : Type}

def silent (plain : Exec α) : Logged α := fun (act, log) =>
  match plain act with
  | .ok value act => .ok value (act, log)
  | .error cause act => .error cause (act, log)

def record (event : StorageEvent) (plain : Exec α) : Logged α := fun (act, log) =>
  match plain act with
  | .ok value act => .ok value (act, event :: log)
  | .error cause act => .error cause (act, log)

end Logged

open Exec Logged in
mutual

def Instr.execLogged (program : Program) (callees : Callees) : Instr → Logged Flow
  | .alloc rep name => record (.allocate name) (Instr.exec program callees (.alloc rep name))
  | .init rep name value =>
    record (.allocate name) (Instr.exec program callees (.init rep name value))
  | .release rep name => record (.release name) (Instr.exec program callees (.release rep name))
  | .branch test onTrue onFalse _ => do
    silent spend
    match ← silent (ask fun act => act.eval program test) with
    | .bool true => Instr.execAllLogged program callees onTrue
    | .bool false => Instr.execAllLogged program callees onFalse
    | other => silent (throw (.typeMismatch "bool" other.kind))
  | .loop body => do
    silent spend
    if body.isEmpty then silent (throw .endlessLoop)
    let rounds := (← silent get).fuel + 1
    iterate (Instr.execAllLogged program callees body) rounds
  | instr => silent (instr.exec program callees)

def Instr.execAllLogged (program : Program) (callees : Callees) : List Instr → Logged Flow
  | [] => return .next
  | instr :: rest => do
    match ← instr.execLogged program callees with
    | .next => Instr.execAllLogged program callees rest
    | flow => return flow

end

def Logged.forget {α : Type} :
    EStateM.Result RunError (Activation × List StorageEvent) α →
      EStateM.Result RunError Activation α
  | .ok value (act, _) => .ok value act
  | .error cause (act, _) => .error cause act

/-- Logged execution that does what plain execution does. -/
def Logged.Refines {α : Type} (logged : Logged α) (plain : Exec α) : Prop :=
  ∀ act log, forget (logged (act, log)) = plain act

namespace Logged.Refines

variable {α β : Type} {logged : Logged α} {plain : Exec α}

private theorem pure (value : α) : Refines (Pure.pure value) (Pure.pure value) := fun _ _ => rfl

private theorem silent (plain : Exec α) : Refines (Logged.silent plain) plain := by
  intro act log
  unfold Logged.silent
  cases h : plain act <;> simp [forget, h]

private theorem record (event : StorageEvent) (plain : Exec α) :
    Refines (Logged.record event plain) plain := by
  intro act log
  unfold Logged.record
  cases h : plain act <;> simp [forget, h]

private theorem bind {loggedNext : α → Logged β} {plainNext : α → Exec β} (h : Refines logged plain)
    (hnext : ∀ value, Refines (loggedNext value) (plainNext value)) :
    Refines (logged >>= loggedNext) (plain >>= plainNext) := by
  intro act log
  have hfirst := h act log
  cases hl : logged (act, log) with
  | ok value state =>
    rw [hl] at hfirst
    rw [bind_of_ok hl, bind_of_ok hfirst.symm]
    exact hnext value state.1 state.2
  | error cause state =>
    rw [hl] at hfirst
    rw [bind_of_error hl, bind_of_error hfirst.symm]
    rfl

private theorem iterate {logged : Logged Flow} {plain : Exec Flow} (h : Refines logged plain) :
    ∀ rounds, Refines (Exec.iterate logged rounds) (Exec.iterate plain rounds)
  | 0 => fun _ _ => rfl
  | rounds + 1 => by
    refine h.bind fun flow => ?_
    cases flow with
    | next => exact iterate h rounds
    | leave => exact .pure _
    | ret value => exact .pure _

end Logged.Refines

open Logged in
mutual

theorem Instr.execLogged_refines (program : Program) (callees : Callees) :
    ∀ instr : Instr, Refines (instr.execLogged program callees) (instr.exec program callees)
  | .alloc _ _ => .record _ _
  | .init _ _ _ => .record _ _
  | .release _ _ => .record _ _
  | .branch test onTrue onFalse _ => by
    simp only [Instr.execLogged, Instr.exec]
    refine (Refines.silent _).bind fun _ => (Refines.silent _).bind fun value => ?_
    cases value with
    | bool test =>
      cases test with
      | true => exact Instr.execAllLogged_refines program callees onTrue
      | false => exact Instr.execAllLogged_refines program callees onFalse
    | _ => exact .silent _
  | .loop body => by
    simp only [Instr.execLogged, Instr.exec]
    refine (Refines.silent _).bind fun _ => ?_
    have hbody := Instr.execAllLogged_refines program callees body
    split
    · exact (Refines.silent _).bind fun _ => (Refines.silent _).bind fun act => hbody.iterate _
    · exact (Refines.silent _).bind fun act => hbody.iterate _
  | .decl _ _ => .silent _
  | .call _ _ _ => .silent _
  | .convert _ _ => .silent _
  | .assign _ _ => .silent _
  | .copy _ _ => .silent _
  | .ret _ => .silent _
  | .comment _ => .silent _
  | .leave => .silent _

/-- Logged execution does what plain execution does. -/
theorem Instr.execAllLogged_refines (program : Program) (callees : Callees) :
    ∀ code : List Instr,
      Refines (Instr.execAllLogged program callees code) (Instr.execAll program callees code)
  | [] => .pure _
  | instr :: rest => by
    simp only [Instr.execAllLogged, Instr.execAll]
    refine (Instr.execLogged_refines program callees instr).bind fun flow => ?_
    cases flow with
    | next => exact Instr.execAllLogged_refines program callees rest
    | leave => exact .pure _
    | ret value => exact .pure _

end

def Routine.runLogged (program : Program) (callees : Callees) (routine : Routine)
    (args : List Value) (store : Store) :
    EStateM.Result RunError Store Value × List StorageEvent :=
  match routine.entryFrame args with
  | .error cause => (.error cause store, [])
  | .ok frame =>
    match Instr.execAllLogged program callees routine.body ({ store with frame }, []) with
    | .error cause (act, log) => (.error cause act.toStore, log)
    | .ok flow (act, log) =>
      match routine.exitValue act.frame flow with
      | .error cause => (.error cause act.toStore, log)
      | .ok value => (.ok value act.toStore, log)

theorem Routine.runLogged_fst (program : Program) (callees : Callees) (routine : Routine)
    (args : List Value) (store : Store) :
    (routine.runLogged program callees args store).1 =
      routine.run program callees args store := by
  unfold Routine.runLogged Routine.run
  cases routine.entryFrame args with
  | error cause => rfl
  | ok frame =>
    have hbody := Instr.execAllLogged_refines program callees routine.body
      { store with frame } []
    simp only
    rw [← hbody]
    cases Instr.execAllLogged program callees routine.body ({ store with frame }, []) with
    | error cause state => rfl
    | ok flow state =>
      simp only [Logged.forget]
      cases routine.exitValue state.1.frame flow <;> rfl

end IsaBackend
