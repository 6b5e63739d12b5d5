import IsaBackend.Ensuring
import IsaBackend.Machine.Eval
import IsaBackend.Value.Primitive

/-!
# Execution

Every instruction costs one unit of fuel before it does anything, and calls draw on the same
fuel. The meaning of a list of instructions follows its structure; loops and calls are repeated
and nested as often as the fuel can pay for.
-/

namespace IsaBackend

/-- How a list of instructions ends. -/
inductive Flow where
  | next
  /-- Leave the innermost loop. -/
  | leave
  | ret (value : Value)

/-- Execution fails with an error and keeps the registers and the fuel it had reached. -/
abbrev Exec := EStateM RunError Activation

/-- The meaning of calls: results for argument values, with effects on the registers. -/
abbrev Callees := String → List Value → EStateM RunError Store Value

namespace Exec

/-- Pay for one instruction. -/
def spend : Exec Unit := fun act =>
  match act.fuel with
  | 0 => .error .outOfFuel act
  | fuel + 1 => .ok () { act with fuel }

def ask {α : Type} (question : Activation → Except RunError α) : Exec α := fun act =>
  match question act with
  | .ok value => .ok value act
  | .error cause => .error cause act

def change (update : Activation → Except RunError Activation) : Exec Unit := fun act =>
  match update act with
  | .ok act => .ok () act
  | .error cause => .error cause act

def changeFrame (update : Frame → Except RunError Frame) : Exec Unit :=
  change fun act => do return { act with frame := ← update act.frame }

/-- Give a local that was not released or a register a new value. -/
def write (name : String) (value : Value) : Exec Unit := do
  let act ← get
  match act.frame.get? name with
  | some slot =>
    if slot.released then throw (.useAfterRelease name)
    set { act with frame := act.frame.set name { slot with value } }
  | none =>
    match act.registers.get? name with
    | some register =>
      set { act with registers := act.registers.set name { register with value } }
    | none => throw (.unknownVariable name)

/-- Store a value at a place, in the shape of the place's representation. A field is stored by
storing the record around it. -/
def store (program : Program) : Place → Value → Exec Unit
  | .name name rep, value => do write name (← ask fun _ => rep.conform value)
  | .deref name rep, value => do write name (← ask fun _ => rep.conform value)
  | .field base field rep, value => do
    let value ← ask fun _ => rep.conform value
    let record ← ask fun act => act.load program base
    match record.setField? field value with
    | some record => store program base record
    | none => throw (.unknownField field)

/-- A call, which has no access to the locals. -/
def outside {α : Type} (call : EStateM RunError Store α) : Exec α := fun act =>
  match call act.toStore with
  | .ok value store => .ok value { act with toStore := store }
  | .error cause store => .error cause { act with toStore := store }

/-- Repeat a loop body until it leaves or returns, at most a number of times. -/
def iterate {σ : Type} (body : EStateM RunError σ Flow) : Nat → EStateM RunError σ Flow
  | 0 => throw .outOfFuel
  | rounds + 1 => do
    match ← body with
    | .next => iterate body rounds
    | .leave => return .next
    | .ret value => return .ret value

/-- The value that initialises storage. A text is read unless a text is to be stored. -/
def initialiser (rep : Rep) : Value → Except RunError Value
  | .text text => if rep = .string then .ok (.text text) else Value.ofText text
  | value => .ok value

end Exec

open Exec in
mutual

/-- Execute an instruction. A round of a loop costs at least one unit of fuel unless its body is
empty, so more rounds than there is fuel are never needed. -/
def Instr.exec (program : Program) (callees : Callees) : Instr → Exec Flow
  | .decl rep name => do
    spend
    changeFrame fun frame => .ok (frame.bind name rep rep.initial false)
    return .next
  | .alloc rep name => do
    spend
    changeFrame fun frame => frame.allocate name rep rep.initial
    return .next
  | .init rep name operand => do
    spend
    let value ← ask fun act => do rep.conform (← initialiser rep (← act.eval program operand))
    changeFrame fun frame => frame.allocate name rep value
    return .next
  | .branch test onTrue onFalse _ => do
    spend
    match ← ask fun act => act.eval program test with
    | .bool true => Instr.execAll program callees onTrue
    | .bool false => Instr.execAll program callees onFalse
    | other => throw (.typeMismatch "bool" other.kind)
  | .call dest callee args => do
    spend
    let values ← ask fun act => act.evalAll program args
    let result ← outside (callees callee values)
    Exec.store program dest result
    return .next
  | .convert dest operand => do
    spend
    let value ← ask fun act => act.eval program operand
    Exec.store program dest value
    return .next
  | .assign dest operand => do
    spend
    let value ← ask fun act => act.eval program operand
    Exec.store program dest value
    return .next
  | .copy dest operand => do
    spend
    let value ← ask fun act => act.eval program operand
    Exec.store program dest value
    return .next
  | .release _ name => do
    spend
    changeFrame fun frame => frame.release name
    return .next
  | .ret operand => do
    spend
    return .ret (← ask fun act => act.eval program operand)
  | .comment _ => do
    spend
    return .next
  | .loop body => do
    spend
    if body.isEmpty then throw .endlessLoop
    let rounds := (← get).fuel + 1
    iterate (Instr.execAll program callees body) rounds
  | .leave => do
    spend
    return .leave

/-- Execute instructions until one does not fall through. -/
def Instr.execAll (program : Program) (callees : Callees) : List Instr → Exec Flow
  | [] => return .next
  | instr :: rest => do
    match ← instr.exec program callees with
    | .next => Instr.execAll program callees rest
    | flow => return flow

end

namespace Routine

def bindParams (frame : Frame) : List (String × Rep) → List Value → Except RunError Frame
  | (name, rep) :: params, arg :: args => do
    let value ← rep.conform arg
    bindParams (frame.bind name rep value false) params args
  | _, _ => .ok frame

/-- The locals at the start of a routine. -/
def entryFrame (routine : Routine) (args : List Value) : Except RunError Frame :=
  if args.length ≠ routine.params.length then
    .error (.arity routine.name routine.params.length args.length)
  else do
    let frame ← bindParams ∅ routine.params args
    if routine.returnsByReference then
      return frame.bind resultParam routine.result routine.result.initial false
    return frame

/-- The result of a routine that ended in some way, with its locals at the end. -/
def exitValue (routine : Routine) (frame : Frame) : Flow → Except RunError Value
  | .ret value =>
    match frame.firstLeak? with
    | some name => .error (.leak routine.name name)
    | none =>
      if routine.returnsByReference then frame.read resultParam
      else routine.result.conform value
  | _ => .error (.noReturn routine.name)

/-- Run a routine. -/
def run (program : Program) (callees : Callees) (routine : Routine) (args : List Value) :
    EStateM RunError Store Value := fun store =>
  match routine.entryFrame args with
  | .error cause => .error cause store
  | .ok frame =>
    match Instr.execAll program callees routine.body { store with frame } with
    | .error cause act => .error cause act.toStore
    | .ok flow act =>
      match routine.exitValue act.frame flow with
      | .error cause => .error cause act.toStore
      | .ok value => .ok value act.toStore

end Routine

namespace Program

def construct (ctor : String) (payload : Rep) : List Value → Except RunError Value
  | [value] => do return .variant ctor (← payload.conform value)
  | args => .error (.arity ctor 1 args.length)

/-- Call a routine of the program, a constructor or a primitive, with calls nested at most so
deep. -/
def invoke (program : Program) : Nat → Callees
  | 0, _, _ => throw .outOfFuel
  | depth + 1, name, args =>
    match program.routine? name with
    | some routine => routine.run program (program.invoke depth) args
    | none =>
      match program.payload? name with
      | some payload => lift (construct name payload args)
      | none =>
        match Primitive.call? name args with
        | some result => lift result
        | none => throw (.unknownFunction name)

/-- Call a function with the fuel at hand. Each nested call costs fuel, so calls never nest deeper
than there is fuel. -/
def call (program : Program) (name : String) (args : List Value) :
    EStateM RunError Store Value := fun store =>
  program.invoke (store.fuel + 1) name args store

end Program

structure Machine where
  program : Program
  registers : NameTable Register
  /-- The fuel of each call. -/
  fuel : Nat

namespace Machine

def defaultFuel : Nat := 1000000

def ofProgram (program : Program) (fuel : Nat) : Machine :=
  { program, registers := program.initialRegisters, fuel }

def register? (machine : Machine) (name : String) : Option Value :=
  (machine.registers.get? name).map Register.value

def setRegister (machine : Machine) (name : String) (value : Value) : Except RunError Machine :=
  match machine.registers.get? name with
  | none => .error (.unknownVariable name)
  | some register => do
    let value ← register.rep.conform value
    return { machine with registers := machine.registers.set name { register with value } }

/-- Call a function with fresh fuel. The registers keep what a failed call has written. -/
def call (machine : Machine) (name : String) (args : List Value) :
    Except RunError Value × Machine :=
  match machine.program.call name args ⟨machine.registers, machine.fuel⟩ with
  | .ok value store => (.ok value, { machine with registers := store.registers })
  | .error cause store => (.error cause, { machine with registers := store.registers })

end Machine

end IsaBackend
