import IsaBackend.Code.Basic

/-!
# Instructions at any nesting

A condition holds everywhere in a piece of code if it holds of its instructions and of those in the
arms of its branches and the bodies of its loops. The calls of a piece of code are collected in the
same way.
-/

namespace IsaBackend

structure Call where
  dest : Place
  callee : String
  args : List Operand

namespace Instr

mutual

/-- A condition holds of an instruction and of all instructions nested in it. -/
def Everywhere (good : Instr → Prop) : Instr → Prop
  | .branch test onTrue onFalse rep =>
    good (.branch test onTrue onFalse rep) ∧ EverywhereAll good onTrue ∧ EverywhereAll good onFalse
  | .loop body => good (.loop body) ∧ EverywhereAll good body
  | .decl rep name => good (.decl rep name)
  | .alloc rep name => good (.alloc rep name)
  | .init rep name value => good (.init rep name value)
  | .call dest callee args => good (.call dest callee args)
  | .convert dest value => good (.convert dest value)
  | .assign dest value => good (.assign dest value)
  | .copy dest value => good (.copy dest value)
  | .release rep name => good (.release rep name)
  | .ret value => good (.ret value)
  | .comment text => good (.comment text)
  | .leave => good .leave

def EverywhereAll (good : Instr → Prop) : List Instr → Prop
  | [] => True
  | instr :: rest => instr.Everywhere good ∧ EverywhereAll good rest

end

mutual

/-- The calls of an instruction and of those nested in it, in order. -/
def calls : Instr → List Call
  | .call dest callee args => [⟨dest, callee, args⟩]
  | .branch _ onTrue onFalse _ => callsAll onTrue ++ callsAll onFalse
  | .loop body => callsAll body
  | _ => []

def callsAll : List Instr → List Call
  | [] => []
  | instr :: rest => instr.calls ++ callsAll rest

end

variable {good better : Instr → Prop}

@[simp] theorem everywhereAll_append (code more : List Instr) :
    EverywhereAll good (code ++ more) ↔ EverywhereAll good code ∧ EverywhereAll good more := by
  induction code with
  | nil => simp [EverywhereAll]
  | cons instr rest ih => simp only [List.cons_append, EverywhereAll, ih, and_assoc]

@[simp] theorem callsAll_append (code more : List Instr) :
    callsAll (code ++ more) = callsAll code ++ callsAll more := by
  induction code with
  | nil => rfl
  | cons instr rest ih => simp only [List.cons_append, callsAll, ih, List.append_assoc]

mutual

theorem Everywhere.mono (himp : ∀ instr, good instr → better instr) :
    ∀ {instr : Instr}, instr.Everywhere good → instr.Everywhere better
  | .branch _ _ _ _, h =>
    ⟨himp _ h.1, EverywhereAll.mono himp h.2.1, EverywhereAll.mono himp h.2.2⟩
  | .loop _, h => ⟨himp _ h.1, EverywhereAll.mono himp h.2⟩
  | .decl _ _, h | .alloc _ _, h | .init _ _ _, h | .call _ _ _, h | .convert _ _, h
  | .assign _ _, h | .copy _ _, h | .release _ _, h | .ret _, h | .comment _, h | .leave, h =>
    himp _ h

theorem EverywhereAll.mono (himp : ∀ instr, good instr → better instr) :
    ∀ {code : List Instr}, EverywhereAll good code → EverywhereAll better code
  | [], _ => trivial
  | _ :: _, h => ⟨Everywhere.mono himp h.1, EverywhereAll.mono himp h.2⟩

end

mutual

theorem Everywhere.of_mem_calls : ∀ {instr : Instr}, instr.Everywhere good →
    ∀ call ∈ instr.calls, good (.call call.dest call.callee call.args)
  | .call _ _ _, h, _, hmem => by
    rw [List.mem_singleton.mp hmem]
    exact h
  | .branch _ _ _ _, h, made, hmem =>
    (List.mem_append.mp hmem).elim (EverywhereAll.of_mem_calls h.2.1 made)
      (EverywhereAll.of_mem_calls h.2.2 made)
  | .loop _, h, made, hmem => EverywhereAll.of_mem_calls h.2 made hmem
  | .decl _ _, _, _, hmem | .alloc _ _, _, _, hmem | .init _ _ _, _, _, hmem
  | .convert _ _, _, _, hmem | .assign _ _, _, _, hmem | .copy _ _, _, _, hmem
  | .release _ _, _, _, hmem | .ret _, _, _, hmem | .comment _, _, _, hmem | .leave, _, _, hmem =>
    absurd hmem List.not_mem_nil

theorem EverywhereAll.of_mem_calls : ∀ {code : List Instr}, EverywhereAll good code →
    ∀ call ∈ callsAll code, good (.call call.dest call.callee call.args)
  | [], _, _, hmem => absurd hmem List.not_mem_nil
  | _ :: _, h, made, hmem =>
    (List.mem_append.mp hmem).elim (Everywhere.of_mem_calls h.1 made)
      (EverywhereAll.of_mem_calls h.2 made)

end

end Instr

end IsaBackend
