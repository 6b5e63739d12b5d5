import IsaBackend.Proofs.Machine.Frames
import IsaBackend.Proofs.Machine.Rules

/-!
# Locals that code leaves alone

An instruction can change the locals that it introduces or releases and the local at the root of its
destination. Every other local is the same after the code has run, whatever the callees do.
-/

namespace IsaBackend

namespace Instr

mutual

/-- The names that an instruction introduces, releases or stores to. -/
def writes : Instr → List String
  | .decl _ name => [name]
  | .alloc _ name => [name]
  | .init _ name _ => [name]
  | .release _ name => [name]
  | .branch _ onTrue onFalse _ => writesAll onTrue ++ writesAll onFalse
  | .call dest _ _ => [dest.root]
  | .convert dest _ => [dest.root]
  | .assign dest _ => [dest.root]
  | .copy dest _ => [dest.root]
  | .loop body => writesAll body
  | .ret _ => []
  | .comment _ => []
  | .leave => []

def writesAll : List Instr → List String
  | [] => []
  | instr :: rest => writes instr ++ writesAll rest

end

end Instr

namespace Frame

variable {frame final : Frame} {name key : String}

theorem get?_bind_of_ne (hne : key ≠ name) (rep : Rep) (value : Value) (owned : Bool) :
    (frame.bind name rep value owned).get? key = frame.get? key :=
  (NameTable.get?_set frame name _ key).trans (if_neg hne)

private theorem get?_allocate_of_ne (hne : key ≠ name) {rep : Rep} {value : Value}
    (h : frame.allocate name rep value = .ok final) : final.get? key = frame.get? key := by
  rw [allocate_eq_ok h]
  exact get?_bind_of_ne hne rep value true

private theorem get?_release_of_ne (hne : key ≠ name) (h : frame.release name = .ok final) :
    final.get? key = frame.get? key := by
  obtain ⟨slot, _, rfl⟩ := release_eq_ok h
  exact (NameTable.get?_set frame name _ key).trans (if_neg hne)

private theorem get?_write_of_ne (hne : key ≠ name) {value : Value}
    (h : frame.write name value = .ok final) : final.get? key = frame.get? key := by
  obtain ⟨slot, _, rfl⟩ := write_eq_ok h
  exact (NameTable.get?_set frame name _ key).trans (if_neg hne)

end Frame

namespace Activation

variable {act final : Activation} {name key : String} {value : Value}

private theorem get?_write_of_ne (hne : key ≠ name) (h : act.write name value = .ok final) :
    final.frame.get? key = act.frame.get? key := by
  unfold write at h
  split at h
  · obtain ⟨frame, hframe, hfinal⟩ := except_bind_eq_ok.mp h
    cases hfinal
    exact Frame.get?_write_of_ne hne hframe
  · split at h
    · cases h
      rfl
    · cases h

private theorem get?_store_of_ne {program : Program} : ∀ {dest : Place} {value : Value},
    key ≠ dest.root → act.store program dest value = .ok final →
      final.frame.get? key = act.frame.get? key
  | .name name rep, value, hne, h => by
    obtain ⟨stored, _, hwrite⟩ := except_bind_eq_ok.mp h
    exact get?_write_of_ne hne hwrite
  | .deref name rep, value, hne, h => by
    obtain ⟨stored, _, hwrite⟩ := except_bind_eq_ok.mp h
    exact get?_write_of_ne hne hwrite
  | .field base field rep, value, hne, h => by
    obtain ⟨stored, _, hrest⟩ := except_bind_eq_ok.mp h
    obtain ⟨record, _, hset⟩ := except_bind_eq_ok.mp hrest
    have hbase : key ≠ base.root := hne
    split at hset
    · exact get?_store_of_ne hbase hset
    · cases hset

end Activation

/-- A local is the same after an execution that succeeds. -/
def Exec.Keeps (name : String) (exec : Exec Flow) : Prop :=
  ∀ act : Activation, Meets exec act
    (fun _ final => final.frame.get? name = act.frame.get? name) fun _ _ => True

namespace Instr

variable {name : String} (program : Program) (callees : Callees)

private theorem storing_keeps {dest : Place} (hne : name ≠ dest.root) (value : Value) :
    Exec.Keeps name (do
      Exec.store program dest value
      return Flow.next) :=
  fun _ => Exec.meets_store (fun _ _ => trivial) fun _ => Activation.get?_store_of_ne hne

private theorem moving_keeps {dest : Place} (hne : name ≠ dest.root) (operand : Operand) :
    Exec.Keeps name (do
      Exec.spend
      let value ← Exec.ask fun act => act.eval program operand
      Exec.store program dest value
      return Flow.next) :=
  fun act => Exec.meets_spend trivial fun fuel _ => Exec.meets_ask (fun _ _ => trivial)
    fun value _ => storing_keeps program hne value { act with fuel }

private theorem changing_keeps {update : Frame → Except RunError Frame}
    (h : ∀ frame final, update frame = .ok final → final.get? name = frame.get? name) :
    Exec.Keeps name (do
      Exec.changeFrame update
      return Flow.next) :=
  fun act => Exec.meets_changeFrame (fun _ _ => trivial) fun frame => h act.frame frame

mutual

theorem exec_keeps : ∀ {instr : Instr}, name ∉ instr.writes →
    Exec.Keeps name (instr.exec program callees)
  | .decl rep key, h, act => by
    have hne : name ≠ key := List.ne_of_not_mem_cons h
    refine Exec.meets_spend trivial fun fuel _ =>
      changing_keeps (fun frame final hok => ?_) { act with fuel }
    cases hok
    exact Frame.get?_bind_of_ne hne _ _ _
  | .alloc rep key, h, act => Exec.meets_spend trivial fun fuel _ => changing_keeps
    (fun _ _ => Frame.get?_allocate_of_ne (List.ne_of_not_mem_cons h)) { act with fuel }
  | .init rep key operand, h, act => Exec.meets_spend trivial fun fuel _ =>
    Exec.meets_ask (fun _ _ => trivial) fun _ _ => changing_keeps
      (fun _ _ => Frame.get?_allocate_of_ne (List.ne_of_not_mem_cons h)) { act with fuel }
  | .branch test onTrue onFalse rep, h, act => by
    have hboth : name ∉ writesAll onTrue ∧ name ∉ writesAll onFalse := by
      simpa only [writes, List.mem_append, not_or] using h
    refine Exec.meets_spend trivial fun fuel _ => Exec.meets_ask (fun _ _ => trivial)
      fun value _ => ?_
    split
    · exact execAll_keeps hboth.1 { act with fuel }
    · exact execAll_keeps hboth.2 { act with fuel }
    · trivial
  | .call dest callee args, h, act => Exec.meets_spend trivial fun _ _ =>
    Exec.meets_ask (fun _ _ => trivial) fun _ _ => Exec.meets_outside <|
      .intro (fun result store _ => storing_keeps program (List.ne_of_not_mem_cons h) result
        ⟨store, act.frame⟩) fun _ _ _ => trivial
  | .convert dest operand, h, act => moving_keeps program (List.ne_of_not_mem_cons h) operand act
  | .assign dest operand, h, act => moving_keeps program (List.ne_of_not_mem_cons h) operand act
  | .copy dest operand, h, act => moving_keeps program (List.ne_of_not_mem_cons h) operand act
  | .release rep key, h, act => Exec.meets_spend trivial fun fuel _ => changing_keeps
    (fun _ _ => Frame.get?_release_of_ne (List.ne_of_not_mem_cons h)) { act with fuel }
  | .ret operand, _, act => Exec.meets_spend trivial fun _ _ =>
    Exec.meets_ask (fun _ _ => trivial) fun _ _ => Meets.pure rfl
  | .comment _, _, act => Exec.meets_spend trivial fun _ _ => Meets.pure rfl
  | .loop body, h, act => by
    refine Exec.meets_spend trivial fun fuel _ => ?_
    split
    · trivial
    · refine Exec.meets_iterate (fun final => final.frame.get? name = act.frame.get? name)
        (fun _ _ => trivial) (fun middle hmiddle => ?_) _ _ rfl
      refine (execAll_keeps h middle).mono fun flow final hfinal => ?_
      cases flow <;> exact hfinal.trans hmiddle
  | .leave, _, act => Exec.meets_spend trivial fun _ _ => Meets.pure rfl

/-- A local that code does not write is the same after it. -/
theorem execAll_keeps : ∀ {code : List Instr}, name ∉ writesAll code →
    Exec.Keeps name (execAll program callees code)
  | [], _, _ => Meets.pure rfl
  | instr :: rest, h, act => by
    have hboth : name ∉ instr.writes ∧ name ∉ writesAll rest := by
      simpa only [writesAll, List.mem_append, not_or] using h
    refine (exec_keeps hboth.1 act).bind fun flow middle hmiddle => ?_
    split
    · exact (execAll_keeps hboth.2 middle).mono fun _ _ hfinal => hfinal.trans hmiddle
    · exact hmiddle

end

end Instr

end IsaBackend
