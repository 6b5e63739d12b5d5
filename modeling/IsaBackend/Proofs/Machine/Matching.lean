import IsaBackend.Proofs.Lifetime.Soundness
import IsaBackend.Proofs.Machine.Costs
import IsaBackend.Proofs.Machine.Facts
import IsaBackend.Proofs.Machine.Frames
import IsaBackend.Proofs.Machine.Rules

/-!
# Matching code runs alike

Where the facts hold at the start, matching code ends in the same way on both sides, and the facts
at its end hold. The two sides take their steps together and spend the same fuel. Code that pairs an
allocation and a release wrongly matches any other; for code of which that is excluded the two sides
agree in earnest.
-/

namespace IsaBackend

/-- Results of two computations that agree, unless one of them ends in an allocation and a release
that do not pair up. -/
inductive Twins {σ τ α β : Type} (alike : σ → τ → Prop) (good : α → σ → β → τ → Prop) :
    EStateM.Result RunError σ α → EStateM.Result RunError τ β → Prop where
  | give {value : α} {final : σ} {twinValue : β} {twinFinal : τ} :
    good value final twinValue twinFinal →
    Twins alike good (.ok value final) (.ok twinValue twinFinal)
  | fail {cause : RunError} {final : σ} {twinFinal : τ} : alike final twinFinal →
    Twins alike good (.error cause final) (.error cause twinFinal)
  | breakLeft {cause : RunError} {final : σ} {result : EStateM.Result RunError τ β} :
    cause.breaksPairing = true → Twins alike good (.error cause final) result
  | breakRight {cause : RunError} {final : τ} {result : EStateM.Result RunError σ α} :
    cause.breaksPairing = true → Twins alike good result (.error cause final)

namespace Twins

variable {σ τ α β γ δ : Type} {alike : σ → τ → Prop} {good : α → σ → β → τ → Prop}

protected theorem bind {act : EStateM RunError σ α} {twin : EStateM RunError τ β}
    {next : α → EStateM RunError σ γ} {twinNext : β → EStateM RunError τ δ} {state : σ} {other : τ}
    {better : γ → σ → δ → τ → Prop} (h : Twins alike good (act state) (twin other))
    (hnext : ∀ value final twinValue twinFinal, good value final twinValue twinFinal →
      Twins alike better (next value final) (twinNext twinValue twinFinal)) :
    Twins alike better ((act >>= next) state) ((twin >>= twinNext) other) := by
  generalize hact : act state = result at h
  generalize htwin : twin other = twinResult at h
  cases h with
  | give hgood =>
    rw [bind_of_ok hact, bind_of_ok htwin]
    exact hnext _ _ _ _ hgood
  | fail halike =>
    rw [bind_of_error hact, bind_of_error htwin]
    exact .fail halike
  | breakLeft hcause =>
    rw [bind_of_error hact]
    exact .breakLeft hcause
  | breakRight hcause =>
    rw [bind_of_error htwin]
    exact .breakRight hcause

private theorem mono {better : α → σ → β → τ → Prop} {result : EStateM.Result RunError σ α}
    {twinResult : EStateM.Result RunError τ β} (h : Twins alike good result twinResult)
    (himp : ∀ value final twinValue twinFinal, good value final twinValue twinFinal →
      better value final twinValue twinFinal) : Twins alike better result twinResult := by
  cases h with
  | give hgood => exact .give (himp _ _ _ _ hgood)
  | fail halike => exact .fail halike
  | breakLeft hcause => exact .breakLeft hcause
  | breakRight hcause => exact .breakRight hcause

end Twins

/-- Executions that agree, with the same registers and fuel where they fail. -/
abbrev Exec.Twins {α β : Type} (good : α → Activation → β → Activation → Prop) :
    EStateM.Result RunError Activation α → EStateM.Result RunError Activation β → Prop :=
  IsaBackend.Twins (fun final twinFinal => final.toStore = twinFinal.toStore) good

/-- Calls that give the same result and leave the same registers and fuel. -/
def Callees.Twin (callees twin : Callees) : Prop :=
  ∀ callee args store, Twins (· = ·)
    (fun value final twinValue twinFinal => value = twinValue ∧ final = twinFinal)
    (callees callee args store) (twin callee args store)

section Steps

variable [OwnNames] {α β γ : Type} {facts : Facts} {act other : Activation}
  {good : α → Activation → β → Activation → Prop}

private theorem Facts.Paired.spend {exec : Exec α} {twin : Exec β} (h : facts.Paired act other)
    (hexec : ∀ act other, facts.Paired act other → Exec.Twins good (exec act) (twin other)) :
    Exec.Twins good ((Exec.spend >>= fun _ => exec) act)
      ((Exec.spend >>= fun _ => twin) other) := by
  obtain ⟨⟨registers, fuel⟩, frame⟩ := act
  obtain ⟨store, twinFrame⟩ := other
  obtain ⟨hframes, rfl⟩ := h
  cases fuel with
  | zero => exact .fail rfl
  | succ fuel => exact hexec _ _ ⟨hframes, rfl⟩

private theorem Facts.Paired.ask {question twinQuestion : Activation → Except RunError γ}
    {next : γ → Exec α} {twinNext : γ → Exec β} (h : facts.Paired act other)
    (hsame : question act = twinQuestion other)
    (hnext : ∀ value, Exec.Twins good (next value act) (twinNext value other)) :
    Exec.Twins good ((Exec.ask question >>= next) act) ((Exec.ask twinQuestion >>= twinNext) other) := by
  cases hanswer : question act with
  | ok value =>
    rw [bind_of_ok (Exec.ask_of_ok hanswer), bind_of_ok (Exec.ask_of_ok (hsame ▸ hanswer))]
    exact hnext value
  | error cause =>
    rw [bind_of_error (Exec.ask_of_error hanswer),
      bind_of_error (Exec.ask_of_error (hsame ▸ hanswer))]
    exact .fail h.store

end Steps

section TwoSides

variable [OwnNames] {facts : Facts} {program twinProgram : Program} {callees twin : Callees}
  {act other : Activation}

def Flow.Fall (facts : Facts) (flow : Flow) (act : Activation) (twinFlow : Flow)
    (twinAct : Activation) : Prop :=
  flow = .next ∧ twinFlow = .next ∧ facts.Paired act twinAct

private theorem Place.Matches.twins {dest twinDest : Place} (hplace : dest.Matches facts twinDest)
    (h : facts.Paired act other) (hmembers : program.SameMembers twinProgram) (value : Value) :
    Exec.Twins (Flow.Fall facts)
      ((Exec.store program dest value >>= fun _ => pure Flow.next) act)
      ((Exec.store twinProgram twinDest value >>= fun _ => pure Flow.next)
        other) := by
  have hagree := hplace.store h hmembers value
  generalize hstore : act.store program dest value = result at hagree
  generalize htwin : other.store twinProgram twinDest value = twinResult at hagree
  cases hagree with
  | @ok final twinFinal hpaired =>
    rw [bind_of_ok (Exec.store_of_ok hstore), bind_of_ok (Exec.store_of_ok htwin)]
    exact .give ⟨rfl, rfl, hpaired⟩
  | error cause =>
    rw [bind_of_error (Exec.store_of_error hstore), bind_of_error (Exec.store_of_error htwin)]
    exact .fail h.store

private theorem Twins.lands {update twinUpdate : Frame → Except RunError Frame}
    (hupdate : ∀ cause, update act.frame = .error cause → cause.breaksPairing = true)
    (htwin : ∀ cause, twinUpdate other.frame = .error cause → cause.breaksPairing = true)
    (hstore : act.toStore = other.toStore)
    (hhold : ∀ next twinNext, update act.frame = .ok next → twinUpdate other.frame = .ok twinNext →
      facts.Hold next twinNext) :
    Exec.Twins (Flow.Fall facts) ((Exec.changeFrame update >>= fun _ => pure Flow.next) act)
      ((Exec.changeFrame twinUpdate >>= fun _ => pure Flow.next) other) := by
  cases hnext : update act.frame with
  | error cause =>
    rw [bind_of_error (Exec.changeFrame_of_error hnext)]
    exact .breakLeft (hupdate cause hnext)
  | ok next =>
    cases htwinNext : twinUpdate other.frame with
    | error cause =>
      rw [bind_of_error (Exec.changeFrame_of_error htwinNext)]
      exact .breakRight (htwin cause htwinNext)
    | ok twinNext =>
      rw [bind_of_ok (Exec.changeFrame_of_ok hnext), bind_of_ok (Exec.changeFrame_of_ok htwinNext)]
      exact .give ⟨rfl, rfl, hhold next twinNext hnext htwinNext, hstore⟩

private theorem Instr.Introduce.twins {left right : String} {instr twinInstr : Instr}
    (hintro : instr.Introduce facts left right twinInstr) (halike : Facts.Alike left right)
    (hleft : ¬facts.HasLeft left) (hright : ¬facts.HasRight right) (h : facts.Paired act other)
    (hmembers : program.SameMembers twinProgram) :
    Exec.Twins (Flow.Fall (facts.tie left right)) (instr.exec program callees act)
      (twinInstr.exec twinProgram twin other) := by
  -- a local with storage, or one that is live already
  have hallocate : ∀ (act other : Activation), facts.Paired act other → ∀ (rep : Rep) (value : Value),
      Exec.Twins (Flow.Fall (facts.tie left right))
        ((Exec.changeFrame (fun frame => frame.allocate left rep value) >>= fun _ => pure Flow.next)
          act)
        ((Exec.changeFrame (fun frame => frame.allocate right rep value) >>= fun _ => pure Flow.next)
          other) := by
    intro act other h rep value
    refine Twins.lands (fun _ hcause => ?_) (fun _ hcause => ?_) h.store
      fun next twinNext hnext htwinNext => ?_
    · rw [Frame.allocate_eq_error hcause]
      rfl
    · rw [Frame.allocate_eq_error hcause]
      rfl
    rw [Frame.allocate_eq_ok hnext, Frame.allocate_eq_ok htwinNext]
    exact h.frames.tie halike hleft hright rfl
  cases hintro with
  | decl rep =>
    refine h.spend fun act other h => .give ⟨rfl, rfl, ?_, h.store⟩
    exact h.frames.tie halike hleft hright rfl
  | alloc rep => exact h.spend fun act other h => hallocate act other h rep rep.initial
  | @init operand twinOperand rep hoperand =>
    refine h.spend fun act other h => h.ask ?_ fun value => hallocate act other h rep value
    rw [hoperand.eval h hmembers]

private theorem Instr.Act.twins {instr twinInstr : Instr} (hact : instr.Act facts twinInstr)
    (hcallees : callees.Twin twin) (h : facts.Paired act other)
    (hmembers : program.SameMembers twinProgram) :
    Exec.Twins (Flow.Fall facts) (instr.exec program callees act)
      (twinInstr.exec twinProgram twin other) := by
  cases hact with
  | @move _ _ dest twinDest operand twinOperand hmoves htwinMoves hplace hoperand =>
    have hmove : Exec.Twins (Flow.Fall facts)
        ((Exec.spend >>= fun _ => Exec.ask (fun act => act.eval program operand) >>= fun value =>
          Exec.store program dest value >>= fun _ => pure Flow.next) act)
        ((Exec.spend >>= fun _ => Exec.ask (fun act => act.eval twinProgram twinOperand) >>=
          fun value => Exec.store twinProgram twinDest value >>=
            fun _ => pure Flow.next) other) :=
      h.spend fun act other h => h.ask (hoperand.eval h hmembers) fun value =>
        hplace.twins h hmembers value
    rcases hmoves with rfl | rfl | rfl <;> rcases htwinMoves with rfl | rfl | rfl <;> exact hmove
  | @call dest twinDest args twinArgs callee hplace hargs =>
    refine h.spend fun act other h => h.ask (hargs.eval h hmembers) fun values => ?_
    have hcall := hcallees callee values act.toStore
    have houtside : Exec.Twins
        (fun value final twinValue twinFinal => value = twinValue ∧ facts.Paired final twinFinal)
        (Exec.outside (callees callee values) act) (Exec.outside (twin callee values) other) := by
      unfold Exec.outside
      rw [← h.store]
      generalize callees callee values act.toStore = result at hcall
      generalize twin callee values act.toStore = twinResult at hcall
      cases hcall with
      | give hsame => exact .give ⟨hsame.1, h.frames, hsame.2⟩
      | fail hsame => exact .fail hsame
      | breakLeft hcause => exact .breakLeft hcause
      | breakRight hcause => exact .breakRight hcause
    refine houtside.bind ?_
    rintro result final _ twinFinal ⟨rfl, hpaired⟩
    exact hplace.twins hpaired hmembers result
  | comment text twinText => exact h.spend fun _ _ h => .give ⟨rfl, rfl, h⟩

def Flow.Together (exit last : Facts) (flow : Flow) (act : Activation) (twinFlow : Flow)
    (twinAct : Activation) : Prop :=
  match flow, twinFlow with
  | .next, .next => last.Paired act twinAct
  | .leave, .leave => exit.Paired act twinAct
  | .ret value, .ret twinValue => value = twinValue ∧ ({} : Facts).Paired act twinAct
  | _, _ => False

private theorem Twins.cons {instr twinInstr : Instr} {rest twinRest : List Instr}
    {exit middle last : Facts}
    (h : Exec.Twins (Flow.Together exit middle) (instr.exec program callees act)
      (twinInstr.exec twinProgram twin other))
    (hrest : ∀ final twinFinal, middle.Paired final twinFinal →
      Exec.Twins (Flow.Together exit last) (Instr.execAll program callees rest final)
        (Instr.execAll twinProgram twin twinRest twinFinal)) :
    Exec.Twins (Flow.Together exit last) (Instr.execAll program callees (instr :: rest) act)
      (Instr.execAll twinProgram twin (twinInstr :: twinRest) other) := by
  refine h.bind ?_
  intro flow final twinFlow twinFinal htogether
  cases flow with
  | next =>
    cases twinFlow with
    | next => exact hrest final twinFinal htogether
    | _ => exact htogether.elim
  | leave =>
    cases twinFlow with
    | leave => exact .give htogether
    | _ => exact htogether.elim
  | ret value =>
    cases twinFlow with
    | ret twinValue => exact .give htogether
    | _ => exact htogether.elim

private theorem Flow.Fall.together {exit : Facts} {flow twinFlow : Flow}
    (h : Flow.Fall facts flow act twinFlow other) :
    Flow.Together exit facts flow act twinFlow other := by
  obtain ⟨rfl, rfl, hpaired⟩ := h
  exact hpaired

/-- Loops whose rounds run alike run alike. The induction is on the number of rounds. -/
theorem Twins.iterate {exit : Facts} {body twinBody : Exec Flow}
    (hbody : ∀ act other, facts.Paired act other →
      Exec.Twins (Flow.Together facts facts) (body act) (twinBody other)) :
    ∀ (rounds : Nat) (act other : Activation), facts.Paired act other →
      Exec.Twins (Flow.Together exit facts) (Exec.iterate body rounds act)
        (Exec.iterate twinBody rounds other) := by
  intro rounds
  induction rounds with
  | zero => exact fun _ _ h => .fail h.store
  | succ rounds ih =>
    intro act other h
    refine (hbody act other h).bind fun flow final twinFlow twinFinal htogether => ?_
    cases flow with
    | next =>
      cases twinFlow with
      | next => exact ih final twinFinal htogether
      | _ => exact htogether.elim
    | leave =>
      cases twinFlow with
      | leave => exact .give htogether
      | _ => exact htogether.elim
    | ret value =>
      cases twinFlow with
      | ret twinValue => exact .give htogether
      | _ => exact htogether.elim

/-- Matching code runs alike. -/
theorem Instr.Match.twins {exit last : Facts} {code twinCode : List Instr}
    (hmatch : Instr.Match exit facts code twinCode last)
    (hmembers : program.SameMembers twinProgram) (hcallees : callees.Twin twin) :
    ∀ {act other : Activation}, facts.Paired act other →
      Exec.Twins (Flow.Together exit last) (Instr.execAll program callees code act)
        (Instr.execAll twinProgram twin twinCode other) := by
  induction hmatch with
  | nil exit facts => exact fun h => .give h
  | weaken hless _ ih => exact fun h => ih (h.mono hless)
  | introduce hintro halike hleft hright _ ih =>
    intro act other h
    exact Twins.cons ((hintro.twins halike hleft hright h hmembers).mono
      fun _ _ _ _ => Flow.Fall.together) fun _ _ => ih
  | act hact _ ih =>
    intro act other h
    exact Twins.cons ((hact.twins hcallees h hmembers).mono fun _ _ _ _ => Flow.Fall.together)
      fun _ _ => ih
  | @release exit facts less last left right _ _ rep twinRep hsame hless hleft hright _ ih =>
    intro act other h
    have hrelease : Exec.Twins (Flow.Fall less) ((Instr.release rep left).exec program callees act)
        ((Instr.release twinRep right).exec twinProgram twin other) := by
      refine h.spend fun act other h => Twins.lands (fun _ hcause => ?_) (fun _ hcause => ?_) h.store
        fun next twinNext hnext htwinNext => ?_
      · rcases Frame.release_eq_error hcause with rfl | rfl <;> rfl
      · rcases Frame.release_eq_error hcause with rfl | rfl <;> rfl
      obtain ⟨slot, hslot, rfl⟩ := Frame.release_eq_ok hnext
      obtain ⟨twinSlot, htwinSlot, rfl⟩ := Frame.release_eq_ok htwinNext
      obtain rfl : slot = twinSlot := by
        have hget := h.frames.get? hsame
        rw [hslot, htwinSlot] at hget
        exact Option.some.inj hget
      exact (h.frames.mono hless).replace (h.frames.alike_of_same hsame) hleft hright _
    exact Twins.cons (hrelease.mono fun _ _ _ _ => Flow.Fall.together) fun _ _ => ih
  | @branch exit facts middle last test twinTest onTrue onFalse twinTrue twinFalse _ _ rep twinRep
      htest _ _ _ ihTrue ihFalse ih =>
    intro act other h
    have hbranch : Exec.Twins (Flow.Together exit middle)
        ((Instr.branch test onTrue onFalse rep).exec program callees act)
        ((Instr.branch twinTest twinTrue twinFalse twinRep).exec twinProgram twin other) := by
      refine h.spend fun act other h => h.ask (htest.eval h hmembers) fun value => ?_
      cases value with
      | bool flag =>
        cases flag with
        | true => exact ihTrue h
        | false => exact ihFalse h
      | _ => exact .fail h.store
    exact Twins.cons hbranch fun _ _ => ih
  | @loop exit facts last body twinBody _ _ hbody htwinBody _ _ ihBody ih =>
    intro act other h
    have hloop : Exec.Twins (Flow.Together exit facts) ((Instr.loop body).exec program callees act)
        ((Instr.loop twinBody).exec twinProgram twin other) := by
      rw [Instr.exec_loop hbody, Instr.exec_loop htwinBody]
      refine h.spend fun act other h => ?_
      have hfuel : other.fuel = act.fuel := congrArg Store.fuel h.store.symm
      unfold Exec.forever
      rw [hfuel]
      exact Twins.iterate (fun _ _ h => ihBody h) _ act other h
    exact Twins.cons hloop fun _ _ => ih
  | @ret exit facts last operand twinOperand code twinCode hoperand =>
    intro act other h
    have hret : Exec.Twins (fun flow final twinFlow twinFinal => ∃ value, flow = .ret value ∧
          twinFlow = .ret value ∧ facts.Paired final twinFinal)
        ((Instr.ret operand).exec program callees act)
        ((Instr.ret twinOperand).exec twinProgram twin other) :=
      h.spend fun act other h => h.ask (hoperand.eval h hmembers) fun value =>
        .give ⟨value, rfl, rfl, h⟩
    refine hret.bind ?_
    rintro _ final _ twinFinal ⟨value, rfl, rfl, hpaired⟩
    exact .give ⟨rfl, hpaired.mono facts.within_empty⟩
  | @leave exit facts last code twinCode hexit =>
    intro act other h
    have hleave : Exec.Twins (fun flow final twinFlow twinFinal => flow = .leave ∧
          twinFlow = .leave ∧ facts.Paired final twinFinal)
        ((Instr.leave).exec program callees act) ((Instr.leave).exec twinProgram twin other) :=
      h.spend fun _ _ h => .give ⟨rfl, rfl, h⟩
    refine hleave.bind ?_
    rintro _ final _ twinFinal ⟨rfl, rfl, hpaired⟩
    exact .give (hpaired.mono hexit)

end TwoSides

end IsaBackend
