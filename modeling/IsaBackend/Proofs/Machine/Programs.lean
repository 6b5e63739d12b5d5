import IsaBackend.Proofs.Machine.Matching
import IsaBackend.Proofs.Machine.Safety
import Mathlib.Data.List.Forall2

/-!
# Matching programs

Programs whose routines match do the same when they are called: on any fuel they give the same result
or the same error and leave the same registers. The induction is on the depth of the calls, since
routines call each other.
-/

namespace IsaBackend

section Routines

variable [OwnNames] {program twinProgram : Program} {callees twinCallees : Callees}
  {routine twin : Routine} {args : List Value} {frame : Frame}

private theorem Routine.bindParams_agree {params twins : List (String × Rep)}
    (hreps : twins.map Prod.snd = params.map Prod.snd) (hlength : args.length = params.length)
    {pairs : List (String × String)} {other : Frame}
    (hpairing : Facts.Pairing (pairedNames params twins ++ pairs))
    (hhold : ({ ties := pairs } : Facts).Hold frame other) :
    ResultsAgree
      (Facts.Hold { ties := pairedNames params twins ++ pairs })
      (Routine.bindParams frame params args) (Routine.bindParams other twins args) := by
  induction params generalizing twins args pairs frame other with
  | nil =>
    obtain rfl := List.map_eq_nil_iff.mp hreps
    exact .ok hhold
  | cons param params ih =>
    obtain ⟨twin, twins, rfl⟩ : ∃ twin rest, twins = twin :: rest := by
      cases twins with
      | nil => cases hreps
      | cons twin rest => exact ⟨twin, rest, rfl⟩
    obtain ⟨name, rep⟩ := param
    obtain ⟨twinName, twinRep⟩ := twin
    obtain ⟨rfl, hrest⟩ := List.cons.inj hreps
    cases args with
    | nil => cases hlength
    | cons arg args =>
      -- The ties of the parameters that were bound before are on the right of the others.
      have hmoved : (pairedNames params twins ++ (name, twinName) :: pairs) ⊆
          (name, twinName) :: (pairedNames params twins ++ pairs) := by
        intro entry he
        simp only [List.mem_append, List.mem_cons] at he ⊢
        exact or_left_comm.mp he
      unfold Routine.bindParams
      cases twinRep.conform arg with
      | error cause => exact .error cause
      | ok value =>
        have hfirst := hhold.pair (hpairing.mono fun _ he =>
          List.mem_cons.mpr ((List.mem_cons.mp he).imp_right (List.mem_append_right _)))
          (rfl : ({ rep := twinRep, value, owned := false } : Slot).released = false)
        have hboth := ih hrest (Nat.succ.inj hlength) (hpairing.mono hmoved) hfirst
        exact hboth.mono fun _ _ hheld => hheld.mono fun entry he => by
          simpa [or_left_comm] using he

private theorem Routine.Matches.entryFrame (h : routine.Matches twin) (args : List Value) :
    ResultsAgree (Facts.Hold { ties := pairedNames routine.params twin.params })
      (routine.entryFrame args) (twin.entryFrame args) := by
  have hlength : twin.params.length = routine.params.length := by
    simpa using congrArg List.length h.reps
  have hempty : ({ ties := [] } : Facts).Hold ∅ ∅ :=
    ⟨fun _ _ => rfl, fun _ hn => absurd hn List.not_mem_nil,
      fun _ hn => absurd hn List.not_mem_nil, fun _ hn => absurd hn List.not_mem_nil⟩
  unfold Routine.entryFrame
  rw [h.name, hlength]
  split
  · exact .error _
  · rename_i hargs
    have hbound := Routine.bindParams_agree h.reps (Decidable.not_not.mp hargs)
      (by simpa using h.pairing) hempty
    refine hbound.bind fun frame other hhold => ?_
    have htwin : twin.returnsByReference = routine.returnsByReference := by
      rw [Routine.returnsByReference, h.result, Routine.returnsByReference]
    rw [List.append_nil] at hhold
    rw [htwin, h.result]
    split
    · rename_i hreference
      have hresult : Facts.Same { ties := pairedNames routine.params twin.params } Routine.resultParam
          Routine.resultParam := .inr ⟨rfl, not_own_result (h.reference hreference)⟩
      exact .ok (hhold.set hresult rfl)
    · exact .ok hhold

/-- Routines that match give the same result when their bodies have ended alike, unless one of them
has left storage behind. -/
private theorem Routine.Matches.exitValue (h : routine.Matches twin) {last : Facts}
    {flow twinFlow : Flow} {act twinAct : Activation}
    (hends : Flow.Together {} last flow act twinFlow twinAct) :
    act.toStore = twinAct.toStore ∧
    (routine.exitValue act.frame flow = twin.exitValue twinAct.frame twinFlow ∨
      (∃ name, routine.exitValue act.frame flow = .error (.leak routine.name name)) ∨
      ∃ name, twin.exitValue twinAct.frame twinFlow = .error (.leak twin.name name)) := by
  have hmissing : Except.error (.noReturn routine.name) =
      (.error (.noReturn twin.name) : Except RunError Value) := by rw [h.name]
  cases flow with
  | next =>
    cases twinFlow with
    | next => exact ⟨hends.store, .inl hmissing⟩
    | _ => exact hends.elim
  | leave =>
    cases twinFlow with
    | leave => exact ⟨hends.store, .inl hmissing⟩
    | _ => exact hends.elim
  | ret value =>
    cases twinFlow with
    | ret twinValue =>
      obtain ⟨rfl, hpaired⟩ := hends
      refine ⟨hpaired.store, ?_⟩
      simp only [Routine.exitValue]
      cases hleak : act.frame.firstLeak? with
      | some name => exact .inr (.inl ⟨name, rfl⟩)
      | none =>
        cases htwinLeak : twinAct.frame.firstLeak? with
        | some name => exact .inr (.inr ⟨name, rfl⟩)
        | none =>
          have hsame : twin.returnsByReference = routine.returnsByReference := by
            rw [Routine.returnsByReference, h.result, Routine.returnsByReference]
          simp only [hsame, h.result]
          split
          · rename_i hreference
            have hget := hpaired.frames.shared Routine.resultParam
              (not_own_result (h.reference hreference))
            exact .inl (by rw [Frame.read, Frame.read, hget])
          · exact .inl rfl
    | _ => exact hends.elim

private theorem Routine.Matches.run (h : routine.Matches twin)
    (hmembers : program.SameMembers twinProgram)
    (hcallees : callees.Twin twinCallees) (args : List Value) (store : Store) :
    Twins (· = ·) (fun value final twinValue twinFinal => value = twinValue ∧ final = twinFinal)
      (routine.run program callees args store) (twin.run twinProgram twinCallees args store) := by
  have hagree := h.entryFrame args
  unfold Routine.run
  generalize routine.entryFrame args = first at hagree
  generalize twin.entryFrame args = second at hagree
  cases hagree with
  | error cause => exact .fail rfl
  | @ok frame twinFrame hframes =>
    obtain ⟨last, hmatch⟩ := h.body
    have hpaired : Facts.Paired { ties := pairedNames routine.params twin.params }
        { store with frame } { store with frame := twinFrame } := ⟨hframes, rfl⟩
    have hbody := hmatch.twins hmembers hcallees hpaired
    simp only
    generalize Instr.execAll program callees routine.body _ = result at hbody
    generalize Instr.execAll twinProgram twinCallees twin.body _ = twinResult at hbody
    cases hbody with
    | @give flow final twinFlow twinFinal hgood =>
      obtain ⟨hfinal, heq | ⟨name, hleak⟩ | ⟨name, hleak⟩⟩ := h.exitValue hgood
      · simp only [heq]
        cases twin.exitValue twinFinal.frame twinFlow with
        | ok value => exact .give ⟨rfl, hfinal⟩
        | error cause => exact .fail hfinal
      · simp only [hleak]
        exact .breakLeft rfl
      · simp only [hleak]
        exact .breakRight rfl
    | fail hfinal => exact .fail hfinal
    | breakLeft hcause => exact .breakLeft hcause
    | breakRight hcause => exact .breakRight hcause

end Routines

section Programs

variable {program twin : Program}

/-- A call of two programs, from the same registers and on the same fuel, gives the same result or
error and leaves the same registers. -/
def Program.CallAlike (program twin : Program) (name : String) (args : List Value)
    (registers : NameTable Register) (fuel : Nat) : Prop :=
  (Machine.call ⟨program, registers, fuel⟩ name args).1 =
      (Machine.call ⟨twin, registers, fuel⟩ name args).1 ∧
    (Machine.call ⟨program, registers, fuel⟩ name args).2.registers =
      (Machine.call ⟨twin, registers, fuel⟩ name args).2.registers

/-- Every call of two programs does the same, on any fuel. -/
def Program.RunAlike (program twin : Program) : Prop :=
  ∀ name args registers fuel, program.CallAlike twin name args registers fuel

theorem Program.RunAlike.refl (program : Program) : program.RunAlike program :=
  fun _ _ _ _ => ⟨rfl, rfl⟩

theorem Program.RunAlike.trans {last : Program} (h : program.RunAlike twin)
    (hnext : twin.RunAlike last) : program.RunAlike last := fun name args registers fuel =>
  ⟨(h name args registers fuel).1.trans (hnext name args registers fuel).1,
    (h name args registers fuel).2.trans (hnext name args registers fuel).2⟩

/-- Compiled definitions that agree but for the bodies of routines, which match. Each routine can
have other names for itself. -/
inductive Item.Matches : Item → Item → Prop where
  | register (name : String) (rep : Rep) : Matches (.register name rep) (.register name rep)
  | layout (rep : Rep) : Matches (.layout rep) (.layout rep)
  | routine [OwnNames] {routine twin : Routine} : routine.Matches twin →
    Matches (.routine routine) (.routine twin)

def Program.Matches (program twin : Program) : Prop :=
  List.Forall₂ Item.Matches program.items twin.items

namespace Program.Matches

private theorem layouts (h : program.Matches twin) : twin.layouts = program.layouts := by
  obtain ⟨items⟩ := program
  obtain ⟨twins⟩ := twin
  change List.Forall₂ _ items twins at h
  unfold Program.layouts
  induction h with
  | nil => rfl
  | cons hitem _ ih => cases hitem <;> simp [ih]

private theorem routine? (h : program.Matches twin) (name : String) :
    Option.Rel (fun routine twin => ∃ _ : OwnNames, routine.Matches twin)
      (program.routine? name) (twin.routine? name) := by
  obtain ⟨items⟩ := program
  obtain ⟨twins⟩ := twin
  change List.Forall₂ _ items twins at h
  unfold Program.routine? Program.routines
  induction h with
  | nil => exact .none
  | cons hitem _ ih =>
    cases hitem with
    | register _ _ => exact ih
    | layout _ => exact ih
    | @routine own routine twin hroutine =>
      simp only [List.filterMap_cons, List.find?_cons, hroutine.name]
      cases decide (routine.name = name) with
      | true => exact .some ⟨own, hroutine⟩
      | false => exact ih

private theorem sameMembers (h : program.Matches twin) : program.SameMembers twin := by
  intro name
  unfold Program.isMember
  rw [h.layouts]

private theorem payload? (h : program.Matches twin) (name : String) :
    twin.payload? name = program.payload? name := by
  unfold Program.payload?
  rw [h.layouts]

end Program.Matches

private theorem Program.Matches.calls (h : program.Matches twin) (depth : Nat) :
    (program.invoke depth).Twin (twin.invoke depth) := by
  induction depth with
  | zero => exact fun _ _ _ => .fail rfl
  | succ depth ih =>
    intro callee args store
    have hlift : ∀ result : Except RunError Value, Twins (· = ·)
        (fun value final twinValue twinFinal => value = twinValue ∧ final = twinFinal)
        (lift result store) (lift result store) := by
      intro result
      cases result with
      | ok value => exact .give ⟨rfl, rfl⟩
      | error cause => exact .fail rfl
    have hrel := h.routine? callee
    unfold Program.invoke
    cases hroutine : program.routine? callee with
    | some routine =>
      rw [hroutine] at hrel
      generalize twin.routine? callee = found at hrel
      cases hrel with
      | some hmatch =>
        obtain ⟨_, hmatch⟩ := hmatch
        exact hmatch.run h.sameMembers ih args store
    | none =>
      rw [hroutine] at hrel
      generalize twin.routine? callee = found at hrel
      cases hrel
      rw [h.payload? callee]
      cases program.payload? callee with
      | some payload => exact hlift _
      | none =>
        cases Primitive.call? callee args with
        | some result => exact hlift result
        | none => exact .fail rfl

/-- Programs that match run alike. -/
theorem Program.Matches.runAlike (h : program.Matches twin)
    (hsound : ∀ routine ∈ program.routines, ∃ disc post,
      routine.Sound (·.breaksPairing = false) disc post)
    (htwinSound : ∀ routine ∈ twin.routines, ∃ disc post,
      routine.Sound (·.breaksPairing = false) disc post) : program.RunAlike twin := by
  intro name args registers fuel
  have hadmitted := Program.invoke_admit (fun _ => RunError.breaksPairing_of_isLifetime) hsound
    (fuel + 1) name args ⟨registers, fuel⟩
  have htwinAdmit := Program.invoke_admit (fun _ => RunError.breaksPairing_of_isLifetime)
    htwinSound (fuel + 1) name args ⟨registers, fuel⟩
  have htwins := h.calls (fuel + 1) name args ⟨registers, fuel⟩
  unfold Program.CallAlike Machine.call Program.call
  generalize program.invoke (fuel + 1) name args _ = result at htwins hadmitted
  generalize twin.invoke (fuel + 1) name args _ = twinResult at htwins htwinAdmit
  cases htwins with
  | give hsame => exact ⟨congrArg Except.ok hsame.1, congrArg Store.registers hsame.2⟩
  | fail hsame => exact ⟨rfl, congrArg Store.registers hsame⟩
  | breakLeft hcause => exact absurd ((hadmitted _ _ rfl).symm.trans hcause) Bool.false_ne_true
  | breakRight hcause => exact absurd ((htwinAdmit _ _ rfl).symm.trans hcause) Bool.false_ne_true

end Programs

end IsaBackend
