import IsaBackend.Proofs.Machine.Frames
import IsaBackend.Proofs.Machine.Fuel
import IsaBackend.Proofs.Machine.Rules
import IsaBackend.Proofs.Value.Conforming

/-!
# Stored values fit their representation

Every place that an instruction writes carries a representation, and the value is brought into its
shape before it is stored. If the representation at the root of the place is the one that the root was
declared with, on every path to the write, then every local and every register holds values that fit,
after any sequence of register writes and calls, whether they succeed or fail.
-/

namespace IsaBackend

/-- The representations that the locals of an activation were declared with. -/
abbrev Declared := String → Option Rep

namespace Declared

def none : Declared := fun _ => .none

/-- A declaration takes the place of an earlier one of the name. -/
def declare (locals : Declared) (name : String) (rep : Rep) : Declared := fun key =>
  if key = name then some rep else locals key

end Declared

def Frame.declared (frame : Frame) : Declared := fun name => (frame.get? name).map Slot.rep

/-- The representation of a register, by the last of its declarations. -/
def Program.registerRep? (program : Program) (name : String) : Option Rep :=
  (program.initialRegisters.get? name).map Register.rep

def Place.rootRep : Place → Rep
  | name _ rep => rep
  | field base _ _ => base.rootRep
  | deref _ rep => rep

/-- A place has the representation that its root was declared with: as a local, or else as a
register. -/
def Place.Agrees (program : Program) (locals : Declared) (place : Place) : Prop :=
  ∀ rep ∈ (locals place.root).or (program.registerRep? place.root), place.rootRep = rep

instance (program : Program) (locals : Declared) (place : Place) :
    Decidable (place.Agrees program locals) :=
  inferInstanceAs (Decidable (∀ rep ∈ _, place.rootRep = rep))

/-- Conditions on the declarations that hold when code ends, for each way to end. -/
structure Exits where
  next : Declared → Prop
  leave : Declared → Prop
  ret : Declared → Prop

def Exits.after (exits : Exits) : Flow → Declared → Prop
  | .next => exits.next
  | .leave => exits.leave
  | .ret _ => exits.ret

namespace Instr

mutual

/-- On every path through an instruction, each place that is written agrees with the declarations at
that point, and the declarations at the end satisfy the condition for that end. -/
def Annotated (program : Program) : Instr → Exits → Declared → Prop
  | decl rep name, exits, locals => exits.next (locals.declare name rep)
  | alloc rep name, exits, locals => exits.next (locals.declare name rep)
  | init rep name _, exits, locals => exits.next (locals.declare name rep)
  | branch _ onTrue onFalse _, exits, locals =>
    AnnotatedAll program onTrue exits locals ∧ AnnotatedAll program onFalse exits locals
  | call dest _ _, exits, locals => dest.Agrees program locals ∧ exits.next locals
  | convert dest _, exits, locals => dest.Agrees program locals ∧ exits.next locals
  | assign dest _, exits, locals => dest.Agrees program locals ∧ exits.next locals
  | copy dest _, exits, locals => dest.Agrees program locals ∧ exits.next locals
  | release _ _, exits, locals => exits.next locals
  | ret _, exits, locals => exits.ret locals
  | comment _, exits, locals => exits.next locals
  -- what holds at the start of one round has to hold at the start of the next
  | loop body, exits, locals => ∃ start : Declared → Prop, start locals ∧
    ∀ locals, start locals → AnnotatedAll program body ⟨start, exits.next, exits.ret⟩ locals
  | leave, exits, locals => exits.leave locals

def AnnotatedAll (program : Program) : List Instr → Exits → Declared → Prop
  | [], exits, locals => exits.next locals
  | instr :: rest, exits, locals =>
    instr.Annotated program ⟨AnnotatedAll program rest exits, exits.leave, exits.ret⟩ locals

end

mutual

def localReps : Instr → List Rep
  | decl rep _ => [rep]
  | alloc rep _ => [rep]
  | init rep _ _ => [rep]
  | branch _ onTrue onFalse _ => localRepsAll onTrue ++ localRepsAll onFalse
  | loop body => localRepsAll body
  | _ => []

def localRepsAll : List Instr → List Rep
  | [] => []
  | instr :: rest => instr.localReps ++ localRepsAll rest

end

end Instr

namespace Routine

def entryDeclared (routine : Routine) : Declared :=
  let locals := routine.params.foldl (fun locals param => locals.declare param.1 param.2) .none
  if routine.returnsByReference then locals.declare resultParam routine.result else locals

/-- Every place agrees with the declarations, and so does the result parameter wherever a routine
returns through it. -/
def Annotated (program : Program) (routine : Routine) : Prop :=
  Instr.AnnotatedAll program routine.body
    { next := fun _ => True
      leave := fun _ => True
      ret := fun locals =>
        routine.returnsByReference = true → locals resultParam = some routine.result }
    routine.entryDeclared

def reps (routine : Routine) : List Rep :=
  routine.result :: routine.params.map Prod.snd ++ Instr.localRepsAll routine.body

end Routine

namespace Program

def reps (program : Program) : List Rep :=
  program.registers.map Prod.snd ++ program.routines.flatMap Routine.reps

def Annotated (program : Program) : Prop :=
  ∀ routine ∈ program.routines, routine.Annotated program

end Program

/-- Every register has the representation it was declared with, and a value that fits it. -/
structure Store.Fits (program : Program) (store : Store) : Prop where
  reps : ∀ name, (store.registers.get? name).map Register.rep = program.registerRep? name
  values : ∀ name register, store.registers.get? name = some register →
    register.rep.Fits register.value

def Frame.Fits (frame : Frame) : Prop :=
  ∀ name slot, frame.get? name = some slot → slot.rep.isSound = true ∧ slot.rep.Fits slot.value

structure Activation.Fits (program : Program) (act : Activation) : Prop where
  store : act.toStore.Fits program
  locals : act.frame.Fits

/-- Calls leave registers that fit, whether they succeed or fail, and the results of routines fit. -/
def Callees.Fit (program : Program) (callees : Callees) : Prop :=
  ∀ name args store, store.Fits program → Meets (callees name args) store
    (fun value final => final.Fits program ∧
      ∀ routine, program.routine? name = some routine → routine.result.Fits value)
    fun _ final => final.Fits program

namespace Frame

variable {frame : Frame}

private theorem declared_bind (name : String) (rep : Rep) (value : Value) (owned : Bool) :
    (frame.bind name rep value owned).declared = frame.declared.declare name rep := by
  funext key
  by_cases h : key = name <;> simp [declared, Declared.declare, Frame.bind, h]

private theorem Fits.bind (h : frame.Fits) {rep : Rep} {value : Value} (hsound : rep.isSound = true)
    (hvalue : rep.Fits value) (name : String) (owned : Bool) :
    (frame.bind name rep value owned).Fits := by
  intro key slot hslot
  by_cases hkey : key = name
  · simp only [Frame.bind, NameTable.get?_set, if_pos hkey, Option.some.injEq] at hslot
    subst hslot
    exact ⟨hsound, hvalue⟩
  · simp only [Frame.bind, NameTable.get?_set, if_neg hkey] at hslot
    exact h key slot hslot

private theorem Fits.setSlot (h : frame.Fits) {name : String} {old new : Slot}
    (hold : frame.get? name = some old) (hrep : new.rep = old.rep)
    (hvalue : new.rep.Fits new.value) :
    Frame.Fits (frame.set name new) ∧ Frame.declared (frame.set name new) = frame.declared := by
  constructor
  · intro key slot hslot
    by_cases hkey : key = name
    · simp only [NameTable.get?_set, if_pos hkey, Option.some.injEq] at hslot
      subst hslot
      exact ⟨hrep ▸ (h name old hold).1, hvalue⟩
    · simp only [NameTable.get?_set, if_neg hkey] at hslot
      exact h key slot hslot
  · funext key
    by_cases hkey : key = name
    · subst hkey
      simp [declared, hold, hrep]
    · simp [declared, hkey]

private theorem Fits.release (h : frame.Fits) {name : String} {next : Frame}
    (hnext : frame.release name = .ok next) :
    next.Fits ∧ next.declared = frame.declared := by
  obtain ⟨slot, hslot, rfl⟩ := release_eq_ok hnext
  exact h.setSlot hslot rfl (Rep.initial_fits (h name slot hslot).1)

private theorem Fits.write (h : frame.Fits) {name : String} {value : Value} {next : Frame}
    (hvalue : ∀ rep, frame.declared name = some rep → rep.Fits value)
    (hnext : frame.write name value = .ok next) :
    next.Fits ∧ next.declared = frame.declared := by
  obtain ⟨slot, hslot, rfl⟩ := write_eq_ok hnext
  exact h.setSlot hslot rfl (hvalue slot.rep (by simp [declared, hslot]))

private theorem Fits.read (h : frame.Fits) {name : String} {rep : Rep} {value : Value}
    (hrep : frame.declared name = some rep) (hvalue : frame.read name = .ok value) :
    rep.Fits value := by
  obtain ⟨slot, hslot, _, rfl⟩ := read_eq_ok.mp hvalue
  simp only [declared, hslot, Option.map_some, Option.some.injEq] at hrep
  exact hrep ▸ (h name slot hslot).2

end Frame

section Writing

variable {program : Program} {act final : Activation}

private theorem Store.Fits.set {store : Store} (h : store.Fits program) {name : String}
    {register : Register} {value : Value} (hregister : store.registers.get? name = some register)
    (hvalue : register.rep.Fits value) :
    Store.Fits program
      { store with registers := store.registers.set name { register with value } } where
  reps := by
    intro key
    by_cases hkey : key = name
    · subst hkey
      simp [← h.reps key, hregister]
    · simpa [hkey] using h.reps key
  values := by
    intro key other hother
    by_cases hkey : key = name
    · simp only [NameTable.get?_set, if_pos hkey, Option.some.injEq] at hother
      subst hother
      exact hvalue
    · simp only [NameTable.get?_set, if_neg hkey] at hother
      exact h.values key other hother

private theorem Activation.Fits.write (h : act.Fits program) {name : String} {value : Value}
    (hvalue : ∀ rep, (act.frame.declared name).or (program.registerRep? name) = some rep →
      rep.Fits value)
    (hwrite : act.write name value = .ok final) :
    final.Fits program ∧ final.frame.declared = act.frame.declared := by
  unfold Activation.write at hwrite
  split at hwrite
  · obtain ⟨frame, hframe, hwrite⟩ := except_bind_eq_ok.mp hwrite
    cases hwrite
    obtain ⟨hfits, hsame⟩ := h.locals.write (fun rep hrep => hvalue rep (by simp [hrep])) hframe
    exact ⟨⟨h.store, hfits⟩, hsame⟩
  · rename_i hlocal
    split at hwrite
    · rename_i register hregister
      cases hwrite
      have hnone : act.frame.declared name = none := by
        simpa [Frame.declared, NameTable.contains] using hlocal
      have hrep : program.registerRep? name = some register.rep := by
        rw [← h.store.reps name, hregister]
        rfl
      have hfits : register.rep.Fits value := hvalue register.rep (by simp [hnone, hrep])
      exact ⟨⟨h.store.set hregister hfits, h.locals⟩, rfl⟩
    · cases hwrite

def Program.RegistersSound (program : Program) : Prop :=
  ∀ name rep, program.registerRep? name = some rep → rep.isSound = true

private theorem Activation.Fits.rep_sound (h : act.Fits program)
    (hregisters : program.RegistersSound) {name : String} {rep : Rep}
    (hrep : (act.frame.declared name).or (program.registerRep? name) = some rep) :
    rep.isSound = true := by
  cases hslot : act.frame.get? name with
  | none =>
    simp only [Frame.declared, hslot, Option.map_none, Option.none_or] at hrep
    exact hregisters name rep hrep
  | some slot =>
    simp only [Frame.declared, hslot, Option.map_some, Option.some_or, Option.some.injEq] at hrep
    exact hrep ▸ (h.locals name slot hslot).1

/-- Storing at a place that agrees with the declarations keeps them. Only the representation at the
root counts: a field is stored by storing the record around it. -/
theorem Activation.Fits.store_place (h : act.Fits program) (hregisters : program.RegistersSound) :
    ∀ {place : Place} {value : Value}, place.Agrees program act.frame.declared →
      act.store program place value = .ok final →
      final.Fits program ∧ final.frame.declared = act.frame.declared
  | .name name rep, value, hagrees, hstore => by
    obtain ⟨given, hgiven, hwrite⟩ := except_bind_eq_ok.mp hstore
    refine h.write (fun declared hdeclared => ?_) hwrite
    obtain rfl : rep = declared := hagrees declared hdeclared
    exact Rep.fits_of_conform (h.rep_sound hregisters hdeclared) hgiven
  | .deref name rep, value, hagrees, hstore => by
    obtain ⟨given, hgiven, hwrite⟩ := except_bind_eq_ok.mp hstore
    refine h.write (fun declared hdeclared => ?_) hwrite
    obtain rfl : rep = declared := hagrees declared hdeclared
    exact Rep.fits_of_conform (h.rep_sound hregisters hdeclared) hgiven
  | .field base field rep, value, hagrees, hstore => by
    obtain ⟨given, _, hstore⟩ := except_bind_eq_ok.mp hstore
    obtain ⟨record, _, hstore⟩ := except_bind_eq_ok.mp hstore
    split at hstore
    · have hbase : base.Agrees program act.frame.declared := hagrees
      exact h.store_place hregisters hbase hstore
    · cases hstore

private theorem Activation.Fits.refuel (h : act.Fits program) (fuel : Nat) :
    Activation.Fits program { act with fuel } :=
  ⟨⟨h.store.reps, h.store.values⟩, h.locals⟩

end Writing

/-- An execution that succeeds keeps all values fitting and ends as foreseen, and one that fails leaves
registers that fit. -/
def Exec.Reaches (program : Program) (exits : Exits) (exec : Exec Flow) (act : Activation) : Prop :=
  Meets exec act (fun flow final => final.Fits program ∧ exits.after flow final.frame.declared)
    fun _ final => final.toStore.Fits program

section Execution

variable {program : Program} {callees : Callees} {exits : Exits} {act : Activation}

private theorem declare_reaches (h : act.Fits program) {rep : Rep} (hsound : rep.isSound = true)
    {value : Value} (hvalue : rep.Fits value) {name : String} (owned : Bool)
    (hnext : exits.next (act.frame.declared.declare name rep))
    {update : Frame → Except RunError Frame}
    (hupdate : ∀ frame, update act.frame = .ok frame → frame = act.frame.bind name rep value owned) :
    Exec.Reaches program exits (do Exec.changeFrame update; return Flow.next) act := by
  refine Exec.meets_changeFrame (fun _ _ => h.store) fun frame hframe => ?_
  obtain rfl := hupdate frame hframe
  rw [← Frame.declared_bind name rep value owned] at hnext
  exact ⟨⟨h.store, h.locals.bind hsound hvalue name owned⟩, hnext⟩

private theorem store_reaches (h : act.Fits program) (hregisters : program.RegistersSound)
    {dest : Place} (hagrees : dest.Agrees program act.frame.declared)
    (hnext : exits.next act.frame.declared) (value : Value) :
    Exec.Reaches program exits
      (do Exec.store program dest value; return Flow.next) act := by
  refine Exec.meets_store (fun _ _ => h.store) fun final hfinal => ?_
  obtain ⟨hfits, hsame⟩ := h.store_place hregisters hagrees hfinal
  exact ⟨hfits, (congrArg exits.next hsame).mpr hnext⟩

private theorem move_reaches (h : act.Fits program) (hregisters : program.RegistersSound)
    {dest : Place} (hagrees : dest.Agrees program act.frame.declared)
    (hnext : exits.next act.frame.declared) (operand : Operand) :
    Exec.Reaches program exits
      (do
        Exec.spend
        let value ← Exec.ask fun act => act.eval program operand
        Exec.store program dest value
        return Flow.next) act := by
  refine Exec.meets_spend h.store fun fuel _ => ?_
  have hpaid := h.refuel fuel
  exact Exec.meets_ask (fun _ _ => hpaid.store) fun value _ =>
    store_reaches hpaid hregisters hagrees hnext value

mutual

/-- An instruction whose places agree with the declarations keeps all values fitting. -/
theorem Instr.exec_reaches (hcallees : callees.Fit program) (hregisters : program.RegistersSound) :
    ∀ {instr : Instr} {exits : Exits} {act : Activation},
      (∀ rep ∈ instr.localReps, rep.isSound = true) → act.Fits program →
      instr.Annotated program exits act.frame.declared →
      Exec.Reaches program exits (instr.exec program callees) act
  | .decl rep name, exits, act, hreps, h, hnext => by
    have hsound := hreps rep List.mem_cons_self
    refine Exec.meets_spend h.store fun fuel _ => ?_
    refine declare_reaches (h.refuel fuel) hsound (Rep.initial_fits hsound) false hnext ?_
    rintro frame ⟨⟩
    rfl
  | .alloc rep name, exits, act, hreps, h, hnext => by
    have hsound := hreps rep List.mem_cons_self
    refine Exec.meets_spend h.store fun fuel _ => ?_
    exact declare_reaches (h.refuel fuel) hsound (Rep.initial_fits hsound) true hnext
      fun frame => Frame.allocate_eq_ok
  | .init rep name operand, exits, act, hreps, h, hnext => by
    have hsound := hreps rep List.mem_cons_self
    refine Exec.meets_spend h.store fun fuel _ => ?_
    have hpaid := h.refuel fuel
    refine Exec.meets_ask (fun _ _ => hpaid.store) fun value hvalue => ?_
    obtain ⟨_, _, hvalue⟩ := except_bind_eq_ok.mp hvalue
    obtain ⟨_, _, hvalue⟩ := except_bind_eq_ok.mp hvalue
    exact declare_reaches hpaid hsound (Rep.fits_of_conform hsound hvalue) true hnext
      fun frame => Frame.allocate_eq_ok
  | .branch test onTrue onFalse rep, exits, act, hreps, h, ⟨htrue, hfalse⟩ => by
    refine Exec.meets_spend h.store fun fuel _ => ?_
    have hpaid := h.refuel fuel
    refine Exec.meets_ask (fun _ _ => hpaid.store) fun value _ => ?_
    have hreps' := List.forall_mem_append.mp hreps
    cases value with
    | bool value =>
      cases value with
      | true => exact Instr.execAll_reaches hcallees hregisters hreps'.1 hpaid htrue
      | false => exact Instr.execAll_reaches hcallees hregisters hreps'.2 hpaid hfalse
    | _ => exact hpaid.store
  | .call dest callee args, exits, act, _, h, ⟨hagrees, hnext⟩ => by
    refine Exec.meets_spend h.store fun fuel _ => ?_
    have hpaid := h.refuel fuel
    refine Exec.meets_ask (fun _ _ => hpaid.store) fun values _ => Exec.meets_outside ?_
    refine (hcallees callee values _ hpaid.store).mono fun result store hstore => ?_
    have hback : Activation.Fits program ⟨store, act.frame⟩ := ⟨hstore.1, h.locals⟩
    exact store_reaches hback hregisters hagrees hnext result
  | .convert dest operand, _, _, _, h, ⟨hagrees, hnext⟩ =>
    move_reaches h hregisters hagrees hnext operand
  | .assign dest operand, _, _, _, h, ⟨hagrees, hnext⟩ =>
    move_reaches h hregisters hagrees hnext operand
  | .copy dest operand, _, _, _, h, ⟨hagrees, hnext⟩ =>
    move_reaches h hregisters hagrees hnext operand
  | .release _ name, exits, act, _, h, hnext => by
    refine Exec.meets_spend h.store fun fuel _ => ?_
    have hpaid := h.refuel fuel
    refine Exec.meets_changeFrame (fun _ _ => hpaid.store) fun frame hrelease => ?_
    obtain ⟨hfits, hsame⟩ := h.locals.release hrelease
    rw [← hsame] at hnext
    exact ⟨⟨hpaid.store, hfits⟩, hnext⟩
  | .ret operand, exits, act, _, h, hret => by
    refine Exec.meets_spend h.store fun fuel _ => ?_
    have hpaid := h.refuel fuel
    exact Exec.meets_ask (fun _ _ => hpaid.store) fun value _ => ⟨hpaid, hret⟩
  | .comment _, exits, act, _, h, hnext =>
    Exec.meets_spend h.store fun fuel _ => ⟨h.refuel fuel, hnext⟩
  | .loop body, exits, act, hreps, h, ⟨start, hstart, hbody⟩ => by
    refine Exec.meets_spend h.store fun fuel _ => ?_
    have hpaid := h.refuel fuel
    split
    · exact hpaid.store
    · refine Exec.meets_iterate (fun act => act.Fits program ∧ start act.frame.declared)
        (fun _ hround => hround.1.store) (fun act hround => ?_) _ _ ⟨hpaid, hstart⟩
      refine (Instr.execAll_reaches hcallees hregisters hreps hround.1 (hbody _ hround.2)).mono
        fun flow final hfinal => ?_
      cases flow <;> exact hfinal
  | .leave, exits, act, _, h, hleave =>
    Exec.meets_spend h.store fun fuel _ => ⟨h.refuel fuel, hleave⟩

private theorem Instr.execAll_reaches (hcallees : callees.Fit program)
    (hregisters : program.RegistersSound) :
    ∀ {code : List Instr} {exits : Exits} {act : Activation},
      (∀ rep ∈ Instr.localRepsAll code, rep.isSound = true) → act.Fits program →
      Instr.AnnotatedAll program code exits act.frame.declared →
      Exec.Reaches program exits (Instr.execAll program callees code) act
  | [], _, _, _, h, hnext => ⟨h, hnext⟩
  | instr :: rest, exits, act, hreps, h, hcode => by
    obtain ⟨hfirst, hrest⟩ := List.forall_mem_append.mp hreps
    refine Meets.bind (Instr.exec_reaches hcallees hregisters hfirst h hcode)
      fun flow final hfinal => ?_
    cases flow with
    | next => exact Instr.execAll_reaches hcallees hregisters hrest hfinal.1 hfinal.2
    | leave => exact hfinal
    | ret value => exact hfinal

end

end Execution

section Calls

variable {program : Program}

private theorem Routine.bindParams_fits : ∀ {params : List (String × Rep)} {args : List Value}
    {frame next : Frame}, (∀ rep ∈ params.map Prod.snd, rep.isSound = true) →
      args.length = params.length → frame.Fits → Routine.bindParams frame params args = .ok next →
      next.Fits ∧ next.declared =
        params.foldl (fun locals param => locals.declare param.1 param.2) frame.declared
  | [], [], _, _, _, _, h, hbind => by
    cases hbind
    exact ⟨h, rfl⟩
  | (name, rep) :: params, arg :: args, frame, next, hreps, hlength, h, hbind => by
    obtain ⟨value, hvalue, hbind⟩ := except_bind_eq_ok.mp hbind
    obtain ⟨hsound, hreps⟩ := List.forall_mem_cons.mp hreps
    have hfirst := h.bind hsound (Rep.fits_of_conform hsound hvalue) name false
    have hrest := Routine.bindParams_fits hreps (Nat.succ.inj hlength) hfirst hbind
    rwa [Frame.declared_bind] at hrest

/-- A routine starts with its parameters and, if it returns by reference, with a result parameter
that holds the value of fresh storage. -/
theorem Routine.entryFrame_fits {routine : Routine} (hreps : ∀ rep ∈ routine.reps, rep.isSound = true)
    {args : List Value} {frame : Frame} (h : routine.entryFrame args = .ok frame) :
    frame.Fits ∧ frame.declared = routine.entryDeclared := by
  obtain ⟨hresult, hreps⟩ := List.forall_mem_cons.mp hreps
  obtain ⟨hparams, _⟩ := List.forall_mem_append.mp hreps
  unfold Routine.entryFrame at h
  split at h
  · cases h
  rename_i hlength
  obtain ⟨bound, hbound, h⟩ := except_bind_eq_ok.mp h
  have hempty : (∅ : Frame).Fits := fun name slot hslot => nomatch hslot
  obtain ⟨hfits, hdeclared⟩ := Routine.bindParams_fits hparams (Decidable.not_not.mp hlength) hempty hbound
  have hnone : (∅ : Frame).declared = .none := rfl
  rw [hnone] at hdeclared
  split at h
  · rename_i hreference
    cases h
    refine ⟨hfits.bind hresult (Rep.initial_fits hresult) resultParam false, ?_⟩
    rw [Frame.declared_bind, hdeclared, Routine.entryDeclared, if_pos hreference]
  · rename_i hvalue
    cases h
    refine ⟨hfits, ?_⟩
    rw [hdeclared, Routine.entryDeclared, if_neg hvalue]

private theorem Routine.run_fits {callees : Callees} (hcallees : callees.Fit program)
    (hregisters : program.RegistersSound) {routine : Routine}
    (hreps : ∀ rep ∈ routine.reps, rep.isSound = true) (hroutine : routine.Annotated program)
    (args : List Value) {store : Store} (hstore : store.Fits program) :
    Meets (routine.run program callees args) store
      (fun value final => final.Fits program ∧ routine.result.Fits value)
      fun _ final => final.Fits program := by
  refine Routine.meets_run (fun _ _ => hstore) fun frame hentry => ?_
  obtain ⟨hframe, hdeclared⟩ := Routine.entryFrame_fits hreps hentry
  obtain ⟨hresult, hothers⟩ := List.forall_mem_cons.mp hreps
  have hlocals := (List.forall_mem_append.mp hothers).2
  have hact : Activation.Fits program { store with frame } := ⟨⟨hstore.reps, hstore.values⟩, hframe⟩
  rw [Routine.Annotated, ← hdeclared] at hroutine
  refine (Instr.execAll_reaches hcallees hregisters hlocals hact hroutine).mono ?_
  rintro flow final ⟨hfinal, hafter⟩
  refine ⟨fun _ _ => hfinal.store, fun value hexit => ⟨hfinal.store, ?_⟩⟩
  unfold Routine.exitValue at hexit
  split at hexit
  · split at hexit
    · cases hexit
    split at hexit
    · rename_i hreference
      exact hfinal.locals.read (hafter hreference) hexit
    · exact Rep.fits_of_conform hresult hexit
  · cases hexit

end Calls

namespace Program

variable {program : Program}

private theorem get?_foldl_set {α : Type} {name : String} {value : α} :
    ∀ (entries : List (String × α)) (table : NameTable α),
      (entries.foldl (fun table entry => table.set entry.1 entry.2) table).get? name = some value →
      (name, value) ∈ entries ∨ table.get? name = some value
  | [], _, h => .inr h
  | (key, other) :: rest, table, h => by
    rcases get?_foldl_set rest (table.set key other) h with hrest | htable
    · exact .inl (List.mem_cons_of_mem _ hrest)
    · rw [NameTable.get?_set] at htable
      split at htable
      · rename_i hkey
        cases htable
        exact .inl (hkey ▸ List.mem_cons_self)
      · exact .inr htable

private theorem initialRegisters_get? {name : String} {register : Register}
    (h : program.initialRegisters.get? name = some register) :
    ∃ rep, (name, rep) ∈ program.registers ∧ register = ⟨rep.initial, rep⟩ := by
  rcases get?_foldl_set _ _ h with hmem | hnone
  · obtain ⟨⟨key, rep⟩, hrep, heq⟩ := List.mem_map.mp hmem
    cases heq
    exact ⟨rep, hrep, rfl⟩
  · cases hnone

private theorem registersSound_of_reps (hreps : ∀ rep ∈ program.reps, rep.isSound = true) :
    program.RegistersSound := by
  intro name rep hrep
  obtain ⟨register, hregister, rfl⟩ := Option.map_eq_some_iff.mp hrep
  obtain ⟨rep, hmem, rfl⟩ := initialRegisters_get? hregister
  exact hreps rep (List.mem_append_left _ (List.mem_map.mpr ⟨(name, rep), hmem, rfl⟩))

private theorem initialRegisters_fit (hreps : ∀ rep ∈ program.reps, rep.isSound = true)
    (fuel : Nat) : Store.Fits program ⟨program.initialRegisters, fuel⟩ where
  reps := fun _ => rfl
  values := by
    intro name register hregister
    obtain ⟨rep, hmem, rfl⟩ := initialRegisters_get? hregister
    exact Rep.initial_fits
      (hreps rep (List.mem_append_left _ (List.mem_map.mpr ⟨(name, rep), hmem, rfl⟩)))

/-- Calls keep the registers fitting, by induction on how deep they nest. -/
theorem invoke_fits (hreps : ∀ rep ∈ program.reps, rep.isSound = true)
    (hannotated : program.Annotated) (depth : Nat) : Callees.Fit program (program.invoke depth) := by
  induction depth with
  | zero => exact fun _ _ _ hstore => hstore
  | succ depth ih =>
    intro name args store hstore
    rw [Program.invoke_succ]
    cases hroutine : program.routine? name with
    | some routine =>
      have hmem : routine ∈ program.routines := List.mem_of_find?_eq_some hroutine
      have hsound : ∀ rep ∈ routine.reps, rep.isSound = true := fun rep hrep =>
        hreps rep (List.mem_append_right _ (List.mem_flatMap.mpr ⟨routine, hmem, hrep⟩))
      simp only [Program.answer, hroutine, Option.some.injEq, forall_eq']
      exact Routine.run_fits ih (registersSound_of_reps hreps) hsound (hannotated routine hmem) args
        hstore
    | none =>
      obtain ⟨result, hresult⟩ := Program.answer_outside hroutine args
      rw [hresult]
      cases result with
      | ok value => exact ⟨hstore, by simp⟩
      | error cause => exact hstore

end Program

namespace Machine

inductive Step where
  | set (name : String) (value : Value)
  | call (name : String) (args : List Value)

def step (machine : Machine) : Step → Machine
  | .set name value =>
    match machine.setRegister name value with
    | .ok next => next
    | .error _ => machine
  | .call name args => (machine.call name args).2

def after (machine : Machine) (steps : List Step) : Machine := steps.foldl step machine

/-- The registers of a machine fit the program it runs. -/
def Fits (program : Program) (machine : Machine) : Prop :=
  machine.program = program ∧ Store.Fits program ⟨machine.registers, machine.fuel⟩

section

variable {program : Program} {machine : Machine}

private theorem Fits.setRegister (h : machine.Fits program) (hregisters : program.RegistersSound)
    {name : String} {value : Value} {next : Machine}
    (hset : machine.setRegister name value = .ok next) : next.Fits program := by
  unfold Machine.setRegister at hset
  split at hset
  · cases hset
  · rename_i register hregister
    obtain ⟨given, hgiven, hset⟩ := except_bind_eq_ok.mp hset
    cases hset
    have hrep : program.registerRep? name = some register.rep := by
      rw [← h.2.reps name, hregister]
      rfl
    exact ⟨h.1, h.2.set hregister (Rep.fits_of_conform (hregisters name _ hrep) hgiven)⟩

private theorem Fits.call (h : machine.Fits program) (hcalls : Callees.Fit program program.call)
    (name : String) (args : List Value) :
    (machine.call name args).2.Fits program ∧
      ∀ routine value, program.routine? name = some routine →
        (machine.call name args).1 = .ok value → routine.result.Fits value := by
  obtain ⟨rfl, hstore⟩ := h
  have hcall := hcalls name args ⟨machine.registers, machine.fuel⟩ hstore
  unfold Machine.call
  cases hresult : machine.program.call name args ⟨machine.registers, machine.fuel⟩ with
  | error cause final =>
    have hfinal := hcall.error hresult
    exact ⟨⟨rfl, ⟨hfinal.reps, hfinal.values⟩⟩, fun _ _ _ hok => nomatch hok⟩
  | ok given final =>
    obtain ⟨hfinal, hvalue⟩ := hcall.ok hresult
    refine ⟨⟨rfl, ⟨hfinal.reps, hfinal.values⟩⟩, fun routine value hroutine hok => ?_⟩
    cases hok
    exact hvalue routine hroutine

private theorem Fits.after (h : machine.Fits program) (hregisters : program.RegistersSound)
    (hcalls : Callees.Fit program program.call) (steps : List Step) :
    (machine.after steps).Fits program := by
  induction steps generalizing machine with
  | nil => exact h
  | cons first rest ih =>
    refine ih ?_
    cases first with
    | call name args => exact (h.call hcalls name args).1
    | set name value =>
      change Fits program (match machine.setRegister name value with
        | .ok next => next
        | .error _ => machine)
      cases hset : machine.setRegister name value with
      | error cause => exact h
      | ok next => exact h.setRegister hregisters hset

end

/-- If every place agrees with the declarations, and so does the result parameter wherever a routine
returns through it, then after any register writes and calls every register holds a value of the shape
of its representation, and so is every result of a routine. -/
theorem stored_values_fit (program : Program) (fuel : Nat)
    (hreps : ∀ rep ∈ program.reps, rep.isSound = true) (hannotated : program.Annotated)
    (steps : List Step) :
    (∀ name rep, program.registerRep? name = some rep →
      ∃ value, ((ofProgram program fuel).after steps).register? name = some value ∧
        rep.conform value = .ok value) ∧
    ∀ name routine args value, program.routine? name = some routine →
      (((ofProgram program fuel).after steps).call name args).1 = .ok value →
      routine.result.conform value = .ok value := by
  have hcalls : Callees.Fit program program.call := fun name args store =>
    Program.invoke_fits hreps hannotated (store.fuel + 1) name args store
  have hstart : (ofProgram program fuel).Fits program :=
    ⟨rfl, Program.initialRegisters_fit hreps fuel⟩
  have hfits := hstart.after (Program.registersSound_of_reps hreps) hcalls steps
  constructor
  · intro name rep hrep
    rw [← hfits.2.reps name] at hrep
    obtain ⟨register, hregister, rfl⟩ := Option.map_eq_some_iff.mp hrep
    exact ⟨register.value, congrArg (Option.map Register.value) hregister,
      hfits.2.values name register hregister⟩
  · intro name routine args value hroutine hok
    exact (hfits.call hcalls name args).2 routine value hroutine hok

end Machine

/-- A routine that writes a field of a register in a loop, and returns through its result
parameter. -/
def Program.tallying : Program where
  items := [
    .register "T" (.struct "tally" [("low", .packedBits 8 .dec), ("count", .machInt)]),
    .routine {
      name := "tally"
      params := [("top", .machInt)]
      result := .bigInt
      body := [
        .decl .machInt "n",
        .loop [
          .branch (.inline (.binary .gt (.name "n") (.name "top")) .bool) [.leave] [] .unit,
          .assign (.name "n" .machInt) (.inline (.binary .add (.name "n") (.int 1)) .machInt),
          .assign (.field (.name "T" (.struct "tally" [("low", .packedBits 8 .dec),
            ("count", .machInt)])) "low" (.packedBits 8 .dec))
            (.inline (.bits 300 16) (.wideBits .dec))],
        .copy (.deref "rop" .bigInt) (.name "n" .machInt),
        .ret .unit] }]

theorem Program.tallying_values_fit :
    ((∀ rep ∈ Program.tallying.reps, rep.isSound = true) ∧ Program.tallying.Annotated) ∧
      ∀ fuel steps,
        (∃ value, ((Machine.ofProgram Program.tallying fuel).after steps).register? "T" = some value ∧
          Rep.conform (.struct "tally" [("low", .packedBits 8 .dec), ("count", .machInt)]) value =
            .ok value) ∧
        ∀ args value,
          (((Machine.ofProgram Program.tallying fuel).after steps).call "tally" args).1 = .ok value →
            Rep.conform .bigInt value = .ok value := by
  have hreps : ∀ rep ∈ Program.tallying.reps, rep.isSound = true := by decide
  have hannotated : Program.tallying.Annotated := by
    refine List.forall_mem_singleton.mpr ?_
    -- the loop declares nothing
    refine ⟨fun locals => locals = _, rfl, ?_⟩
    rintro _ rfl
    refine ⟨?_, ?_, ?_, rfl⟩
    · exact ⟨by decide, fun _ => by decide⟩
    · decide
    · decide
  refine ⟨⟨hreps, hannotated⟩, fun fuel steps => ?_⟩
  obtain ⟨hregister, hresult⟩ :=
    Machine.stored_values_fit Program.tallying fuel hreps hannotated steps
  exact ⟨hregister "T" _ rfl, fun args value hok => hresult "tally" _ args value rfl hok⟩

/-- A routine that declares its result parameter anew, at another representation. It writes no place
at all. -/
def Program.redeclaring : Program where
  items := [.routine {
    name := "redeclare"
    params := []
    result := .bigInt
    body := [.decl .bool "rop", .ret .unit] }]

/-- Places that agree with the declarations are not enough: the result is what the result parameter
holds, at whatever representation it was declared last. -/
theorem Program.redeclaring_misfits :
    (∀ rep ∈ Program.redeclaring.reps, rep.isSound = true) ∧
    (∀ routine ∈ Program.redeclaring.routines, Instr.AnnotatedAll Program.redeclaring routine.body
      ⟨fun _ => True, fun _ => True, fun _ => True⟩ routine.entryDeclared) ∧
    ((Machine.ofProgram Program.redeclaring 100).call "redeclare" []).1 = .ok (.bool false) ∧
    Rep.conform .bigInt (.bool false) ≠ .ok (.bool false) := by
  refine ⟨by decide, List.forall_mem_singleton.mpr trivial, rfl, ?_⟩
  intro h
  cases h

end IsaBackend
