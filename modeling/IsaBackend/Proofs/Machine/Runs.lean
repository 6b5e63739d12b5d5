import IsaBackend.Proofs.Code.Tidy
import IsaBackend.Proofs.Machine.Calm
import IsaBackend.Proofs.Machine.Rules

/-!
# Runs of straight-line code

What code does when there is fuel enough: it ends in some way with some locals, or it breaks the
lifetime discipline. The second alternative is kept in every rule and excluded once, where the
code as a whole is known to keep to the discipline. Code is taken apart from the front, one rule
for each instruction.
-/

namespace IsaBackend

/-- A local has a value, whether or not it was released. -/
def Frame.Holds (frame : Frame) (name : String) (value : Value) : Prop :=
  ∃ slot, frame.get? name = some slot ∧ slot.value = value

/-- Locals give a result, or a breach of the lifetime discipline, and nothing else has a say. -/
def Frame.Answers {α : Type} (frame : Frame) (question : Program → Activation → Except RunError α)
    (value : α) : Prop :=
  (∀ program store, question program ⟨store, frame⟩ = .ok value) ∨
    ∃ cause : RunError, cause.isLifetime = true ∧
      ∀ program store, question program ⟨store, frame⟩ = .error cause

/-- An operand has a value. -/
def Frame.Reads (frame : Frame) (operand : Operand) (value : Value) : Prop :=
  frame.Answers (fun program act => act.eval program operand) value

namespace Frame

variable {α β : Type} {frame other : Frame} {name : String} {value : Value}

private theorem Answers.bind {question : Program → Activation → Except RunError α}
    {next : α → Program → Activation → Except RunError β} {first : α} {result : β}
    (h : frame.Answers question first) (hnext : frame.Answers (next first) result) :
    frame.Answers (fun program act => question program act >>= fun value => next value program act)
      result := by
  rcases h with h | ⟨cause, hlife, h⟩
  · have hbind : ∀ program store,
        (question program ⟨store, frame⟩ >>= fun value => next value program ⟨store, frame⟩) =
          next first program ⟨store, frame⟩ := by
      intro program store
      rw [h]
      rfl
    rcases hnext with hnext | ⟨cause, hlife, hnext⟩
    · exact .inl fun program store => (hbind program store).trans (hnext program store)
    · exact .inr ⟨cause, hlife, fun program store =>
        (hbind program store).trans (hnext program store)⟩
  · refine .inr ⟨cause, hlife, fun program store => ?_⟩
    change (question program ⟨store, frame⟩ >>= _) = _
    rw [h]
    rfl

private theorem Answers.ok {result : Except RunError α} {value : α} (h : result = .ok value) :
    frame.Answers (fun _ _ => result) value :=
  .inl fun _ _ => h

private theorem Holds.read (h : frame.Holds name value) :
    frame.Answers (fun program act => act.read program name) value := by
  obtain ⟨slot, hslot, rfl⟩ := h
  have hread : ∀ program store, Activation.read program ⟨store, frame⟩ name =
      if slot.released then .error (.useAfterRelease name) else .ok slot.value := by
    intro program store
    simp [Activation.read, NameTable.contains, Frame.read, hslot]
  cases hreleased : slot.released with
  | false => exact .inl fun program store => by simp [hread, hreleased]
  | true =>
    exact .inr ⟨.useAfterRelease name, rfl, fun program store => by simp [hread, hreleased]⟩

theorem Holds.reads (h : frame.Holds name value) (rep : Rep) :
    frame.Reads (.name name rep) value := h.read

theorem Holds.of_get?_eq (h : frame.Holds name value) (heq : other.get? name = frame.get? name) :
    other.Holds name value := by
  obtain ⟨slot, hslot, hvalue⟩ := h
  exact ⟨slot, heq.trans hslot, hvalue⟩

/-- One local has a new value, and the others are as before. -/
structure Updated (frame : Frame) (name : String) (value : Value) (next : Frame) : Prop where
  holds : next.Holds name value
  same : ∀ key, key ≠ name → next.get? key = frame.get? key

theorem updated_set (frame : Frame) (name : String) (slot : Slot) :
    frame.Updated name slot.value (frame.set name slot) where
  holds := ⟨slot, (NameTable.get?_set frame name slot name).trans (if_pos rfl), rfl⟩
  same := fun key h => (NameTable.get?_set frame name slot key).trans (if_neg h)

/-- A value can be stored at a place, which gives a local a value. -/
def Stores (frame : Frame) (dest : Place) (value : Value) (name : String) (stored : Value) :
    Prop :=
  (∃ next, frame.Updated name stored next ∧
    ∀ program store, Activation.store program ⟨store, frame⟩ dest value = .ok ⟨store, next⟩) ∨
  ∃ cause : RunError, cause.isLifetime = true ∧
    ∀ program store, Activation.store program ⟨store, frame⟩ dest value = .error cause

private theorem write_cases {old : Value} (h : frame.Holds name old) (value : Value) :
    (∃ next, frame.Updated name value next ∧
      ∀ store, Activation.write ⟨store, frame⟩ name value = .ok ⟨store, next⟩) ∨
    ∃ cause : RunError, cause.isLifetime = true ∧
      ∀ store, Activation.write ⟨store, frame⟩ name value = .error cause := by
  obtain ⟨slot, hslot, _⟩ := h
  cases hreleased : slot.released with
  | false =>
    refine .inl ⟨_, frame.updated_set name { slot with value }, fun store => ?_⟩
    simp [Activation.write, NameTable.contains, Frame.write, hslot, hreleased, pure, Except.pure]
  | true =>
    refine .inr ⟨.useAfterRelease name, rfl, fun store => ?_⟩
    simp [Activation.write, NameTable.contains, Frame.write, hslot, hreleased, pure, Except.pure]

end Frame

/-- A place that is a whole local, or what a parameter points to. -/
def Place.IsWhole (dest : Place) (name : String) (rep : Rep) : Prop :=
  dest = .name name rep ∨ dest = .deref name rep

namespace Frame

variable {frame : Frame} {name : String} {value stored old : Value}

theorem Holds.stores (h : frame.Holds name old) {dest : Place} {rep : Rep}
    (hdest : dest.IsWhole name rep) (hconform : rep.conform value = .ok stored) :
    frame.Stores dest value name stored := by
  have hstore : ∀ program store, Activation.store program ⟨store, frame⟩ dest value =
      Activation.write ⟨store, frame⟩ name stored := by
    intro program store
    rcases hdest with rfl | rfl <;> simp [Activation.store, hconform]
  rcases write_cases h stored with ⟨next, hnext, hwrite⟩ | ⟨cause, hlife, hwrite⟩
  · exact .inl ⟨next, hnext, fun program store => (hstore program store).trans (hwrite store)⟩
  · exact .inr ⟨cause, hlife, fun program store => (hstore program store).trans (hwrite store)⟩

theorem Holds.stores_field {record updated field : Value} (h : frame.Holds name record)
    {rep fieldRep : Rep} {key : String} (hconform : fieldRep.conform value = .ok field)
    (hset : record.setField? key field = some updated) (hwhole : rep.conform updated = .ok stored) :
    frame.Stores (.field (.name name rep) key fieldRep) value name stored := by
  rcases h.read with hread | ⟨cause, hlife, hread⟩
  · have hinner : ∀ program store, Activation.store program ⟨store, frame⟩
        (.field (.name name rep) key fieldRep) value =
          Activation.store program ⟨store, frame⟩ (.name name rep) updated := by
      intro program store
      have hrecord := hread program store
      simp only at hrecord
      simp [Activation.store, Activation.load, hconform, hrecord, hset]
    rcases h.stores (.inl rfl) hwhole with ⟨next, hnext, hrun⟩ | ⟨cause, hlife, hrun⟩
    · exact .inl ⟨next, hnext, fun program store =>
        (hinner program store).trans (hrun program store)⟩
    · exact .inr ⟨cause, hlife, fun program store =>
        (hinner program store).trans (hrun program store)⟩
  · refine .inr ⟨cause, hlife, fun program store => ?_⟩
    have hrecord := hread program store
    simp only at hrecord
    simp [Activation.store, Activation.load, hconform, hrecord]

end Frame

/-- The value that an operand shows: a local, or a number. -/
def Frame.Shows (frame : Frame) (operand : Operand) (value : Value) : Prop :=
  match operand with
  | .name name _ => frame.Holds name value
  | .inline (.int number) _ => value = .int number
  | _ => False

namespace Frame

variable {frame other : Frame} {operand : Operand} {value : Value}

theorem Shows.reads (h : frame.Shows operand value) : frame.Reads operand value := by
  unfold Shows at h
  split at h
  · exact h.read
  · subst h
    exact .inl fun _ _ => rfl
  · exact h.elim

theorem Shows.of_same (h : frame.Shows operand value)
    (hsame : ∀ name ∈ operand.names, other.get? name = frame.get? name) :
    other.Shows operand value := by
  unfold Shows at h ⊢
  split at h
  · exact h.of_get?_eq (hsame _ (List.mem_singleton_self _))
  · exact h
  · exact h.elim

private theorem Holds.reads_field {name key : String} {record field : Value}
    (h : frame.Holds name record) (hfield : record.field? key = some field) (rep : Rep) :
    frame.Reads (.inline (.field (.name name) key) rep) field := by
  have hproject : Activation.project record key = .ok field := by
    simp only [Activation.project, hfield]
  exact h.read.bind (.ok hproject)

theorem Shows.reads_field {key : String} {record field : Value} (h : frame.Shows operand record)
    (hfield : record.field? key = some field) (rep : Rep) :
    frame.Reads (.inline (.field operand.toInline key) rep) field := by
  unfold Shows at h
  split at h
  · exact h.reads_field hfield rep
  · subst h
    cases hfield
  · exact h.elim

theorem answers_evalAll_nil : frame.Answers (fun program act => act.evalAll program []) [] :=
  .ok rfl

theorem Reads.evalAll_cons {operands : List Operand} {values : List Value}
    (h : frame.Reads operand value)
    (hrest : frame.Answers (fun program act => act.evalAll program operands) values) :
    frame.Answers (fun program act => act.evalAll program (operand :: operands))
      (value :: values) :=
  h.bind (hrest.bind (.ok rfl))

end Frame

theorem Instr.execAll_append (program : Program) (callees : Callees) (code rest : List Instr) :
    Instr.execAll program callees (code ++ rest) =
      Instr.execAll program callees code >>= fun
        | .next => Instr.execAll program callees rest
        | flow => pure flow := by
  induction code with
  | nil => simp [Instr.execAll]
  | cons instr code ih =>
    simp only [List.cons_append, Instr.execAll, bind_assoc]
    congr 1
    funext flow
    cases flow with
    | next => exact ih
    | leave => simp
    | ret value => simp

theorem Instr.execAll_singleton (program : Program) (callees : Callees) (instr : Instr) :
    Instr.execAll program callees [instr] = instr.exec program callees := by
  rw [Instr.execAll]
  conv => rhs; rw [← bind_pure (instr.exec program callees)]
  congr 1
  funext flow
  cases flow <;> rfl

/-- Code ends in some way with some locals, given fuel enough and callees that are good for it, or
breaks the lifetime discipline. It leaves the registers alone. -/
def Instr.Runs (good : Callees → Prop) (code : List Instr) (frame : Frame)
    (post : Flow → Frame → Prop) : Prop :=
  ∃ cost,
    (∃ flow last, post flow last ∧ ∀ program callees registers fuel, good callees →
      Instr.execAll program callees code ⟨⟨registers, fuel + cost⟩, frame⟩ =
        .ok flow ⟨⟨registers, fuel⟩, last⟩) ∨
    ∃ cause : RunError, cause.isLifetime = true ∧
      ∀ program callees registers fuel, good callees →
        ∃ final, Instr.execAll program callees code ⟨⟨registers, fuel + cost⟩, frame⟩ =
          .error cause final

namespace Instr.Runs

variable {good : Callees → Prop} {code rest : List Instr} {frame middle : Frame}
  {post mid : Flow → Frame → Prop} {instr : Instr}

theorem nil (h : post .next frame) : Runs good [] frame post :=
  ⟨0, .inl ⟨.next, frame, h, fun _ _ _ _ _ => rfl⟩⟩

theorem mono (h : Runs good code frame mid) (himp : ∀ flow last, mid flow last → post flow last) :
    Runs good code frame post := by
  obtain ⟨cost, ⟨flow, last, hmid, hrun⟩ | hfail⟩ := h
  · exact ⟨cost, .inl ⟨flow, last, himp flow last hmid, hrun⟩⟩
  · exact ⟨cost, .inr hfail⟩

private def PaysFor (instr : Instr) (body : Program → Callees → Exec Flow) : Prop :=
  ∀ program callees, instr.exec program callees = Exec.spend >>= fun _ => body program callees

variable {body : Program → Callees → Exec Flow}

/-- An instruction falls through with some locals, or breaks the lifetime discipline. -/
private def Falls (good : Callees → Prop) (frame : Frame) (body : Program → Callees → Exec Flow)
    (lands : Frame → Prop) : Prop :=
  (∃ middle, lands middle ∧ ∀ program callees store, good callees →
    body program callees ⟨store, frame⟩ = .ok .next ⟨store, middle⟩) ∨
  ∃ cause : RunError, cause.isLifetime = true ∧ ∀ program callees store, good callees →
    ∃ final, body program callees ⟨store, frame⟩ = .error cause final

private theorem of_falls {lands : Frame → Prop} (hbody : PaysFor instr body)
    (h : Falls good frame body lands)
    (hrest : ∀ middle, lands middle → Runs good rest middle post) :
    Runs good (instr :: rest) frame post := by
  rcases h with ⟨middle, hto, hfalls⟩ | ⟨cause, hlife, hfails⟩
  · have hcons : ∀ cost program callees registers fuel, good callees →
        Instr.execAll program callees (instr :: rest) ⟨⟨registers, fuel + (cost + 1)⟩, frame⟩ =
          Instr.execAll program callees rest ⟨⟨registers, fuel + cost⟩, middle⟩ := by
      intro cost program callees registers fuel hgood
      rw [Instr.execAll, hbody]
      exact bind_of_ok (hfalls program callees ⟨registers, fuel + cost⟩ hgood)
    obtain ⟨cost, ⟨flow, last, hpost, hrun⟩ | ⟨cause, hlife, hfail⟩⟩ := hrest middle hto
    · refine ⟨cost + 1, .inl ⟨flow, last, hpost, fun program callees registers fuel hgood => ?_⟩⟩
      rw [hcons _ _ _ _ _ hgood]
      exact hrun program callees registers fuel hgood
    · refine ⟨cost + 1, .inr ⟨cause, hlife, fun program callees registers fuel hgood => ?_⟩⟩
      rw [hcons _ _ _ _ _ hgood]
      exact hfail program callees registers fuel hgood
  · refine ⟨1, .inr ⟨cause, hlife, fun program callees registers fuel hgood => ?_⟩⟩
    obtain ⟨final, hfail⟩ := hfails program callees ⟨registers, fuel⟩ hgood
    rw [Instr.execAll, hbody]
    exact ⟨final, bind_of_error hfail⟩

private theorem of_ask_error {α : Type} {question : Program → Activation → Except RunError α}
    {next : α → Program → Callees → Exec Flow} {cause : RunError}
    (hbody : PaysFor instr fun program callees => Exec.ask (question program) >>= fun value =>
      next value program callees)
    (hlife : cause.isLifetime = true)
    (h : ∀ program store, question program ⟨store, frame⟩ = .error cause) :
    Runs good (instr :: rest) frame post := by
  have hnone : ∀ middle : Frame, False → Runs good rest middle post := fun _ hfalse => hfalse.elim
  refine of_falls hbody (.inr ⟨cause, hlife, fun program callees store _ =>
    ⟨⟨store, frame⟩, bind_of_error (Exec.ask_of_error (h program store))⟩⟩) hnone

private theorem Falls.ask {α : Type} {question : Program → Activation → Except RunError α}
    {value : α} {next : α → Program → Callees → Exec Flow} {lands : Frame → Prop}
    (h : frame.Answers question value) (hnext : Falls good frame (next value) lands) :
    Falls good frame (fun program callees => Exec.ask (question program) >>= fun value =>
      next value program callees) lands := by
  rcases h with h | ⟨cause, hlife, h⟩
  · have hask : ∀ program callees store,
        (Exec.ask (question program) >>= fun value => next value program callees) ⟨store, frame⟩ =
          next value program callees ⟨store, frame⟩ :=
      fun program _ store => bind_of_ok (Exec.ask_of_ok (h program store))
    simpa only [Falls, hask] using hnext
  · exact .inr ⟨cause, hlife, fun program callees store _ =>
      ⟨⟨store, frame⟩, bind_of_error (Exec.ask_of_error (h program store))⟩⟩

private theorem Falls.outside {callee : String} {values : List Value} {result : Value}
    {next : Value → Program → Callees → Exec Flow} {lands : Frame → Prop}
    (h : ∀ callees, good callees → ∀ store, callees callee values store = .ok result store)
    (hnext : Falls good frame (next result) lands) :
    Falls good frame (fun program callees => Exec.outside (callees callee values) >>= fun result =>
      next result program callees) lands := by
  have hcall : ∀ program callees store, good callees →
      (Exec.outside (callees callee values) >>= fun result => next result program callees)
        ⟨store, frame⟩ = next result program callees ⟨store, frame⟩ :=
    fun program callees store hgood => bind_of_ok (Exec.outside_of_ok (h callees hgood store))
  rcases hnext with ⟨middle, hto, hfalls⟩ | ⟨cause, hlife, hfails⟩
  · exact .inl ⟨middle, hto, fun program callees store hgood =>
      (hcall program callees store hgood).trans (hfalls program callees store hgood)⟩
  · refine .inr ⟨cause, hlife, fun program callees store hgood => ?_⟩
    obtain ⟨final, hfail⟩ := hfails program callees store hgood
    exact ⟨final, (hcall program callees store hgood).trans hfail⟩

private theorem Falls.changeFrame {update : Frame → Except RunError Frame} {lands : Frame → Prop}
    (h : (∃ next, lands next ∧ update frame = .ok next) ∨
      ∃ cause : RunError, cause.isLifetime = true ∧ update frame = .error cause) :
    Falls good frame (fun _ _ => Exec.changeFrame update >>= fun _ => pure .next) lands := by
  rcases h with ⟨next, hto, hupdate⟩ | ⟨cause, hlife, hupdate⟩
  · exact .inl ⟨next, hto, fun program callees store _ =>
      bind_of_ok (Exec.changeFrame_of_ok hupdate)⟩
  · exact .inr ⟨cause, hlife, fun program callees store _ =>
      ⟨⟨store, frame⟩, bind_of_error (Exec.changeFrame_of_error hupdate)⟩⟩

private theorem Falls.store {dest : Place} {value stored : Value} {name : String}
    (h : frame.Stores dest value name stored) :
    Falls good frame (fun program _ => Exec.store program dest value >>=
      fun _ => pure .next) (frame.Updated name stored) := by
  rcases h with ⟨next, hnext, hstore⟩ | ⟨cause, hlife, hstore⟩
  · exact .inl ⟨next, hnext, fun program callees store _ =>
      bind_of_ok (Exec.store_of_ok (hstore program store))⟩
  · exact .inr ⟨cause, hlife, fun program callees store _ =>
      ⟨⟨store, frame⟩, bind_of_error (Exec.store_of_error (hstore program store))⟩⟩

private theorem bind_apply_congr {α β : Type} {act other : Exec α} {next : α → Exec β}
    {start middle : Activation} (h : act start = other middle) :
    (act >>= next) start = (other >>= next) middle := by
  change EStateM.bind act next start = EStateM.bind other next middle
  simp only [EStateM.bind, h]

theorem append (h : Runs good code frame mid)
    (hnext : ∀ last, mid .next last → Runs good rest last post)
    (hstop : ∀ flow last, flow ≠ .next → mid flow last → post flow last) :
    Runs good (code ++ rest) frame post := by
  obtain ⟨cost, ⟨flow, last, hmid, hrun⟩ | ⟨cause, hlife, hfail⟩⟩ := h
  · by_cases hflow : flow = .next
    · subst hflow
      have hboth : ∀ more program callees registers fuel, good callees →
          Instr.execAll program callees (code ++ rest) ⟨⟨registers, fuel + (more + cost)⟩, frame⟩ =
            Instr.execAll program callees rest ⟨⟨registers, fuel + more⟩, last⟩ := by
        intro more program callees registers fuel hgood
        rw [execAll_append, ← Nat.add_assoc]
        exact bind_of_ok (hrun program callees registers (fuel + more) hgood)
      obtain ⟨more, ⟨flow, final, hpost, hrest⟩ | ⟨cause, hlife, hrest⟩⟩ := hnext last hmid
      · refine ⟨more + cost, .inl ⟨flow, final, hpost,
          fun program callees registers fuel hgood => ?_⟩⟩
        rw [hboth _ _ _ _ _ hgood]
        exact hrest program callees registers fuel hgood
      · refine ⟨more + cost, .inr ⟨cause, hlife, fun program callees registers fuel hgood => ?_⟩⟩
        rw [hboth _ _ _ _ _ hgood]
        exact hrest program callees registers fuel hgood
    · refine ⟨cost, .inl ⟨flow, last, hstop flow last hflow hmid,
        fun program callees registers fuel hgood => ?_⟩⟩
      rw [execAll_append, bind_of_ok (hrun program callees registers fuel hgood)]
      cases flow with
      | next => exact absurd rfl hflow
      | leave => rfl
      | ret value => rfl
  · refine ⟨cost, .inr ⟨cause, hlife, fun program callees registers fuel hgood => ?_⟩⟩
    obtain ⟨final, hfail⟩ := hfail program callees registers fuel hgood
    rw [execAll_append]
    exact ⟨final, bind_of_error hfail⟩

theorem decl {rep : Rep} {name : String}
    (h : ∀ next, frame.Updated name rep.initial next → Runs good rest next post) :
    Runs good (.decl rep name :: rest) frame post := by
  have hbound := frame.updated_set name { value := rep.initial, rep, owned := false }
  exact of_falls (fun _ _ => rfl) (.changeFrame (.inl ⟨_, hbound, rfl⟩)) h

private theorem allocate_cases (frame : Frame) (name : String) (rep : Rep) (value : Value) :
    (∃ next, frame.Updated name value next ∧ frame.allocate name rep value = .ok next) ∨
      ∃ cause : RunError, cause.isLifetime = true ∧
        frame.allocate name rep value = .error cause := by
  have hbound := frame.updated_set name { value, rep, owned := true }
  unfold Frame.allocate
  split
  · split
    · exact .inr ⟨_, rfl, rfl⟩
    · exact .inl ⟨_, hbound, rfl⟩
  · exact .inl ⟨_, hbound, rfl⟩

theorem alloc {rep : Rep} {name : String}
    (h : ∀ next, frame.Updated name rep.initial next → Runs good rest next post) :
    Runs good (.alloc rep name :: rest) frame post :=
  of_falls (fun _ _ => rfl) (.changeFrame (allocate_cases frame name rep rep.initial)) h

theorem init {rep : Rep} {name : String} {operand : Operand} {value stored : Value}
    (hreads : frame.Reads operand value) (hinit : Exec.initialiser rep value = .ok value)
    (hconform : rep.conform value = .ok stored)
    (h : ∀ next, frame.Updated name stored next → Runs good rest next post) :
    Runs good (.init rep name operand :: rest) frame post := by
  have hstored : frame.Answers (fun program act => act.eval program operand >>= fun value =>
      Exec.initialiser rep value >>= fun value => rep.conform value) stored := by
    refine hreads.bind (.ok ?_)
    rw [hinit, except_ok_bind, hconform]
  exact of_falls (fun _ _ => rfl)
    (.ask hstored (.changeFrame (allocate_cases frame name rep stored))) h

theorem release {rep : Rep} {name : String}
    (h : ∀ next : Frame, (∀ key, key ≠ name → next.get? key = frame.get? key) →
      Runs good rest next post) :
    Runs good (.release rep name :: rest) frame post := by
  have hcases : (∃ next : Frame, (∀ key, key ≠ name → next.get? key = frame.get? key) ∧
      frame.release name = .ok next) ∨
      ∃ cause : RunError, cause.isLifetime = true ∧ frame.release name = .error cause := by
    unfold Frame.release
    split
    · split
      · exact .inr ⟨_, rfl, rfl⟩
      · split
        · exact .inr ⟨_, rfl, rfl⟩
        · exact .inl ⟨_, (frame.updated_set name _).same, rfl⟩
    · exact .inr ⟨_, rfl, rfl⟩
  exact of_falls (fun _ _ => rfl) (.changeFrame hcases) h

end Instr.Runs

/-- An instruction that brings an operand to a place. -/
def Instr.Moves (instr : Instr) (dest : Place) (operand : Operand) : Prop :=
  instr = .convert dest operand ∨ instr = .assign dest operand ∨ instr = .copy dest operand

namespace Instr.Runs

variable {good : Callees → Prop} {rest : List Instr} {frame : Frame}
  {post : Flow → Frame → Prop} {instr : Instr}

theorem move {dest : Place} {operand : Operand} {value stored : Value} {name : String}
    (hmoves : instr.Moves dest operand) (hreads : frame.Reads operand value)
    (hstores : frame.Stores dest value name stored)
    (h : ∀ next, frame.Updated name stored next → Runs good rest next post) :
    Runs good (instr :: rest) frame post := by
  rcases hmoves with rfl | rfl | rfl
  · exact of_falls (fun _ _ => rfl) (.ask hreads (.store hstores)) h
  · exact of_falls (fun _ _ => rfl) (.ask hreads (.store hstores)) h
  · exact of_falls (fun _ _ => rfl) (.ask hreads (.store hstores)) h

theorem call {dest : Place} {callee name : String} {args : List Operand} {values : List Value}
    {result stored : Value}
    (hargs : frame.Answers (fun program act => act.evalAll program args) values)
    (hcallee : ∀ callees, good callees → ∀ store, callees callee values store = .ok result store)
    (hstores : frame.Stores dest result name stored)
    (h : ∀ next, frame.Updated name stored next → Runs good rest next post) :
    Runs good (.call dest callee args :: rest) frame post :=
  of_falls (fun _ _ => rfl) (.ask hargs (.outside hcallee (.store hstores))) h

theorem branch {test : Operand} {onTrue onFalse : List Instr} {rep : Rep} {value : Bool}
    (hreads : frame.Reads test (.bool value))
    (h : Runs good ((if value then onTrue else onFalse) ++ rest) frame post) :
    Runs good (.branch test onTrue onFalse rep :: rest) frame post := by
  rcases hreads with hreads | ⟨cause, hlife, hreads⟩
  · have harm : ∀ cost program callees registers fuel,
        Instr.execAll program callees (.branch test onTrue onFalse rep :: rest)
          ⟨⟨registers, fuel + (cost + 1)⟩, frame⟩ =
        Instr.execAll program callees ((if value then onTrue else onFalse) ++ rest)
          ⟨⟨registers, fuel + cost⟩, frame⟩ := by
      intro cost program callees registers fuel
      have hexec : (Instr.branch test onTrue onFalse rep).exec program callees
          ⟨⟨registers, fuel + cost + 1⟩, frame⟩ =
            Instr.execAll program callees (if value then onTrue else onFalse)
              ⟨⟨registers, fuel + cost⟩, frame⟩ := by
        refine (bind_of_ok (Exec.ask_of_ok (hreads program _))).trans ?_
        cases value <;> rfl
      rw [← List.singleton_append, execAll_append, execAll_append, execAll_singleton]
      exact bind_apply_congr hexec
    obtain ⟨cost, ⟨flow, last, hpost, hrun⟩ | ⟨cause, hlife, hfail⟩⟩ := h
    · refine ⟨cost + 1, .inl ⟨flow, last, hpost, fun program callees registers fuel hgood => ?_⟩⟩
      rw [harm]
      exact hrun program callees registers fuel hgood
    · refine ⟨cost + 1, .inr ⟨cause, hlife, fun program callees registers fuel hgood => ?_⟩⟩
      rw [harm]
      exact hfail program callees registers fuel hgood
  · exact of_ask_error (fun _ _ => rfl) hlife hreads

theorem ret {operand : Operand} {value : Value} (hreads : frame.Reads operand value)
    (h : post (.ret value) frame) : Runs good (.ret operand :: rest) frame post := by
  rcases hreads with hreads | ⟨cause, hlife, hreads⟩
  · refine ⟨1, .inl ⟨.ret value, frame, h, fun program callees registers fuel _ => ?_⟩⟩
    have hexec : (Instr.ret operand).exec program callees ⟨⟨registers, fuel + 1⟩, frame⟩ =
        .ok (.ret value) ⟨⟨registers, fuel⟩, frame⟩ := bind_of_ok (Exec.ask_of_ok (hreads program _))
    rw [Instr.execAll]
    exact bind_of_ok hexec
  · exact of_ask_error (fun _ _ => rfl) hlife hreads

end Instr.Runs

end IsaBackend
