import IsaBackend.Proofs.Machine.Evaluation
import IsaBackend.Proofs.Machine.Facts
import IsaBackend.Proofs.Machine.Runs
import IsaBackend.Proofs.Machine.Writes
import IsaBackend.Staging.Term

/-!
# Loops that count

A counted loop tests its counter against a limit before each round and moves it by a stride after
each round. If the body leaves the counter, the limit and the stride alone, it is run for the
numbers of an arithmetic progression in their order, as long as they are not past the limit. The
first number past the limit is computed as well, so the loop ends normally exactly if that number
fits a machine word.
-/

namespace IsaBackend

namespace Direction

/-- A counter has run past a limit. -/
def IsPast : Direction → Int → Int → Prop
  | inc, value, limit => limit < value
  | dec, value, limit => value < limit

instance decidableIsPast (direction : Direction) (value limit : Int) :
    Decidable (direction.IsPast value limit) :=
  match direction with
  | inc => inferInstanceAs (Decidable (limit < value))
  | dec => inferInstanceAs (Decidable (value < limit))

/-- The number that comes after a number. -/
def advance : Direction → Int → Int → Int
  | inc, value, stride => value + stride
  | dec, value, stride => value - stride

/-- The number that a counter has in a round. -/
def position (direction : Direction) (first stride : Int) (round : Nat) : Int :=
  match direction with
  | inc => first + round * stride
  | dec => first - round * stride

end Direction

/-- The state in which a local has another value. -/
def Activation.give (act : Activation) (name : String) (value : Value) : Activation :=
  match act.frame.get? name with
  | some slot => { act with frame := act.frame.set name { slot with value } }
  | none => act

/-- Nothing but some locals has changed. -/
structure Activation.AlikeBut (names : List String) (act other : Activation) : Prop where
  registers : other.registers = act.registers
  locals : ∀ key, key ∉ names → other.frame.get? key = act.frame.get? key

namespace NameTable

variable {α : Type}

end NameTable

namespace Activation

variable {act : Activation} {name key : String} {value old : Value}

private theorem read_of_frame (program : Program) (h : act.frame.read name = .ok value) :
    act.read program name = .ok value := by
  obtain ⟨slot, hslot, _⟩ := Frame.read_eq_ok.mp h
  simpa [read, NameTable.contains, hslot] using h

private theorem read_give (h : act.frame.read name = .ok old) :
    (act.give name value).frame.read name = .ok value := by
  obtain ⟨slot, hslot, hreleased, _⟩ := Frame.read_eq_ok.mp h
  simp [give, hslot, Frame.read, hreleased]

private theorem get?_give_of_ne (hne : key ≠ name) :
    (act.give name value).frame.get? key = act.frame.get? key := by
  unfold give
  cases act.frame.get? name with
  | none => rfl
  | some slot => simp [hne]

private theorem read_give_of_ne (hne : key ≠ name) :
    (act.give name value).frame.read key = act.frame.read key := by
  simp only [Frame.read, get?_give_of_ne hne]

theorem AlikeBut.refl {names : List String} (act : Activation) : act.AlikeBut names act :=
  ⟨rfl, fun _ _ => rfl⟩

private theorem AlikeBut.give {names : List String} {other : Activation}
    (h : act.AlikeBut names other)
    (hname : name ∈ names) : act.AlikeBut names (other.give name value) where
  registers := by
    rw [← h.registers, Activation.give]
    cases other.frame.get? name <;> rfl
  locals := by
    intro key hkey
    have hne : key ≠ name := fun heq => hkey (heq ▸ hname)
    rw [get?_give_of_ne hne]
    exact h.locals key hkey

theorem AlikeBut.read {names : List String} {other : Activation} (h : act.AlikeBut names other)
    (program : Program) (hkey : key ∉ names) : other.read program key = act.read program key := by
  unfold Activation.read NameTable.contains Frame.read
  rw [h.locals key hkey, h.registers]

private theorem store_eq_give (program : Program) (h : act.frame.read name = .ok old) {number : Int}
    (hfits : fitsWord number = true) :
    act.store program (.name name .machInt) (.int number) = .ok (act.give name (.int number)) := by
  obtain ⟨slot, hslot, hreleased, _⟩ := Frame.read_eq_ok.mp h
  simp [store, Rep.conform, hfits, write, NameTable.contains, hslot, Frame.write, hreleased, give,
    pure, Except.pure]

end Activation

namespace Instr

variable {program : Program} {act middle final : Activation} {name : String} {old : Value}

private theorem move_ends {instr : Instr} {operand : Operand}
    (hmoves : instr.Moves (.name name .machInt) operand) (h : act.frame.read name = .ok old)
    {number : Int}
    (hask : Ends (Exec.ask fun act => act.eval program operand) act 0 (.ok (.int number)) act)
    (hfits : fitsWord number = true) :
    Ends (execAll program program.call [instr]) act 1 (.ok .next)
      (act.give name (.int number)) := by
  have hstore : Ends (Exec.store program (.name name .machInt) (.int number)) act 0 (.ok ())
      (act.give name (.int number)) := by
    rw [Exec.store_eq_change]
    apply Exec.change_ends
    intro fuel
    have hread : (Fueled.fill act fuel).frame.read name = .ok old := h
    rw [Activation.store_eq_give program hread hfits]
    unfold Activation.give
    change Except.ok (match act.frame.get? name with | some _ => _ | none => _) = _
    cases act.frame.get? name <;> rfl
  rw [execAll_singleton]
  rcases hmoves with rfl | rfl | rfl
  all_goals exact (Exec.spend_ends act).bind (hask.bind (hstore.bind (.pure Flow.next _)))

end Instr

/-- The parts of a loop that counts: the locals that it works with, and the code that is run in each
round. -/
structure Counting where
  direction : Direction
  counter : String
  limit : String
  stride : String
  body : List Instr

namespace Counting

def test (loop : Counting) : Inline :=
  .binary (match loop.direction with | .inc => .gt | .dec => .lt) (.name loop.counter)
    (.name loop.limit)

def next (loop : Counting) : Inline :=
  .binary (match loop.direction with | .inc => .add | .dec => .sub) (.name loop.counter)
    (.name loop.stride)

def round (loop : Counting) : List Instr :=
  Staging.leaveIf (.inline loop.test .bool) :: loop.body ++
    [.assign (.name loop.counter .machInt) (.inline loop.next .machInt)]

/-- The locals that the loop works with are distinct, and the body writes none of them. -/
structure Undisturbed (loop : Counting) : Prop where
  limit_ne : loop.limit ≠ loop.counter
  stride_ne : loop.stride ≠ loop.counter
  stride_ne_limit : loop.stride ≠ loop.limit
  counter : loop.counter ∉ Instr.writesAll loop.body
  limit : loop.limit ∉ Instr.writesAll loop.body
  stride : loop.stride ∉ Instr.writesAll loop.body

/-- The counter, the limit and the stride have these values. -/
structure At (loop : Counting) (value limit stride : Int) (act : Activation) : Prop where
  counter : act.frame.read loop.counter = .ok (.int value)
  limit : act.frame.read loop.limit = .ok (.int limit)
  stride : act.frame.read loop.stride = .ok (.int stride)

/-- The body is run for values of the counter, one after the other, and falls through each time. -/
inductive Visits (program : Program) (loop : Counting) :
    List Int → Activation → Activation → Prop where
  | nil (act : Activation) : Visits program loop [] act act
  | cons {value : Int} {values : List Int} {act middle last : Activation} {cost : Nat} :
    Ends (Instr.execAll program program.call loop.body) (act.give loop.counter (.int value)) cost
      (.ok .next) middle →
    Visits program loop values middle last → Visits program loop (value :: values) act last

/-- The body falls through for each of some values, whatever it has done for those before. -/
def FallsThrough (program : Program) (loop : Counting) (values : List Int) (act : Activation) :
    Prop :=
  ∀ earlier value later middle, values = earlier ++ value :: later →
    Visits program loop earlier act middle → ∃ cost final,
      Ends (Instr.execAll program program.call loop.body) (middle.give loop.counter (.int value))
        cost (.ok .next) final

variable {program : Program} {loop : Counting} {value limit stride : Int} {act middle : Activation}

private theorem At.give (h : loop.At value limit stride act) (hloop : loop.Undisturbed)
    (number : Int) : loop.At number limit stride (act.give loop.counter (.int number)) where
  counter := Activation.read_give h.counter
  limit := (Activation.read_give_of_ne hloop.limit_ne).trans h.limit
  stride := (Activation.read_give_of_ne hloop.stride_ne).trans h.stride

private theorem read_eq_of_ends {name : String} {code : List Instr} {flow : Flow} {cost : Nat}
    (hname : name ∉ Instr.writesAll code)
    (hends : Ends (Instr.execAll program program.call code) act cost (.ok flow) middle) :
    middle.frame.read name = act.frame.read name := by
  have hrun : Instr.execAll program program.call code (Fueled.fill act (0 + cost)) =
      .ok flow (Fueled.fill middle 0) := hends.runs 0
  have hslot : (Fueled.fill middle 0).frame.get? name = (Fueled.fill act (0 + cost)).frame.get? name :=
    (Instr.execAll_keeps program program.call hname _).ok hrun
  change middle.frame.get? name = act.frame.get? name at hslot
  simp only [Frame.read, hslot]

private theorem At.after (h : loop.At value limit stride act) (hloop : loop.Undisturbed)
    {flow : Flow} {cost : Nat}
    (hends : Ends (Instr.execAll program program.call loop.body) act cost (.ok flow) middle) :
    loop.At value limit stride middle where
  counter := (read_eq_of_ends hloop.counter hends).trans h.counter
  limit := (read_eq_of_ends hloop.limit hends).trans h.limit
  stride := (read_eq_of_ends hloop.stride hends).trans h.stride

private theorem At.eval_next (h : loop.At value limit stride act) :
    act.evalInline program loop.next = .ok (.int (loop.direction.advance value stride)) := by
  have hcounter := Activation.read_of_frame program h.counter
  have hstride := Activation.read_of_frame program h.stride
  obtain ⟨direction, counter, limitName, strideName, body⟩ := loop
  cases direction
  all_goals
    simp only [next, Activation.evalInline, hcounter, hstride]
    rfl

private theorem At.fill (h : loop.At value limit stride act) (fuel : Nat) :
    loop.At value limit stride (Fueled.fill act fuel) :=
  ⟨h.counter, h.limit, h.stride⟩

private theorem At.ask_next (h : loop.At value limit stride act) :
    Ends (Exec.ask fun act => act.eval program (.inline loop.next .machInt)) act 0
      (.ok (.int (loop.direction.advance value stride))) act :=
  Exec.ask_ends fun fuel => (h.fill fuel).eval_next

private theorem At.moves (h : loop.At value limit stride act)
    (hfits : fitsWord (loop.direction.advance value stride) = true) :
    Ends (Instr.execAll program program.call
        [.assign (.name loop.counter .machInt) (.inline loop.next .machInt)]) act 1 (.ok .next)
      (act.give loop.counter (.int (loop.direction.advance value stride))) :=
  Instr.move_ends (.inr (.inl rfl)) h.counter h.ask_next hfits

private theorem FallsThrough.tail {values : List Int} {cost : Nat}
    (h : loop.FallsThrough program (value :: values) act)
    (hbody : Ends (Instr.execAll program program.call loop.body)
      (act.give loop.counter (.int value)) cost (.ok .next) middle) :
    loop.FallsThrough program values middle := by
  intro earlier number later final heq hvisits
  exact h (value :: earlier) number later final (by rw [heq, List.cons_append]) (.cons hbody hvisits)

end Counting

end IsaBackend
