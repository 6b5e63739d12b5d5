import IsaBackend.Names.Table
import IsaBackend.Value.Conform

/-!
# Frames

The locals of one activation of a routine. A local that owns storage has to be released once, and
cannot be used afterwards.
-/

namespace IsaBackend

structure Slot where
  value : Value
  rep : Rep
  /-- The activation has allocated storage for the local and has to release it. -/
  owned : Bool
  released : Bool := false

/-- Whether storage is still to be released. -/
def Slot.isLive (slot : Slot) : Bool := slot.owned && !slot.released

/-- The locals of an activation. -/
abbrev Frame := NameTable Slot

namespace Frame

/-- Introduce a local, in place of an earlier one of the name. -/
def bind (frame : Frame) (name : String) (rep : Rep) (value : Value) (owned : Bool) : Frame :=
  frame.set name { value, rep, owned }

/-- Introduce a local that owns storage. The name must not be live already. -/
def allocate (frame : Frame) (name : String) (rep : Rep) (value : Value) :
    Except RunError Frame :=
  match frame.get? name with
  | some slot =>
    if slot.isLive then .error (.doubleAlloc name) else .ok (frame.bind name rep value true)
  | none => .ok (frame.bind name rep value true)

/-- Release the storage of a local. -/
def release (frame : Frame) (name : String) : Except RunError Frame :=
  match frame.get? name with
  | some slot =>
    if !slot.owned then .error (.unallocated name)
    else if slot.released then .error (.doubleRelease name)
    else .ok (frame.set name { slot with value := slot.rep.initial, released := true })
  | none => .error (.unallocated name)

/-- The value of a local that was not released. -/
def read (frame : Frame) (name : String) : Except RunError Value :=
  match frame.get? name with
  | some slot => if slot.released then .error (.useAfterRelease name) else .ok slot.value
  | none => .error (.unknownVariable name)

/-- The names that still own storage. -/
def liveNames (frame : Frame) : List String :=
  frame.entries.filterMap fun (name, slot) => if slot.isLive then some name else none

/-- The least of the names that still own storage. -/
def firstLeak? (frame : Frame) : Option String :=
  frame.liveNames.foldl (fun least name =>
    match least with
    | some other => some (if name < other then name else other)
    | none => some name) none

end Frame

end IsaBackend
