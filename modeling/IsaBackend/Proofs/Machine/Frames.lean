import IsaBackend.Proofs.Machine.Stores
import IsaBackend.Proofs.Code.Tidy
import IsaBackend.Proofs.Names

/-!
# Frames and stacks of live names

A frame follows a stack of live names if the names on the stack are exactly the locals that still
own storage. Each operation on a frame that tidy code makes succeeds, and moves the stack the way
tidiness foresees.
-/

namespace IsaBackend

namespace Frame

section Outcomes

variable {frame next : Frame} {name : String} {rep : Rep} {value : Value} {cause : RunError}

theorem allocate_eq_ok (h : frame.allocate name rep value = .ok next) :
    next = frame.bind name rep value true := by
  unfold allocate at h
  split at h
  · split at h <;> cases h
    rfl
  · cases h
    rfl

theorem allocate_eq_error (h : frame.allocate name rep value = .error cause) :
    cause = .doubleAlloc name := by
  unfold allocate at h
  split at h
  · split at h <;> cases h
    rfl
  · cases h

theorem release_eq_ok (h : frame.release name = .ok next) : ∃ slot, frame.get? name = some slot ∧
    next = frame.set name { slot with value := slot.rep.initial, released := true } := by
  unfold release at h
  split at h
  · rename_i slot hslot
    split at h
    · cases h
    · split at h <;> cases h
      exact ⟨slot, hslot, rfl⟩
  · cases h

theorem release_eq_error (h : frame.release name = .error cause) :
    cause = .unallocated name ∨ cause = .doubleRelease name := by
  unfold release at h
  split at h
  · split at h
    · cases h
      exact .inl rfl
    · split at h <;> cases h
      exact .inr rfl
  · cases h
    exact .inl rfl

theorem read_eq_ok : frame.read name = .ok value ↔
    ∃ slot, frame.get? name = some slot ∧ slot.released = false ∧ slot.value = value := by
  unfold read
  cases hslot : frame.get? name with
  | none => simp
  | some slot => cases hreleased : slot.released <;> simp [hreleased]

theorem write_eq_ok (h : frame.write name value = .ok next) : ∃ slot, frame.get? name = some slot ∧
    next = frame.set name { slot with value } := by
  unfold write at h
  split at h
  · rename_i slot hslot
    split at h <;> cases h
    exact ⟨slot, hslot, rfl⟩
  · cases h

end Outcomes

/-- The names on a stack are exactly the locals that own storage, and nothing was released that
never owned any. -/
structure Follows (disc : Discipline) (frame : Frame) (live : List String) : Prop where
  unique : frame.Unique
  distinct : live.Nodup
  owned : ∀ name ∈ live, disc.owns name
  live_iff : ∀ name, name ∈ live ↔ ∃ slot, frame.get? name = some slot ∧ slot.isLive = true
  released : ∀ name slot, frame.get? name = some slot → slot.released = true → disc.owns name

variable {disc : Discipline} {frame : Frame} {live : List String}

theorem follows_empty : Follows disc ∅ [] where
  unique := NameTable.unique_empty
  distinct := List.nodup_nil
  owned := by simp
  live_iff := by
    intro name
    change _ ↔ ∃ slot, (NameTable.empty : Frame).get? name = some slot ∧ _
    simp
  released := by
    intro name slot h
    change (NameTable.empty : Frame).get? name = some slot at h
    simp at h

private theorem Follows.slot_not_live (h : frame.Follows disc live) {name : String} {slot : Slot}
    (hs : frame.get? name = some slot) (hn : name ∉ live) : slot.isLive = false := by
  cases hl : slot.isLive with
  | false => rfl
  | true => exact absurd ((h.live_iff name).mpr ⟨slot, hs, hl⟩) hn

theorem Follows.bind (h : frame.Follows disc live) {name : String} (hn : name ∉ live) (rep : Rep)
    (value : Value) : (frame.bind name rep value false).Follows disc live where
  unique := h.unique.set name _
  distinct := h.distinct
  owned := h.owned
  live_iff := by
    intro other
    by_cases ho : other = name
    · subst ho
      simp [Frame.bind, Slot.isLive, hn]
    · simp [Frame.bind, ho, h.live_iff other]
  released := by
    intro other slot hs hr
    by_cases ho : other = name
    · subst ho
      simp only [Frame.bind, NameTable.get?_set, if_true, Option.some.injEq] at hs
      subst hs
      cases hr
    · simp only [Frame.bind, NameTable.get?_set, if_neg ho] at hs
      exact h.released other slot hs hr

theorem Follows.allocate (h : frame.Follows disc live) {name : String} (hn : name ∉ live)
    (ho : disc.owns name) (rep : Rep) (value : Value) :
    ∃ next, frame.allocate name rep value = .ok next ∧ next.Follows disc (name :: live) := by
  refine ⟨frame.bind name rep value true, ?_, ?_⟩
  · unfold Frame.allocate
    split
    · rename_i slot hs
      simp [h.slot_not_live hs hn]
    · rfl
  · exact {
      unique := h.unique.set name _
      distinct := List.nodup_cons.mpr ⟨hn, h.distinct⟩
      owned := by
        intro other hm
        rcases List.mem_cons.mp hm with rfl | hm
        · exact ho
        · exact h.owned other hm
      live_iff := by
        intro other
        by_cases he : other = name
        · subst he
          simp [Frame.bind, Slot.isLive]
        · simp [Frame.bind, he, h.live_iff other]
      released := by
        intro other slot hs hr
        by_cases he : other = name
        · exact he ▸ ho
        · simp only [Frame.bind, NameTable.get?_set, if_neg he] at hs
          exact h.released other slot hs hr }

theorem Follows.release {name : String} {rest : List String}
    (h : frame.Follows disc (name :: rest)) :
    ∃ next, frame.release name = .ok next ∧ next.Follows disc rest := by
  obtain ⟨slot, hs, hl⟩ := (h.live_iff name).mp List.mem_cons_self
  obtain ⟨hn, hrest⟩ := List.nodup_cons.mp h.distinct
  have hboth : slot.owned = true ∧ slot.released = false := by
    simpa [Slot.isLive] using hl
  refine ⟨frame.set name { slot with value := slot.rep.initial, released := true }, ?_, ?_⟩
  · simp [Frame.release, hs, hboth.1, hboth.2]
  · exact {
      unique := h.unique.set name _
      distinct := hrest
      owned := fun other hm => h.owned other (List.mem_cons_of_mem _ hm)
      live_iff := by
        intro other
        by_cases he : other = name
        · subst he
          simp [Slot.isLive, hn]
        · simp [he, ← h.live_iff other]
      released := by
        intro other slot' hs' hr
        by_cases he : other = name
        · exact he ▸ h.owned name List.mem_cons_self
        · simp only [NameTable.get?_set, if_neg he] at hs'
          exact h.released other slot' hs' hr }

theorem Follows.not_released (h : frame.Follows disc live) {name : String} {slot : Slot}
    (hs : frame.get? name = some slot) (hu : disc.Usable live name) (hw : disc.watches) :
    slot.released = false := by
  cases hr : slot.released with
  | false => rfl
  | true =>
    rcases hu hw with hm | hno
    · obtain ⟨other, hs', hl⟩ := (h.live_iff name).mp hm
      cases hs.symm.trans hs'
      simp [Slot.isLive, hr] at hl
    · exact absurd (h.released name slot hs hr) hno

theorem Follows.setValue (h : frame.Follows disc live) {name : String} {slot : Slot}
    (hs : frame.get? name = some slot) (value : Value) :
    Follows disc (frame.set name { slot with value }) live where
  unique := h.unique.set name _
  distinct := h.distinct
  owned := h.owned
  live_iff := by
    intro other
    by_cases he : other = name
    · subst he
      simp [h.live_iff other, hs, Slot.isLive]
    · simp [he, h.live_iff other]
  released := by
    intro other slot' hs' hr
    by_cases he : other = name
    · subst he
      simp only [NameTable.get?_set, if_true, Option.some.injEq] at hs'
      subst hs'
      exact h.released other slot hs hr
    · simp only [NameTable.get?_set, if_neg he] at hs'
      exact h.released other slot' hs' hr

theorem Follows.firstLeak?_eq_none (h : frame.Follows disc []) : frame.firstLeak? = none := by
  have hnames : frame.liveNames = [] := by
    rw [Frame.liveNames, List.filterMap_eq_nil_iff]
    rintro ⟨name, slot⟩ hm
    have hs := h.unique.get?_of_mem hm
    simp [h.slot_not_live hs List.not_mem_nil]
  simp [Frame.firstLeak?, hnames]

end Frame

end IsaBackend
