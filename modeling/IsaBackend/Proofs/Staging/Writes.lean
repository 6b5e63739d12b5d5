import IsaBackend.Proofs.Machine.Writes
import IsaBackend.Proofs.Staging.Terms

/-!
# Locals that staged code leaves alone

The code of a term writes the locals that it introduces, the variables that the term assigns and, in
a return, the result and what is live. A local that is in use already, has no storage to release and
is not assigned keeps its value while the code runs. This is what scoping says of staged code if
everything may be read, and all but the local may be written.
-/

namespace IsaBackend

open StagingState

namespace Instr

variable {name : String}

mutual

/-- Scoped code writes what it has the right to and what it introduces. -/
theorem Scoped.not_mem_writes : ∀ {instr : Instr} {rights : Rights}, instr.Scoped rights →
    ¬rights.writes name → (∀ entry ∈ instr.introduced, entry.1 ≠ name) → name ∉ instr.writes
  | .branch _ _ _ _, _, h, hnot, hnew => by
    obtain ⟨htrue, hfalse⟩ := List.forall_mem_append.mp hnew
    exact List.not_mem_append (ScopedAll.not_mem_writesAll h.2.1 hnot htrue)
      (ScopedAll.not_mem_writesAll h.2.2 hnot hfalse)
  | .loop _, _, h, hnot, hnew => ScopedAll.not_mem_writesAll h hnot hnew
  | .decl _ _, _, _, _, hnew | .alloc _ _, _, _, _, hnew | .init _ _ _, _, _, _, hnew =>
    fun hmem => hnew _ List.mem_cons_self (List.mem_singleton.mp hmem).symm
  | .call _ _ _, _, h, hnot, _ | .convert _ _, _, h, hnot, _ | .assign _ _, _, h, hnot, _
  | .copy _ _, _, h, hnot, _ => fun hmem => hnot (List.mem_singleton.mp hmem ▸ h.2)
  | .release _ _, _, h, hnot, _ => fun hmem => hnot (List.mem_singleton.mp hmem ▸ h)
  | .ret _, _, _, _, _ | .comment _, _, _, _, _ | .leave, _, _, _, _ => List.not_mem_nil

private theorem ScopedAll.not_mem_writesAll : ∀ {code : List Instr} {rights : Rights},
    ScopedAll rights code → ¬rights.writes name →
      (∀ entry ∈ introducedAll code, entry.1 ≠ name) → name ∉ writesAll code
  | [], _, _, _, _ => List.not_mem_nil
  | instr :: rest, _, h, hnot, hnew => by
    obtain ⟨hinstr, hrest⟩ := List.forall_mem_append.mp hnew
    have hspared := h.1.not_mem_writes hnot hinstr
    refine List.not_mem_append hspared (ScopedAll.not_mem_writesAll h.2 ?_ hrest)
    rintro (hwrites | hexposed)
    · exact hnot hwrites
    -- What an instruction exposes, it writes.
    · cases instr <;> first | exact hspared hexposed | exact absurd hexposed List.not_mem_nil

end

end Instr

namespace StagingState

/-- A local of the code is in use, and no storage of it is live. -/
structure Reserves (state : StagingState) (name : String) : Prop where
  declared : name ∈ state.declared
  past : ∀ number, name = FreshNames.name number → number < state.names.next
  idle : name ∉ state.stack

/-- No variable of a list is a certain local of the code. -/
def Avoids (state : StagingState) (name : String) (vars : List String) : Prop :=
  ∀ var ∈ vars, state.codeName (.source var) ≠ name

variable {before after : StagingState} {name : String}

theorem Reserves.mono (h : before.Reserves name) (hleads : before.Leads after)
    (hidle : name ∉ after.stack) : after.Reserves name where
  declared := hleads.declared name h.declared
  past := fun number heq => Nat.lt_of_lt_of_le (h.past number heq) hleads.next
  idle := hidle

theorem Avoids.mono {vars : List String} (h : before.Avoids name vars)
    (hleads : before.Leads after) : after.Avoids name vars := by
  intro var hvar
  rw [hleads.codeName]
  exact h var hvar

end StagingState

namespace Staging

end Staging

end IsaBackend
