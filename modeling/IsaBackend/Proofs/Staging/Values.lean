import IsaBackend.Proofs.Staging.Operands
import IsaBackend.Staging.Term

/-!
# Staged values

A staged computation belongs to the states before and after its staging. Its setup and the
delivery of its value are a piece of code between the two, and its cleanup leads back to the stack
before. Most values can be delivered above any further storage, so they can be converted on the
way; a branch can only be delivered where its staging ended, since its arms may return. Every
application of the source is a call of the code.
-/

namespace IsaBackend

open StagingState

/-- A staged computation whose value is delivered where its setup ends, to a place of its own
representation. -/
structure Stages (plan : Plan) (needs : Access → Prop) (applications : List (String × Nat))
    (before after : StagingState) (staged : Staged) : Prop where
  code : ∀ dest : Place, dest.rep = staged.rep → Piece plan
    (fun acc => needs acc ∧ acc.MayWrite before.stack dest.root) before after
    (staged.setup ++ [staged.deliver dest]) staged.cleanup
  makes : ∀ dest : Place, dest.rep = staged.rep →
    Instr.Makes plan.around applications (staged.setup ++ [staged.deliver dest])

/-- What may be done at some point after code whose needs are met. -/
def Access.Follows (needs : Access → Prop) (code : List Instr) (later : Access) : Prop :=
  ∃ acc : Access, acc.Covers (Instr.introducedAll code) ∧ needs acc ∧ (acc.after code).Le later

private theorem Access.Follows.mono {needs : Access → Prop} {code : List Instr} {acc later : Access}
    (h : acc.Follows needs code) (hle : acc.Le later) : later.Follows needs code := by
  obtain ⟨first, hcov, hneeds, hafter⟩ := h
  exact ⟨first, hcov, hneeds, hafter.trans hle⟩

def Staged.Fits (staged : Staged) (dest : Place) : Prop :=
  staged.rep.compatible dest.rep = true

private theorem Staged.fits_of_rep_eq {staged : Staged} {dest : Place} (h : dest.rep = staged.rep) :
    staged.Fits dest := by
  rw [Staged.Fits, h]
  exact Rep.compatible_self _

/-- A staged computation whose value can be delivered as long as what its setup has allocated is
live, to places of some kind. -/
structure Supplies (plan : Plan) (needs : Access → Prop) (applications : List (String × Nat))
    (fits : Place → Prop) (before after : StagingState) (staged : Staged) : Prop where
  setup : Piece plan needs before after staged.setup staged.cleanup
  plain : ∀ dest, (staged.deliver dest).introduced = []
  deliver : ∀ later : Access, later.Follows needs staged.setup →
    ∀ live, (∀ name ∈ after.stack, name ∈ live) → ∀ dest : Place, later.MayWrite live dest.root →
      ∀ entry post, post live → later.Accepts entry live [staged.deliver dest] post
  emitted : ∀ dest, fits dest →
    (staged.deliver dest).Everywhere (Instr.Emitted plan.around plan.sites)
  makes : ∀ dest, fits dest →
    Instr.Makes plan.around applications (staged.setup ++ [staged.deliver dest])

variable {plan : Plan} {needs more : Access → Prop} {applications others : List (String × Nat)}
  {fits : Place → Prop} {before middle after : StagingState} {staged : Staged}

theorem Stages.storage (h : Stages plan needs applications before after staged) :
    ∃ entries, after.live = entries ++ before.live ∧ staged.cleanup = releases entries := by
  obtain ⟨entries, hlive, hcleanup, _⟩ := (h.code (.name "" staged.rep) rfl).storage
  exact ⟨entries, hlive, hcleanup⟩

private theorem Supplies.stages (h : Supplies plan needs applications fits before after staged)
    (hfits : ∀ dest : Place, dest.rep = staged.rep → fits dest) :
    Stages plan needs applications before after staged where
  code := by
    intro dest hdest
    have hdeliver : Piece plan (fun later => later.Follows needs staged.setup ∧
        later.MayWrite after.stack dest.root) after after [staged.deliver dest] [] :=
      .step (h.plain dest) (h.emitted dest (hfits dest hdest)) fun later hneeds =>
        h.deliver later hneeds.1 _ (fun _ hn => hn) dest hneeds.2
    exact (h.setup.weaken fun _ hneeds => hneeds.1).extended hdeliver fun acc hcov hneeds =>
      ⟨⟨acc, hcov, hneeds.1, .refl _⟩, h.setup.mayWrite hneeds.2⟩
  makes := fun dest hdest => h.makes dest (hfits dest hdest)

theorem Supplies.weaken (h : Supplies plan more applications fits before after staged)
    (himp : ∀ acc, needs acc → more acc) :
    Supplies plan needs applications fits before after staged where
  setup := h.setup.weaken himp
  plain := h.plain
  deliver := by
    rintro later ⟨acc, hcov, hneeds, hle⟩
    exact h.deliver later ⟨acc, hcov, himp acc hneeds, hle⟩
  emitted := h.emitted
  makes := h.makes

theorem Loads.supplies {loaded : Loaded} (h : Loads plan needs before after loaded) :
    Supplies plan needs [] (Staged.ofLoaded loaded).Fits before after (.ofLoaded loaded) where
  setup := h.setup
  plain := fun dest => Instr.introduced_move (Instr.store_eq dest loaded.value)
  deliver := by
    rintro later ⟨acc, hcov, hneeds, hle⟩ live hlive dest hdest entry post hpost
    exact Access.accepts_move (Instr.store_eq dest loaded.value)
      ((h.reads acc hcov hneeds).mono hle hlive) hdest hpost
  emitted := fun _ hfits => Instr.emitted_store hfits
  makes := fun _ _ => Instr.makes_nil _

theorem Piece.effect {code : List Instr} (h : Piece plan needs before after code [])
    (hmakes : Instr.Makes plan.around applications code) :
    Supplies plan needs applications (Staged.effect code).Fits before after (.effect code) where
  setup := h
  plain := fun _ => rfl
  deliver := fun _ _ _ _ _ hdest _ _ hpost =>
    Access.accepts_move (.inl rfl) (Access.reads_constant rfl rfl _) hdest hpost
  emitted := by
    intro dest hfits
    have hunit := Rep.eq_of_compatible hfits nofun
    exact Instr.Emitted.assign (by rw [hunit]; rfl) hfits
  makes := fun _ _ => hmakes.mono (by simp [Staged.effect])

theorem Stages.prepend {code cleanup : List Instr} (h : Piece plan needs before middle code cleanup)
    (hmakes : Instr.Makes plan.around others code)
    (hstaged : Stages plan more applications middle after staged)
    (himp : ∀ acc : Access, acc.Covers (Instr.introducedAll code) → needs acc →
      more (acc.after code)) :
    Stages plan needs (others ++ applications) before after
      { staged with setup := code ++ staged.setup, cleanup := staged.cleanup ++ cleanup } where
  code := by
    intro dest hdest
    rw [List.append_assoc]
    exact (h.weaken fun _ hneeds => hneeds.1).append (hstaged.code dest hdest)
      fun acc hcov hneeds => ⟨himp acc hcov hneeds.1, h.mayWrite hneeds.2⟩
  makes := by
    intro dest hdest
    refine Instr.makes_append.mpr ⟨hmakes.mono ?_, (hstaged.makes dest hdest).mono ?_⟩ <;> simp

/-- Delivering a value and cleaning up leaves the stack as it was. -/
theorem Stages.into (h : Stages plan needs applications before after staged) (dest : Place)
    (hdest : dest.rep = staged.rep) :
    Piece plan (fun acc => needs acc ∧ acc.MayWrite before.stack dest.root) before
      (after.withLive before.live) (staged.into dest) [] ∧
    Instr.Makes plan.around applications (staged.into dest) := by
  refine ⟨(h.code dest hdest).settled, (h.makes dest hdest).mono ?_⟩
  rw [Staged.into, Instr.callsAll_append _ staged.cleanup]
  exact List.subset_append_left _ _

theorem Stages.exit {name : String} {entry : Local}
    (h : Stages plan needs applications (before.enter name entry) after staged) :
    Stages plan needs applications before (after.exit name (before.locals.get? name)) staged where
  code := fun dest hdest => (h.code dest hdest).exit
  makes := h.makes

namespace Staging

theorem settle_stages (h : Stages plan needs applications before after staged) :
    Provides (settle staged.cleanup) after fun _ final => final = after.withLive before.live :=
  settle_piece (h.code (.name "" staged.rep) rfl)

theorem close_provides (h : Stages plan needs applications before after staged) {dest : Place}
    (hdest : dest.rep = staged.rep) :
    Provides (close staged dest) after fun code final => Piece plan
      (fun acc => needs acc ∧ acc.MayWrite before.stack dest.root) before final code [] ∧
      Instr.Makes plan.around applications code := by
  refine (settle_stages h).bind ?_
  rintro _ _ rfl
  exact .pure (h.into dest hdest)

/-- A conversion delivers the value to a local first. -/
theorem coerce_provides (h : Supplies plan needs applications staged.Fits before middle staged)
    {target : Rep} (context : String)
    (hfits : ∀ dest : Place, fits dest → target.compatible dest.rep = true)
    (hconvert : ∀ dest name, staged.rep.Crosses target → fits dest →
      Instr.Emitted plan.around plan.sites (.convert dest (.name name staged.rep))) :
    Provides (coerce staged target context) middle fun result after =>
      result.rep = target ∧ Supplies plan needs applications fits before after result := by
  unfold coerce
  split
  · exact .throw rfl
  · rename_i hidentity
    have hcompatible : ∀ dest, fits dest → staged.Fits dest := fun dest hdest =>
      Rep.compatible_trans (Rep.compatible_of_bridge hidentity) (hfits dest hdest)
    exact .pure ⟨rfl, h.setup, h.plain, h.deliver,
      fun dest hdest => h.emitted dest (hcompatible dest hdest),
      fun dest hdest => h.makes dest (hcompatible dest hdest)⟩
  · rename_i bridge hne hbridge
    refine (temp_provides plan middle staged.rep).bind ?_
    rintro ⟨name, decl⟩ after hdecl
    have hslot : staged.Fits (.name name staged.rep) := Staged.fits_of_rep_eq rfl
    have hdeliver : Piece plan (fun later => later.Follows needs staged.setup ∧
        later.MayWrite after.stack name) after after [staged.deliver (.name name staged.rep)] [] :=
      .step (h.plain _) (h.emitted _ hslot) fun later hneeds => h.deliver later hneeds.1 _
        hdecl.piece.stack_subset (.name name staged.rep) hneeds.2
    have hlocal : Loads plan (fun acc => acc.Follows needs staged.setup) middle after _ :=
      hdecl.fill (fun _ _ => trivial) hdeliver fun acc husable hfollows =>
        ⟨hfollows.mono (acc.le_after _), husable.2⟩
    have hsetup := h.setup.append hlocal.setup fun acc hcov hneeds => ⟨acc, hcov, hneeds, .refl _⟩
    refine .pure ⟨rfl, hsetup, fun _ => rfl, ?_,
      fun dest hdest => hconvert dest name ⟨bridge, hbridge, hne⟩ hdest,
      fun dest hdest => (h.makes _ hslot).mono ?_⟩
    · rintro later ⟨acc, hcov, hneeds, hle⟩ live hlive dest hdest entry post hpost
      rw [Instr.introducedAll_append, Access.covers_append] at hcov
      rw [Access.after_append] at hle
      have hreads := hlocal.reads _ ((Access.covers_after _).mpr hcov.2)
        ⟨acc, hcov.1, hneeds, .refl _⟩
      exact Access.accepts_move (.inr (.inr rfl)) (hreads.mono hle hlive) hdest hpost
    · intro call hcall
      simp only [Instr.callsAll_append, Instr.callsAll, List.mem_append] at hcall ⊢
      tauto

def Granted (want : Want) (rep : Rep) : Prop :=
  ∀ target context, want = some (target, context) → rep = target

theorem granted_none (rep : Rep) : Granted none rep := fun _ _ hnone => by cases hnone

theorem granted_some {rep target : Rep} {context : String} (h : rep = target) :
    Granted (some (target, context)) rep := by
  rintro _ _ ⟨⟩
  exact h

theorem grant_provides (h : Supplies plan needs applications staged.Fits before middle staged)
    (want : Want) :
    Provides (grant want staged) middle fun result after => Granted want result.rep ∧
      Stages plan needs applications before after result := by
  cases want with
  | none => exact .pure ⟨granted_none _, h.stages fun _ => Staged.fits_of_rep_eq⟩
  | some asked =>
    have hcoerce : Provides (coerce staged asked.1 asked.2) middle fun result after =>
        result.rep = asked.1 ∧
          Supplies plan needs applications (·.rep = asked.1) before after result := by
      refine coerce_provides h asked.2 (fun dest hdest => ?_) fun dest name hcrosses hdest => ?_
      · rw [hdest]
        exact Rep.compatible_self _
      · exact .convert (hdest ▸ hcrosses)
    exact hcoerce.mono fun _ _ hresult =>
      ⟨granted_some hresult.1, hresult.2.stages fun _ hdest => hdest.trans hresult.1⟩

end Staging

end IsaBackend
