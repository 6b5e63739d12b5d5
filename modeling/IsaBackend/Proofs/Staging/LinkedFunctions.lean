import IsaBackend.Proofs.Staging.Functions
import IsaBackend.Proofs.Staging.LinkedTerms

/-!
# The code of linked functions

Functions with parameters that stand for each other and with bodies that are alike are staged to
routines that match: the parameters have the same values on both sides, and from there on the bodies do
the same.
-/

namespace IsaBackend

open StagingState


namespace StagingState

variable {names : FreshNames} {params : List (String × Rep)} {result : Rep} {name : String}

private theorem isSome_locals_params (locals : NameTable Local) :
    ((params.foldl (fun locals (name, rep) => locals.set name ⟨name, rep⟩) locals).get?
      name).isSome ↔ (locals.get? name).isSome ∨ name ∈ params.map Prod.fst := by
  induction params generalizing locals with
  | nil => simp
  | cons param params ih =>
    rw [List.foldl_cons, ih, NameTable.get?_set, List.map_cons, List.mem_cons]
    by_cases hname : name = param.1
    · simp [hname]
    · simp [hname]

private theorem isSome_locals_ofFunction :
    ((ofFunction names params result).locals.get? name).isSome ↔ name ∈ params.map Prod.fst := by
  rw [ofFunction, isSome_locals_params]
  exact or_iff_right Bool.false_ne_true

private theorem mem_declared_params (declared : List String) :
    name ∈ params.foldl (fun declared (name, _) => declared.insert name) declared ↔
      name ∈ declared ∨ name ∈ params.map Prod.fst := by
  induction params generalizing declared with
  | nil => simp
  | cons param params ih =>
    rw [List.foldl_cons, ih, List.mem_insert_iff, List.map_cons, List.mem_cons]
    grind

private theorem declared_ofFunction_iff : name ∈ (ofFunction names params result).declared ↔
    name ∈ Routine.resultParam :: params.map Prod.fst := by
  rw [ofFunction, mem_declared_params]
  simp

end StagingState

section Params

variable {params twins : List (String × Rep)}

private theorem locals_paired [OwnNames] {pairs : List (String × String)}
    (hpairing : Facts.Pairing pairs) (hreps : twins.map Prod.snd = params.map Prod.snd)
    (hsub : pairedNames params twins ⊆ pairs) {left right : String}
    (hsame : Facts.Same { ties := pairs } left right) {locals others : NameTable Local}
    (hstart : (locals.get? left).map Local.rep = (others.get? right).map Local.rep) :
    ((params.foldl (fun locals (name, rep) => locals.set name ⟨name, rep⟩) locals).get?
        left).map Local.rep =
      ((twins.foldl (fun locals (name, rep) => locals.set name ⟨name, rep⟩) others).get?
        right).map Local.rep := by
  induction params generalizing twins locals others with
  | nil =>
    obtain rfl := List.map_eq_nil_iff.mp hreps
    exact hstart
  | cons param params ih =>
    cases twins with
    | nil => cases hreps
    | cons twin twins =>
      obtain ⟨hrep, hrest⟩ := List.cons.inj hreps
      obtain ⟨hpair, hpairs⟩ := List.cons_subset.mp hsub
      have hiff := hpairing.eq_iff hpair hsame
      refine ih hrest hpairs ?_
      rw [NameTable.get?_set, NameTable.get?_set]
      by_cases hleft : left = param.1
      · rw [if_pos hleft, if_pos (hiff.mp hleft.symm).symm]
        exact congrArg some hrep.symm
      · rw [if_neg hleft, if_neg fun hright => hleft (hiff.mpr hright.symm).symm]
        exact hstart

private theorem length_names (hreps : twins.map Prod.snd = params.map Prod.snd) :
    (params.map Prod.fst).length = (twins.map Prod.fst).length := by
  simpa using congrArg List.length hreps.symm

end Params

namespace Sides

def ofFunction (names twinNames : FreshNames) (params twins : List (String × Rep)) (result : Rep) :
    Sides :=
  ⟨.ofFunction names params result, .ofFunction twinNames twins result⟩

variable {names twinNames : FreshNames} {params twins : List (String × Rep)} {result : Rep}

private theorem clear_ofFunction (after : Sides) :
    Facts.Clear { ties := pairedNames params twins } (ofFunction names twinNames params twins result)
      after :=
  ⟨fun _ hname _ => declared_ofFunction names params result
      (List.mem_cons_of_mem _ (Facts.hasLeft_pairedNames hname)),
    fun _ hname _ => declared_ofFunction twinNames twins result
      (List.mem_cons_of_mem _ (Facts.hasRight_pairedNames hname))⟩

private theorem tallied_ofFunction (hparams : ∀ number, FreshNames.name number ∉ params.map Prod.fst)
    (names : FreshNames) : (StagingState.ofFunction names params result).Tallied := by
  refine ⟨fun number hm => ?_, fun _ hn => absurd hn List.not_mem_nil, List.nodup_nil⟩
  rcases List.mem_cons.mp (declared_ofFunction_iff.mp hm) with heq | hm
  · exact absurd heq.symm (FreshNames.ne_name_of_no_hash (by decide) number)
  · exact absurd hm (hparams number)

variable [OwnNames] (hreps : twins.map Prod.snd = params.map Prod.snd)
  (hpairing : Facts.Pairing (pairedNames params twins))

include hreps hpairing

private theorem level_ofFunction (hparams : ∀ number, FreshNames.name number ∉ params.map Prod.fst)
    (htwins : ∀ number, FreshNames.name number ∉ twins.map Prod.fst)
    (hreference : result.isStack = false → OwnNames.byReference) :
    (ofFunction names twinNames params twins result).Level := by
  refine ⟨tallied_ofFunction hparams names, tallied_ofFunction htwins twinNames, ?_,
    declared_ofFunction names params result List.mem_cons_self,
    declared_ofFunction twinNames twins result List.mem_cons_self, rfl, ?_⟩
  · intro name hname
    simp only [ofFunction, declared_ofFunction_iff, List.mem_cons]
    rw [hpairing.mem_iff (length_names hreps) hname]
  · rintro rep hrep
    cases hrep
    exact hreference

private theorem linked_ofFunction :
    (ofFunction names twinNames params twins result).Linked
      (Link.ofPairs (pairedNames params twins)) := by
  refine ⟨fun name twin hlinked => ?_, rfl⟩
  have hsame := hlinked.facts hpairing
  have hlocals : (((StagingState.ofFunction names params result).locals.get? name).map Local.rep) =
      ((StagingState.ofFunction twinNames twins result).locals.get? twin).map Local.rep :=
    locals_paired hpairing hreps (List.Subset.refl _) hsame rfl
  change Local.Linked name twin ((StagingState.ofFunction names params result).locals.get? name)
    ((StagingState.ofFunction twinNames twins result).locals.get? twin)
  cases hentry : (StagingState.ofFunction names params result).locals.get? name with
  | some entry =>
    rw [hentry] at hlocals
    obtain ⟨other, hother, hrep⟩ := Option.map_eq_some_iff.mp hlocals.symm
    rw [hother]
    exact hrep.symm
  | none =>
    rw [hentry] at hlocals
    rw [Option.map_eq_none_iff.mp hlocals.symm]
    refine hsame.resolve_left fun hmem => ?_
    have hsome : ((StagingState.ofFunction names params result).locals.get? name).isSome :=
      isSome_locals_ofFunction.mpr (mem_pairedNames hmem).1
    rw [hentry] at hsome
    cases hsome

private theorem serves_ofFunction (names twinNames : FreshNames) (result : Rep) :
    Facts.Serves { ties := pairedNames params twins } (Link.ofPairs (pairedNames params twins))
      (ofFunction names twinNames params twins result) where
  scopes := by
    intro name twin hlinked entry other hentry hother
    have hcode := codeName_ofFunction names params result (.source name)
    have htwinCode := codeName_ofFunction twinNames twins result (.source twin)
    simp only [codeName, Mention.name] at hcode htwinCode
    rw [show (StagingState.ofFunction names params result).locals.get? name = some entry from hentry]
      at hcode
    rw [show (StagingState.ofFunction twinNames twins result).locals.get? twin = some other from
      hother] at htwinCode
    change entry.name = name at hcode
    change other.name = twin at htwinCode
    rw [hcode, htwinCode]
    exact hpairing.mem_of_same (length_names hreps) (hlinked.facts hpairing)
      (isSome_locals_ofFunction.mp (Option.isSome_of_mem hentry))
  live := fun _ hp => absurd hp List.not_mem_nil

end Sides

section Bodies

variable [OwnNames] {names twinNames : FreshNames}
  {params twins : List (String × Rep)} {result : Rep} {middle : Sides} {staged twin : Staged}

variable (hreps : twins.map Prod.snd = params.map Prod.snd)
  (hpairing : Facts.Pairing (pairedNames params twins))
  (hstaged : StagesAlike (Link.ofPairs (pairedNames params twins))
    (Sides.ofFunction names twinNames params twins result) middle staged twin)

include hreps hpairing hstaged

private theorem match_byReference (hreference : OwnNames.byReference) :
    ∃ last, Instr.Match {} { ties := pairedNames params twins }
      (staged.into (.deref Routine.resultParam result) ++ [.ret .unit])
      (twin.into (.deref Routine.resultParam result) ++ [.ret .unit]) last := by
  have hinto := hstaged.into {} { ties := pairedNames params twins } _ _
    (Sides.serves_ofFunction hreps hpairing names twinNames result) (Sides.clear_ofFunction middle)
    ⟨.deref Routine.resultParam Routine.resultParam result,
      .inr ⟨rfl, not_own_result hreference⟩⟩
  exact ⟨{}, hinto.append (.ret [] [] (.inline .unit (.plain rfl)))⟩

private theorem match_byValue (hparams : ∀ number, FreshNames.name number ∉ params.map Prod.fst)
    (htwins : ∀ number, FreshNames.name number ∉ twins.map Prod.fst) :
    ∃ last, Instr.Match {} { ties := pairedNames params twins }
      (.decl result (FreshNames.name middle.left.names.next) ::
        staged.into (.name (FreshNames.name middle.left.names.next) result) ++
        [.ret (.name (FreshNames.name middle.left.names.next) result)])
      (.decl result (FreshNames.name middle.right.names.next) ::
        twin.into (.name (FreshNames.name middle.right.names.next) result) ++
        [.ret (.name (FreshNames.name middle.right.names.next) result)]) last := by
  have hfirst := Sides.serves_ofFunction hreps hpairing names twinNames result
  have hserves : (Facts.tie { ties := pairedNames params twins }
      (FreshNames.name middle.left.names.next) (FreshNames.name middle.right.names.next)).Serves
      (Link.ofPairs (pairedNames params twins))
      (Sides.ofFunction names twinNames params twins result) :=
    hfirst.lead (.refl _) (Facts.within_tie _ _ _) fun _ hp => absurd hp List.not_mem_nil
  have hclear : (Facts.tie { ties := pairedNames params twins }
      (FreshNames.name middle.left.names.next) (FreshNames.name middle.right.names.next)).Clear
      (Sides.ofFunction names twinNames params twins result) middle := by
    refine ⟨fun name hname hm => ?_, fun name hname hm => ?_⟩
    · rcases Facts.hasLeft_tie.mp hname with rfl | hname
      · exact absurd (hstaged.level.left.below _ hm) (Nat.lt_irrefl _)
      · exact (Sides.clear_ofFunction middle).left name hname hm
    · rcases Facts.hasRight_tie.mp hname with rfl | hname
      · exact absurd (hstaged.level.right.below _ hm) (Nat.lt_irrefl _)
      · exact (Sides.clear_ofFunction middle).right name hname hm
  have hinto := hstaged.into {} _ _ _ hserves hclear (Place.matches_name List.mem_cons_self result)
  refine ⟨{}, .introduce (.decl result) (.inr ⟨own_name _, own_name _⟩) ?_ ?_
    (hinto.append (.ret [] [] (.name result (.inl List.mem_cons_self))))⟩
  · exact fun hhas => hparams middle.left.names.next (Facts.hasLeft_pairedNames hhas)
  · exact fun hhas => htwins middle.right.names.next (Facts.hasRight_pairedNames hhas)

end Bodies

namespace Staging

variable [OwnNames] {around : Surroundings}

/-- Functions whose bodies are alike are staged to routines that match. -/
theorem stageFunction_mirrors (name : String)
    {params twins : List (String × Rep)} (hreps : twins.map Prod.snd = params.map Prod.snd)
    (hpairing : Facts.Pairing (pairedNames params twins)) {result : Rep}
    (hreference : result.isStack = false → OwnNames.byReference) {body twin : Term}
    (hbody : Term.Alike (Link.ofPairs (pairedNames params twins)) body twin)
    (hparams : ∀ number, FreshNames.name number ∉ params.map Prod.fst)
    (htwins : ∀ number, FreshNames.name number ∉ twins.map Prod.fst) {sides : Sides}
    (hpast : sides.Past body.bound twin.bound) :
    Mirrors (stageFunction around name params result body)
      (stageFunction around name twins result twin) sides fun routine twinRoutine _ =>
        routine.Matches twinRoutine := by
  have henter : Mirrors (enterFunction params result) (enterFunction twins result) sides
      fun _ _ after =>
        after = Sides.ofFunction sides.left.names sides.right.names params twins result := by
    intro value after hok
    cases hok
    exact ⟨_, _, rfl, rfl⟩
  refine henter.bind ?_
  rintro _ _ _ rfl
  have hlevel : (Sides.ofFunction sides.left.names sides.right.names params twins result).Level :=
    Sides.level_ofFunction hreps hpairing hparams htwins hreference
  refine (stage_mirrors hbody result _ _ _ hlevel (Sides.linked_ofFunction hreps hpairing)
    ⟨hpast.left, hpast.right⟩).ensuring.bind ?_
  rintro staged twinStaged _ ⟨middle, hstaged, rfl⟩
  obtain ⟨pairs, habove⟩ := hstaged.storage
  have hended : (Sides.ofFunction sides.left.names sides.right.names params twins result).Above
      ⟨{ middle.left with result := none }, { middle.right with result := none }⟩ pairs
      staged.cleanup twinStaged.cleanup := habove.live_eq rfl rfl
  have hreturned : (!result.isStack) = true → OwnNames.byReference := fun hheap =>
    hreference (by simpa using hheap)
  simp only [pure_bind]
  split
  · have hfresh : Mirrors fresh fresh ⟨{ middle.left with result := none },
        { middle.right with result := none }⟩ fun slot twinSlot after =>
          slot = FreshNames.name middle.left.names.next ∧
          twinSlot = FreshNames.name middle.right.names.next ∧
          after.left.live = middle.left.live ∧ after.right.live = middle.right.live := by
      intro value after hok
      cases hok
      exact ⟨_, _, rfl, rfl, rfl, rfl, rfl⟩
    refine hfresh.bind ?_
    rintro _ _ after ⟨rfl, rfl, hlive, htwinLive⟩
    refine (close_above (hended.live_eq hlive htwinLive) _ _).bind ?_
    rintro _ _ _ ⟨rfl, rfl, rfl⟩
    refine Mirrors.get.bind ?_
    rintro _ _ _ ⟨rfl, rfl, rfl⟩
    exact .pure ⟨rfl, hreps, hpairing, rfl, hreturned,
      match_byValue hreps hpairing hstaged hparams htwins⟩
  · rename_i hheap
    have hgiven := hreference (Bool.eq_false_iff.mpr hheap)
    refine (close_above hended _ _).bind ?_
    rintro _ _ _ ⟨rfl, rfl, rfl⟩
    refine Mirrors.get.bind ?_
    rintro _ _ _ ⟨rfl, rfl, rfl⟩
    exact .pure ⟨rfl, hreps, hpairing, rfl, hreturned,
      match_byReference hreps hpairing hstaged hgiven⟩

end Staging

end IsaBackend
