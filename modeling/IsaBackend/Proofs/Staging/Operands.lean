import IsaBackend.Proofs.Staging.Storage
import IsaBackend.Staging.Call

/-!
# Operands

Loading an atom gives an operand that can be read where its setup ends, and a cleanup that releases
what the setup has allocated, last one first. Storing an operand and cleaning up leaves the stack
as it was.
-/

namespace IsaBackend

open StagingState

mutual

private theorem Rep.ofTy_error {around : Surroundings} {pos : Position} :
    ∀ {ty : Ty} {cause : CompileError}, Rep.ofTy around pos ty = .error cause →
      cause.reportsLive = false
  | .tuple elems, cause, h => by
    rcases except_bind_eq_error.mp h with h | ⟨_, _, h⟩
    · exact Rep.ofTys_error h
    · cases h
  | .named name, cause, h => by
    simp only [Rep.ofTy] at h
    split at h
    · cases h
    · cases h
      rfl
  | .ref inner, cause, h => by
    rcases except_bind_eq_error.mp h with h | ⟨_, _, h⟩
    · exact Rep.ofTy_error h
    · cases h
  | .vector _ _ _, _, h => by cases h; rfl
  | .list _, _, h => by cases h; rfl
  | .abbreviation _, _, h => by cases h; rfl
  | .bitfield _, _, h => by cases h; rfl
  | .unit, _, h => by cases h
  | .bit, _, h => by cases h
  | .bool, _, h => by cases h
  | .string, _, h => by cases h
  | .int, _, h => by cases h
  | .range _ _, _, h => by cases h
  | .atom _, _, h => by cases h
  | .bits _ _, _, h => by cases h

theorem Rep.ofTys_error {around : Surroundings} {pos : Position} :
    ∀ {tys : List Ty} {cause : CompileError}, Rep.ofTys around pos tys = .error cause →
      cause.reportsLive = false
  | [], _, h => by cases h
  | ty :: rest, cause, h => by
    rcases except_bind_eq_error.mp h with h | ⟨_, _, h⟩
    · exact Rep.ofTy_error h
    · rcases except_bind_eq_error.mp h with h | ⟨_, _, h⟩
      · exact Rep.ofTys_error h
      · cases h

end

theorem Instr.transfer_error {dest : Place} {value : Operand} {context : String}
    {cause : CompileError} (h : Instr.transfer dest value context = .error cause) :
    cause.reportsLive = false := by
  unfold Instr.transfer at h
  split at h <;> cases h
  rfl

theorem Instr.store_eq (dest : Place) (value : Operand) :
    Instr.store dest value = .assign dest value ∨ Instr.store dest value = .copy dest value ∨
      Instr.store dest value = .convert dest value := by
  unfold Instr.store
  split
  · exact .inl rfl
  · exact .inr (.inl rfl)

theorem Instr.transfer_eq {dest : Place} {value : Operand} {context : String} {instr : Instr}
    (h : Instr.transfer dest value context = .ok instr) : instr = .assign dest value ∨
      instr = .copy dest value ∨ instr = .convert dest value := by
  unfold Instr.transfer at h
  split at h <;> cases h
  · exact Instr.store_eq dest value
  · exact .inr (.inr rfl)

theorem Instr.introduced_move {instr : Instr} {dest : Place} {value : Operand}
    (h : instr = .assign dest value ∨ instr = .copy dest value ∨ instr = .convert dest value) :
    instr.introduced = [] := by
  rcases h with rfl | rfl | rfl <;> rfl

theorem Piece.transfer {plan : Plan} {state : StagingState} {dest : Place} {value : Operand}
    {context : String} {instr : Instr} (h : Instr.transfer dest value context = .ok instr) :
    Piece plan (fun acc => acc.Reads state.stack value ∧ acc.MayWrite state.stack dest.root)
      state state [instr] [] :=
  .step (Instr.introduced_move (Instr.transfer_eq h)) (Instr.emitted_transfer h)
    fun _ hneeds _ _ => Access.accepts_move (Instr.transfer_eq h) hneeds.1 hneeds.2

/-- Two pieces of code that store to the same local. -/
theorem Piece.stores {plan : Plan} {before middle after : StagingState} {usage more : Usage}
    {root : String} {code rest : List Instr}
    (h : Piece plan (fun acc => before.Allows acc usage ∧ acc.MayWrite before.stack root) before
      middle code [])
    (hrest : Piece plan (fun acc => middle.Allows acc more ∧ acc.MayWrite middle.stack root)
      middle after rest []) :
    Piece plan (fun acc => before.Allows acc (usage ++ more) ∧ acc.MayWrite before.stack root)
      before after (code ++ rest) [] :=
  (h.weaken fun _ hneeds => ⟨hneeds.1.left, hneeds.2⟩).followed hrest fun _ _ hneeds =>
    ⟨h.allows hneeds.1.right, h.mayWrite hneeds.2⟩

/-- An operand that can be read after its setup. -/
structure Loads (plan : Plan) (needs : Access → Prop) (before after : StagingState)
    (loaded : Loaded) : Prop where
  setup : Piece plan needs before after loaded.setup loaded.cleanup
  reads : ∀ acc : Access, acc.Covers (Instr.introducedAll loaded.setup) → needs acc →
    (acc.after loaded.setup).Reads after.stack loaded.value

namespace Loads

variable {plan : Plan} {needs : Access → Prop} {before after state : StagingState}

private theorem inline {value : Operand} (h : ∀ acc, needs acc → acc.Reads state.stack value) :
    Loads plan needs state state { value } :=
  ⟨.nil state, fun acc _ hneeds => (h acc hneeds).mono (acc.le_after []) fun _ hn => hn⟩

private theorem constant {expr : Inline} (hfits : expr.fitsMachineWord = true)
    (hnone : expr.occurrences = []) (rep : Rep) :
    Loads plan needs state state { value := .inline expr rep } :=
  .inline fun _ _ => Access.reads_constant hfits hnone rep

/-- An operand that is stored and cleaned up after leaves the stack as it was. -/
theorem store {loaded : Loaded} (h : Loads plan needs before after loaded) {dest : Place}
    {context : String} {store : Instr}
    (hstore : Instr.transfer dest loaded.value context = .ok store) :
    Piece plan (fun acc => needs acc ∧ acc.MayWrite before.stack dest.root) before
      (after.withLive before.live) (loaded.setup ++ [store] ++ loaded.cleanup) [] :=
  Piece.settled ((h.setup.weaken fun _ hneeds => hneeds.1).extended (.transfer hstore)
    fun acc hcov hneeds => ⟨h.reads acc hcov hneeds.1, h.setup.mayWrite hneeds.2⟩)

/-- An operand that is made of another one. -/
theorem andThen {middle : StagingState} {more : Access → Prop} {loaded next : Loaded}
    (h : Loads plan needs before middle loaded) (hnext : Loads plan more middle after next)
    (himp : ∀ acc : Access, acc.Covers (Instr.introducedAll loaded.setup) → needs acc →
      more (acc.after loaded.setup)) :
    Loads plan needs before after
      { setup := loaded.setup ++ next.setup, value := next.value,
        cleanup := next.cleanup ++ loaded.cleanup } where
  setup := h.setup.append hnext.setup himp
  reads := by
    intro acc hcov hneeds
    rw [Instr.introducedAll_append, Access.covers_append] at hcov
    rw [Access.after_append]
    exact hnext.reads _ ((Access.covers_after _).mpr hcov.2) (himp acc hcov.1 hneeds)

end Loads

namespace Staging

variable {plan : Plan} {needs : Access → Prop} {before after state : StagingState}

theorem repOf_provides (around : Surroundings) (ty : Ty) (state : StagingState) :
    Provides (repOf around ty) state fun rep after =>
      Rep.ofTy around .generated ty = .ok rep ∧ state = after :=
  .lift fun _ h => Rep.ofTy_error h

theorem Declares.usable_after {initial more : Access → Prop} {middle : StagingState} {name : String}
    {rep : Rep} {decl : Instr} {code : List Instr} {acc : Access}
    (h : Declares plan initial before middle name rep decl)
    (hcode : Piece plan more middle after code [])
    (hcov : acc.Covers (Instr.introducedAll (decl :: code))) :
    (acc.after (decl :: code)).MayUse after.stack name := by
  have husable := h.usable acc (Access.covers_append.mp hcov).1
  rw [hcode.stack_eq, ← List.singleton_append, Access.after_append]
  exact husable.mono (Access.le_after _ code) fun _ hn => hn

/-- A local that code gives its value is an operand. -/
theorem Declares.fill {initial more : Access → Prop} {middle : StagingState} {name : String}
    {rep : Rep} {decl : Instr} {code : List Instr}
    (h : Declares plan initial before middle name rep decl)
    (hinitial : ∀ acc, needs acc → initial acc) (hcode : Piece plan more middle after code [])
    (himp : ∀ acc : Access, (acc.after [decl]).MayUse middle.stack name → needs acc →
      more (acc.after [decl])) :
    Loads plan needs before after
      { setup := decl :: code, value := .name name rep,
        cleanup := Instr.releaseOf name rep } where
  setup := by
    refine (h.piece.weaken hinitial).append hcode fun acc hcov hneeds => ?_
    rw [Instr.introducedAll_singleton] at hcov
    exact himp acc (h.usable acc hcov) hneeds
  reads := fun _ hcov _ => Access.reads_name (h.usable_after hcode hcov).1 rep

/-- Code that stores to a local what some names stand for. -/
theorem Declares.stored {usage : Usage} {middle : StagingState} {name : String} {rep : Rep}
    {decl : Instr} {code : List Instr}
    (h : Declares plan (fun _ => True) before middle name rep decl)
    (hcode : Piece plan (fun acc => middle.Allows acc usage ∧ acc.MayWrite middle.stack name)
      middle after code []) :
    Loads plan (fun acc => before.Allows acc usage) before after
      { setup := decl :: code, value := .name name rep, cleanup := Instr.releaseOf name rep } :=
  h.fill (fun _ _ => trivial) hcode fun _ husable hallows =>
    ⟨h.piece.allows hallows, husable.2⟩

private theorem Declares.loads {initial : Access → Prop} {name : String} {rep : Rep} {decl : Instr}
    (h : Declares plan initial before after name rep decl)
    (hinitial : ∀ acc, needs acc → initial acc) :
    Loads plan needs before after
      { setup := [decl], value := .name name rep, cleanup := Instr.releaseOf name rep } := by
  have hnil : Piece plan (fun _ => True) after after [] [] := .nil after
  exact h.fill hinitial hnil fun _ _ _ => trivial

private theorem loadText_provides {rep : Rep} (hparsed : rep.IsParsed) (text : String) :
    Provides (loadText rep text) state fun loaded after =>
      Loads plan needs state after loaded := by
  refine (tempFrom_provides plan state hparsed.isStack fun _ => .parse hparsed).bind
    fun (name, init) after h => ?_
  exact .pure (h.loads fun _ _ => Access.reads_constant rfl rfl .string)

private theorem loadUndefined_provides (rep : Rep) :
    Provides (loadUndefined rep) state fun loaded after =>
      Loads plan needs state after loaded :=
  (temp_provides plan state rep).bind fun (_, _) _ h =>
    .pure (h.loads fun _ _ => trivial)

private theorem loadDigits_provides (rep : Rep) (digits mark : String) (radix bitsPerDigit : Nat) :
    Provides (loadDigits rep digits mark radix bitsPerDigit) state fun loaded after =>
      Loads plan needs state after loaded := by
  unfold loadDigits
  split
  · rename_i expr hexpr
    unfold Inline.ofDigits? at hexpr
    simp only at hexpr
    split at hexpr
    · obtain ⟨value, _, rfl⟩ := Option.map_eq_some_iff.mp hexpr
      exact .pure (.constant rfl rfl _)
    · cases hexpr
  · exact loadText_provides (.inr ⟨_, rfl⟩) _

private theorem loadLiteral_provides (rep : Rep) (value : Literal) :
    Provides (loadLiteral rep value) state fun loaded after =>
      Loads plan needs state after loaded := by
  cases value with
  | undefined => exact loadUndefined_provides rep
  | num value =>
    simp only [loadLiteral]
    split
    · rename_i hfits
      refine .pure (.constant ?_ rfl _)
      exact hfits
    · exact loadText_provides (.inl rfl) _
  | hex digits => exact loadDigits_provides _ _ _ _ _
  | bin digits => exact loadDigits_provides _ _ _ _ _
  | _ => exact .pure (.constant rfl rfl _)

private theorem loadName_provides {name : String} {cls : NameClass} {ty : Ty}
    (hsites : (Atom.name name cls ty).sites ⊆ plan.sites) :
    Provides (loadName plan.around name cls ty) state fun loaded after => Loads plan
      (fun acc => acc.MayRead state.stack (state.codeName (.source name))) state after loaded := by
  refine Provides.get.bind ?_
  rintro _ _ ⟨rfl, rfl⟩
  simp only [codeName]
  cases state.locals.get? name with
  | some entry => exact .pure (.inline fun _ hread => Access.reads_name hread _)
  | none =>
    refine (repOf_provides plan.around ty state).bind ?_
    rintro rep _ ⟨hrep, rfl⟩
    cases cls with
    | enumMember =>
      refine .pure (.inline fun _ hread => Access.reads_inline rfl (fun other ho => ?_) _)
      exact List.mem_singleton.mp ho ▸ hread
    | unionCtor =>
      refine (temp_provides plan _ rep).bind ?_
      rintro ⟨result, decl⟩ after h
      have hcall : Piece plan (fun acc => acc.MayWrite after.stack result) after after
          [.call (.name result rep) name [.unit]] [] :=
        .step rfl (.alone ⟨rfl, ty, rep, result, hsites List.mem_cons_self, hrep, rfl⟩)
          fun _ hwrite _ _ => Access.accepts_call
            (fun arg ha => List.mem_singleton.mp ha ▸ Access.reads_constant rfl rfl _) hwrite
      exact .pure (h.fill (fun _ _ => trivial) hcall fun _ husable _ => husable.2)
    | _ => exact .pure (.inline fun _ hread => Access.reads_name hread _)

private theorem loadInline_provides (around : Surroundings) (expr : Inline) (ty : Ty) :
    Provides (loadInline around expr ty) state fun loaded after => Loads plan
      (fun acc => state.Allows acc (Atom.inline expr ty).usage) state after loaded := by
  refine (repOf_provides around ty state).bind ?_
  rintro rep _ ⟨_, rfl⟩
  split
  · rename_i hfits
    refine .pure (.inline fun acc hallows => ?_)
    have huses := hallows.uses
    cases acc with
    | lifetime disc =>
      exact ⟨hfits, fun name hn => huses (.verbatim name) (List.mem_map_of_mem hn)⟩
    | scope rights => exact fun name hn => huses.1 (.verbatim name) (List.mem_map_of_mem hn)
  · split
    · exact loadText_provides (.inl rfl) _
    · exact .throw rfl

private theorem bitsValue_error {elems : List Atom} {value : Nat} {cause : CompileError}
    (h : bitsValue value elems = .error cause) : cause.reportsLive = false := by
  induction elems generalizing value with
  | nil => cases h
  | cons elem rest ih =>
    unfold bitsValue at h
    split at h
    · cases h
    · rename_i heq
      cases heq
      exact ih h
    · cases h
      rfl

private theorem loadBits_provides (around : Surroundings) (elems : List Atom) (ty : Ty) :
    Provides (loadBits around elems ty) state fun loaded after =>
      Loads plan needs state after loaded := by
  refine (repOf_provides around ty state).bind ?_
  rintro rep _ ⟨_, rfl⟩
  refine (Provides.lift fun _ h => bitsValue_error h).bind ?_
  rintro value _ ⟨_, rfl⟩
  simp only
  split
  · exact .pure (.constant rfl rfl _)
  · cases fitsCount elems.length with
    | true => exact loadText_provides (.inr ⟨_, rfl⟩) _
    | false => exact .throw rfl

mutual

theorem load_provides (plan : Plan) : ∀ (atom : Atom), atom.sites ⊆ plan.sites →
    ∀ state : StagingState, Provides (load plan.around atom) state fun loaded after =>
      Loads plan (fun acc => state.Allows acc atom.usage) state after loaded
  | .lit value ty, _, state => by
    refine (repOf_provides plan.around ty state).bind ?_
    rintro rep _ ⟨_, rfl⟩
    exact loadLiteral_provides rep value
  | .name _ _ _, hsites, _ => (loadName_provides hsites).mono fun _ _ h =>
    ⟨h.setup.weaken fun _ hallows => hallows.mayRead_name,
      fun acc hcov hallows => h.reads acc hcov hallows.mayRead_name⟩
  | .refTo name ty, _, state => by
    refine (repOf_provides plan.around ty state).bind ?_
    rintro rep _ ⟨_, rfl⟩
    refine .pure (.inline fun acc hallows => ?_)
    have huses := hallows.uses
    cases acc with
    | lifetime disc => exact Discipline.reads_inline rfl rfl
    | scope rights =>
      exact fun other ho => List.mem_singleton.mp ho ▸ huses.1 _ List.mem_cons_self
  | .tuple elems, hsites, state => by
    refine (repOf_provides plan.around _ state).bind ?_
    rintro rep _ ⟨_, rfl⟩
    refine (temp_provides plan state rep).bind ?_
    rintro ⟨name, decl⟩ declared hdecl
    refine (loadFields_provides plan elems hsites (.name name rep) 0 rep.fields declared).bind ?_
    intro stores after hstores
    exact .pure (hdecl.stored hstores)
  | .vector elems ty, _, _ => loadBits_provides plan.around elems ty
  | .list elems ty, _, state => by
    refine (repOf_provides plan.around ty state).bind ?_
    rintro rep _ ⟨_, rfl⟩
    exact .throw rfl
  | .inline expr ty, _, _ => loadInline_provides plan.around expr ty

theorem loadFields_provides (plan : Plan) : ∀ elems : List Atom, Atom.sitesAll elems ⊆ plan.sites →
    ∀ (base : Place) (index : Nat) (fields : List (String × Rep)) (state : StagingState),
      Provides (loadFields plan.around base index elems fields) state fun code after =>
        Piece plan (fun acc => state.Allows acc (Atom.usageAll elems) ∧
          acc.MayWrite state.stack base.root) state after code []
  | [], _, _, _, _, state => .pure (.nil state)
  | _ :: _, _, _, _, [], state => .pure (.nil state)
  | elem :: elems, hsites, base, index, (field, rep) :: fields, state => by
    obtain ⟨helem, helems⟩ := List.append_subset.mp hsites
    refine (load_provides plan elem helem state).bind ?_
    intro loaded middle hloaded
    refine (Provides.lift fun _ h => Instr.transfer_error h).bind ?_
    rintro store _ ⟨hstore, rfl⟩
    refine (settle_piece hloaded.setup).bind ?_
    rintro _ _ rfl
    have hfirst := hloaded.store hstore
    refine (loadFields_provides plan elems helems base (index + 1) fields _).bind ?_
    intro rest after hrest
    exact .pure (hfirst.stores hrest)

end

theorem storeAtom_provides (plan : Plan) (dest : Place) {atom : Atom}
    (hsites : atom.sites ⊆ plan.sites) (context : String) (state : StagingState) :
    Provides (storeAtom plan.around dest atom context) state fun code after =>
      Piece plan (fun acc => state.Allows acc atom.usage ∧ acc.MayWrite state.stack dest.root)
        state after code [] := by
  refine (load_provides plan atom hsites state).bind ?_
  intro loaded middle hloaded
  refine (Provides.lift fun _ h => Instr.transfer_error h).bind ?_
  rintro store _ ⟨hstore, rfl⟩
  refine (settle_piece hloaded.setup).bind ?_
  rintro _ _ rfl
  exact .pure (hloaded.store hstore)

private theorem repsOf_provides (around : Surroundings) :
    ∀ (tys : List Ty) (state : StagingState),
      Provides (repsOf around tys) state fun reps after =>
        Rep.ofTys around .generated tys = .ok reps ∧ state = after
  | [], _ => .pure ⟨rfl, rfl⟩
  | ty :: rest, state => by
    refine (repOf_provides around ty state).bind ?_
    rintro rep _ ⟨hrep, rfl⟩
    refine (repsOf_provides around rest _).bind ?_
    rintro reps _ ⟨hreps, rfl⟩
    refine .pure ⟨?_, rfl⟩
    simp only [Rep.ofTys, hrep, hreps]
    rfl

theorem signature_provides (around : Surroundings) (callee : String) (args : List Atom) (ty : Ty)
    (state : StagingState) :
    Provides (signature around callee args ty) state fun reps after =>
      (around.Declares callee → around.callee? callee = some reps) ∧ state = after := by
  unfold signature
  split
  · rename_i union payload hctor
    exact .pure ⟨fun _ => by simp [Surroundings.callee?, hctor], rfl⟩
  · rename_i hctor
    split
    · rename_i signature hsignature
      refine (repsOf_provides around _ state).bind ?_
      rintro params _ ⟨hparams, rfl⟩
      refine (repOf_provides around _ _).bind ?_
      rintro result _ ⟨hresult, rfl⟩
      refine .pure ⟨fun _ => ?_, rfl⟩
      simp [Surroundings.callee?, hctor, hsignature, hparams, hresult, Except.toOption]
    · rename_i hsignature
      have hnot : ¬around.Declares callee := by
        simp [Surroundings.Declares, hctor, hsignature]
      split
      · refine (repsOf_provides around _ state).bind ?_
        rintro params _ ⟨_, rfl⟩
        refine (repOf_provides around _ _).bind ?_
        rintro result _ ⟨_, rfl⟩
        exact .pure ⟨fun h => absurd h hnot, rfl⟩
      · exact .throw rfl

end Staging

theorem Rep.isStack_of_promote {source target : Rep} (h : source.bridge? target = some .promote) :
    target.isStack = false := by
  unfold Rep.bridge? at h
  split at h
  · cases h
  · unfold Rep.crossing? at h
    split at h <;> first | rfl | (split at h <;> cases h) | cases h

/-- Every crossing that is no promotion leads to a stack representation. -/
theorem Rep.isStack_of_crossing {source target : Rep} {bridge : Rep.Bridge}
    (h : source.bridge? target = some bridge) (hid : bridge ≠ .identity)
    (hpromote : bridge ≠ .promote) : target.isStack = true := by
  unfold Rep.bridge? at h
  split at h
  · cases h
    exact absurd rfl hid
  · unfold Rep.crossing? at h
    split at h <;> first
      | rfl
      | (split at h <;> cases h <;> contradiction)
      | cases h <;> contradiction

namespace Staging

variable {plan : Plan} {state : StagingState}

private theorem loadArg_provides (plan : Plan) (callee : String) (index : Nat) {arg : Atom}
    (hsites : arg.sites ⊆ plan.sites) (param : Rep) (state : StagingState) :
    Provides (loadArg plan.around callee index arg param) state fun loaded after =>
      Loads plan (fun acc => state.Allows acc arg.usage) state after loaded ∧
        loaded.value.rep.compatible param = true := by
  refine (load_provides plan arg hsites state).bind ?_
  intro loaded middle hloaded
  split
  · exact .throw rfl
  · rename_i hidentity
    exact .pure ⟨hloaded, Rep.compatible_of_bridge hidentity⟩
  · rename_i hbridge
    refine (tempFrom_provides plan middle (Rep.isStack_of_promote hbridge)
      fun _ => .promote hbridge).bind ?_
    rintro ⟨name, init⟩ after hinit
    exact .pure ⟨hloaded.andThen (hinit.loads fun _ hreads => hreads) hloaded.reads,
      Rep.compatible_self param⟩
  · rename_i bridge hid hpromote hbridge
    refine (temp_provides plan middle param).bind ?_
    rintro ⟨name, decl⟩ after hdecl
    have hrelease : Instr.releaseOf name param = [] := by
      simp [Instr.releaseOf, Rep.isStack_of_crossing hbridge hid hpromote]
    have hconvert : Piece plan (fun acc => acc.Reads after.stack loaded.value ∧
        acc.MayWrite after.stack name) after after [.convert (.name name param) loaded.value] [] :=
      .step rfl (.convert ⟨bridge, hbridge, hid⟩) fun _ hneeds _ _ =>
        Access.accepts_move (.inr (.inr rfl)) hneeds.1 hneeds.2
    have htail : Loads plan (fun acc => acc.Reads middle.stack loaded.value) middle after _ :=
      hdecl.fill (fun _ _ => trivial) hconvert fun acc husable hreads =>
        ⟨hreads.mono (acc.le_after _) hdecl.piece.stack_subset, husable.2⟩
    rw [hrelease] at htail
    exact .pure ⟨hloaded.andThen htail hloaded.reads, Rep.compatible_self param⟩

/-- The arguments of a call between two states: operands that can all be read after the setup and
fit the parameters. -/
structure LoadsAll (plan : Plan) (needs : Access → Prop) (before after : StagingState)
    (params : List Rep) (setup : List Instr) (values : List Operand) (cleanup : List Instr) : Prop
    where
  piece : Piece plan needs before after setup cleanup
  reads : ∀ acc : Access, acc.Covers (Instr.introducedAll setup) → needs acc →
    ∀ value ∈ values, (acc.after setup).Reads after.stack value
  fits : List.Forall₂ (fun value param => value.rep.compatible param = true) values params

theorem loadArgs_provides (plan : Plan) (callee : String) :
    ∀ (args : List Atom), Atom.sitesAll args ⊆ plan.sites → ∀ (index : Nat) (params : List Rep),
      params.length = args.length → ∀ state : StagingState,
      Provides (loadArgs plan.around callee index args params) state
        fun (setup, values, cleanup) after =>
          LoadsAll plan (fun acc => state.Allows acc (Atom.usageAll args)) state after params setup
            values cleanup
  | [], _, _, [], _, state => .pure ⟨.nil state, nofun, .nil⟩
  | [], _, _, _ :: _, hlength, _ => absurd hlength (Nat.succ_ne_zero _)
  | _ :: _, _, _, [], hlength, _ => absurd hlength.symm (Nat.succ_ne_zero _)
  | arg :: args, hsites, index, param :: params, hlength, state => by
    obtain ⟨harg, hargs⟩ := List.append_subset.mp hsites
    refine (loadArg_provides plan callee index harg param state).bind ?_
    rintro loaded middle ⟨hloaded, hfits⟩
    refine (loadArgs_provides plan callee args hargs (index + 1) params (Nat.succ.inj hlength)
      middle).bind ?_
    rintro ⟨setup, values, cleanup⟩ after hrest
    have hsplit : ∀ {acc : Access}, state.Allows acc (Atom.usageAll (arg :: args)) →
        state.Allows acc (arg.usage ++ Atom.usageAll args) := id
    refine .pure ⟨(hloaded.setup.weaken fun _ h => (hsplit h).left).append hrest.piece
      fun _ _ h => hloaded.setup.allows (hsplit h).right, fun acc hcov hallows value hv => ?_,
      .cons hfits hrest.fits⟩
    rw [Instr.introducedAll_append, Access.covers_append] at hcov
    rw [Access.after_append]
    rcases List.mem_cons.mp hv with rfl | hv
    · exact (hloaded.reads acc hcov.1 (hsplit hallows).left).mono (Access.le_after _ setup)
        hrest.piece.stack_subset
    · exact hrest.reads _ ((Access.covers_after _).mpr hcov.2)
        (hloaded.setup.allows (hsplit hallows).right) value hv

end Staging

end IsaBackend
