import IsaBackend.Proofs.Meaning.Operands
import IsaBackend.Term.Fuse

/-!
# The meaning of staged terms

A term means a function from the values of the names in scope to a value or an early return, if it
can be staged wherever these names are locals and its code then gives that outcome. There is one
rule for each form of term, which takes the meaning of the whole from that of the parts. The rules
are for terms in which nothing can be fused.
-/

namespace IsaBackend

open Staging StagingState

/-- How code ends that computes an outcome for a local: the local has the value and the others are
as they were, or the function has returned the value. -/
def Frame.Ends (frame : Frame) (state : StagingState) (name : String)
    (outcome : Except Value Value) (flow : Flow) (last : Frame) : Prop :=
  match outcome with
  | .ok value =>
    flow = .next ∧ last.Holds name value ∧
      ∀ key ∈ state.declared, key ≠ name → last.get? key = frame.get? key
  | .error value => (∃ given, flow = .ret given) ∧ last.Holds Routine.resultParam value

private theorem Frame.Updated.ends_of_sameOn {frame middle last : Frame} {name : String}
    {value : Value} {state : StagingState} (h : middle.Updated name value last)
    (hsame : frame.SameOn state middle) : frame.Ends state name (.ok value) .next last :=
  ⟨rfl, h.holds, fun key hkey hne => (h.same key hne).trans (hsame key hkey)⟩

private theorem Frame.Ends.weaken {frame middle last : Frame} {state inner : StagingState}
    {name : String} {outcome : Except Value Value} {flow : Flow}
    (h : middle.Ends inner name outcome flow last)
    (hdeclared : ∀ key ∈ state.declared, key ∈ inner.declared)
    (hsame : ∀ key ∈ state.declared, key ≠ name → middle.get? key = frame.get? key) :
    frame.Ends state name outcome flow last := by
  cases outcome with
  | ok value =>
    obtain ⟨hflow, hholds, hkept⟩ := h
    exact ⟨hflow, hholds, fun key hkey hne =>
      (hkept key (hdeclared key hkey) hne).trans (hsame key hkey hne)⟩
  | error value => exact h

namespace Instr.Runs

variable {good : Callees → Prop} {code rest cleanup : List Instr} {frame middle : Frame}
  {state inner : StagingState} {name target : String} {outcome : Except Value Value}

/-- Code that computes a value for a local, and then code that goes on with the value. -/
theorem andThen {next : Value → Except Value Value}
    (h : Runs good code middle (middle.Ends inner name outcome))
    (hrest : ∀ value last, outcome = .ok value → middle.Ends inner name (.ok value) .next last →
      Runs good rest last (frame.Ends state target (next value))) :
    Runs good (code ++ rest) middle (frame.Ends state target (outcome >>= next)) := by
  cases outcome with
  | ok value =>
    refine h.append (fun last hends => hrest value last rfl hends) fun flow last hflow hends => ?_
    exact absurd hends.1 hflow
  | error value =>
    refine h.append (fun last hends => ?_) fun flow last _ hends => hends
    obtain ⟨⟨_, hnext⟩, _⟩ := hends
    cases hnext

/-- Cleanup does not touch a result that was in use before. -/
theorem cleared (h : Runs good code middle (frame.Ends state name outcome))
    (hcleanup : Instr.ReleasesBut (· ∈ state.declared) cleanup) (hname : name ∈ state.declared) :
    Runs good (code ++ cleanup) middle (frame.Ends state name outcome) := by
  refine h.append (fun last hends => ?_) fun flow last hflow hends => hends
  cases outcome with
  | ok value =>
    obtain ⟨_, hholds, hsame⟩ := hends
    rw [← List.append_nil cleanup]
    refine releases hcleanup fun final hfinal => nil ⟨rfl, ?_, fun key hkey hne => ?_⟩
    · exact hholds.of_get?_eq (hfinal name hname)
    · exact (hfinal key hkey).trans (hsame key hkey hne)
  | error value =>
    obtain ⟨⟨_, hnext⟩, _⟩ := hends
    cases hnext

end Instr.Runs

/-- The code of a term gives an outcome to any local that was in use before. -/
structure Term.Means (around : Surroundings) (good : Callees → Prop) (base : Nat)
    (reps : LocalReps) (term : Term) (rep : Rep) (meaning : Valuation → Except Value Value) :
    Prop where
  unfused : ∀ known, term.fuseIn around known = term
  fits : ∀ (values : Valuation) (value : Value), values.Fits reps → meaning values = .ok value →
    rep.conform value = .ok value
  stages : ∀ state context, state.Hosts base reps →
    Gives (stage around (some (rep, context)) term) state fun staged after =>
      after.Sane base ∧ state.Leads after ∧
      ∀ (values : Valuation) (frame : Frame) (dest : Place) (name : String) (old : Value),
        values.Fits reps → frame.Agrees state reps values → dest.IsWhole name rep →
        name ∈ state.declared → frame.Holds name old →
        Instr.Runs good (staged.into dest) frame (frame.Ends state name (meaning values))

/-- What a branch does on a value. -/
def Value.isTrue : Value → Bool
  | .bool flag => flag
  | _ => false

private theorem Value.eq_bool_of_conform {value : Value} (h : Rep.bool.conform value = .ok value) :
    value = .bool value.isTrue := by
  cases value with
  | bool flag => rfl
  | _ => cases h

section Rules

variable {around : Surroundings} {good : Callees → Prop} {base : Nat} {reps : LocalReps}

private theorem repOf_gives {ty : Ty} {rep : Rep} (h : Rep.ofTy around .generated ty = .ok rep)
    {state : StagingState} :
    Gives (repOf around ty) state fun given after => rep = given ∧ state = after :=
  .lift h

private theorem grant_same {staged : Staged} {rep : Rep} (h : staged.rep = rep)
    (context : String) {state : StagingState} :
    Gives (grant (some (rep, context)) staged) state fun given after =>
      given = { staged with rep } ∧ state = after := by
  subst h
  refine ⟨_, _, ?_, rfl, rfl⟩
  simp only [grant, coerce, Rep.bridge?_self]
  rfl

namespace Term.Means

variable {term : Term} {rep : Rep} {meaning : Valuation → Except Value Value}

theorem congr {other : Valuation → Except Value Value}
    (h : term.Means around good base reps rep meaning)
    (heq : ∀ values : Valuation, values.Fits reps → other values = meaning values) :
    term.Means around good base reps rep other where
  unfused := h.unfused
  fits := fun values value hfits hvalue => h.fits values value hfits (heq values hfits ▸ hvalue)
  stages := by
    intro state context hhosts
    refine (h.stages state context hhosts).mono ?_
    rintro staged after ⟨hsane, hleads, hruns⟩
    refine ⟨hsane, hleads, fun values frame dest name old hfits hagrees hdest hname hold => ?_⟩
    rw [heq values hfits]
    exact hruns values frame dest name old hfits hagrees hdest hname hold

theorem weaken {more : LocalReps} (h : term.Means around good base reps rep meaning)
    (hmore : reps.Within more) : term.Means around good base more rep meaning where
  unfused := h.unfused
  fits := fun values value hfits => h.fits values value (hfits.weaken hmore)
  stages := by
    intro state context hhosts
    refine (h.stages state context (hhosts.weaken hmore)).mono ?_
    rintro staged after ⟨hsane, hleads, hruns⟩
    refine ⟨hsane, hleads, fun values frame dest name old hfits hagrees => ?_⟩
    exact hruns values frame dest name old (hfits.weaken hmore) (hagrees.weaken hmore)

theorem atom {atom : Atom} {want : Rep} {value : Valuation → Value}
    (h : atom.Means around reps rep value) (hwide : rep.Widens want) :
    (Term.atom atom).Means around good base reps want fun values => .ok (value values) where
  unfused := fun _ => rfl
  fits := by
    rintro values _ hfits ⟨⟩
    exact hwide.conform (h.fits values hfits)
  stages := by
    intro state context hhosts
    refine (h.load_gives hhosts).bind ?_
    rintro _ _ ⟨operand, rfl, rfl, hrep, hnames, hshows⟩
    rcases hwide with rfl | ⟨rfl, rfl⟩
    · refine (grant_same hrep context).mono ?_
      rintro staged _ ⟨rfl, rfl⟩
      refine ⟨hhosts.toSane, .refl state, ?_⟩
      intro values frame dest name old hfits hagrees hdest _ hold
      refine Instr.Runs.move (Instr.moves_store dest operand) (hshows values frame hagrees).reads
        (hold.stores hdest (h.fits values hfits)) fun next hnext => ?_
      exact Instr.Runs.nil (hnext.ends_of_sameOn .refl)
    · -- A machine integer goes to a local of its own before it is converted.
      have hconvert : Gives (coerce (.ofLoaded { value := operand }) .bigInt context) state
          fun staged after => after.Sane base ∧ ∃ temp decl, state.Adds temp after ∧
            DeclaredBy decl temp .machInt ∧ ∀ dest, staged.into dest =
              [decl, .store (.name temp .machInt) operand,
                .convert dest (.name temp .machInt)] := by
        have hbridge : operand.rep.bridge? .bigInt = some .promote := by
          rw [hrep]
          rfl
        simp only [coerce, Staged.ofLoaded, hbridge]
        refine (temp_gives hhosts.toSane operand.rep).bind ?_
        rintro ⟨temp, decl⟩ after ⟨hsane, hadds, hdecl⟩
        rw [hrep] at hdecl ⊢
        exact .pure ⟨hsane, temp, decl, hadds, hdecl, fun dest => rfl⟩
      refine hconvert.mono ?_
      rintro staged after ⟨hsane, temp, decl, hadds, hdecl, hcode⟩
      refine ⟨hsane, hadds.leads, ?_⟩
      intro values frame dest name old hfits hagrees hdest hname hold
      rw [hcode]
      have hvalue := h.fits values hfits
      refine Instr.Runs.declare hdecl fun first hfirst => ?_
      have hshown := (hshows values frame hagrees).of_same fun key hkey =>
        hfirst.sameOn hadds key (hnames key hkey)
      refine Instr.Runs.move (Instr.moves_store _ _) hshown.reads
        (hfirst.holds.stores (.inl rfl) hvalue) fun second hsecond => ?_
      have hsame := (hfirst.sameOn hadds).update hadds hsecond
      refine Instr.Runs.move (.inl rfl) (hsecond.holds.reads _)
        ((hold.of_get?_eq (hsame name hname)).stores hdest
          (Rep.Widens.conform (.inr ⟨rfl, rfl⟩) hvalue)) fun last hlast => ?_
      exact Instr.Runs.nil (hlast.ends_of_sameOn hsame)

theorem cast (h : term.Means around good base reps rep meaning) (ty : Ty) :
    (Term.cast term ty).Means around good base reps rep meaning where
  unfused := fun known => by simp only [Term.fuseIn, h.unfused]
  fits := h.fits
  stages := h.stages

/-- A binding: the body has the value of the name, unless the binding returns early. -/
theorem bind {name : String} {ty bodyTy : Ty} {init body : Term} {want : Rep}
    {first second : Valuation → Except Value Value}
    (hty : Rep.ofTy around .generated ty = .ok rep)
    (hname : ∀ number, name = FreshNames.name number → number < base)
    (hinit : init.Means around good base reps rep first)
    (hbody : body.Means around good base (reps.set name rep) want second) :
    (Term.bind name ty init body bodyTy).Means around good base reps want fun values =>
      first values >>= fun value => second (values.set name value) where
  unfused := fun known => by simp only [Term.fuseIn, hinit.unfused, hbody.unfused]
  fits := by
    intro values value hfits hvalue
    obtain ⟨bound, hbound, hvalue⟩ := except_bind_eq_ok.mp hvalue
    exact hbody.fits _ value (hfits.set (hinit.fits values bound hfits hbound)) hvalue
  stages := by
    intro state context hhosts
    simp only [stage]
    refine (repOf_gives hty).bind ?_
    rintro _ _ ⟨rfl, rfl⟩
    refine (localName_gives hhosts.toSane hname).bind ?_
    rintro codeName claimed ⟨hclaimed, hadds⟩
    refine (declare_gives hclaimed (hadds.ne hhosts.resultParam).symm rep).bind ?_
    rintro decl declared ⟨hdeclared, hleads, hsame, hdecl⟩
    have hadded : state.Adds codeName declared :=
      ⟨hadds.leads.trans hleads, hadds.new, hsame ▸ hadds.declared⟩
    have hhosted := hhosts.lead hadded.leads hdeclared
    refine (hinit.stages declared _ hhosted).bind ?_
    rintro initStaged middle ⟨hmiddle, hleads, hinitRuns⟩
    refine (close_gives hmiddle initStaged (.name codeName rep)).bind ?_
    rintro _ closed ⟨rfl, hclosed, hclosing⟩
    have hentered := (hhosted.lead (hleads.trans hclosing) hclosed).enter name rep
      ((hleads.trans hclosing).declared codeName hadded.declared)
    refine (within_gives (hbody.stages _ context hentered)).bind ?_
    rintro bodyStaged _ ⟨inner, ⟨hinner, hinnerLeads, hbodyRuns⟩, rfl⟩
    have hleadsAll := hadded.leads.trans ((hleads.trans hclosing).trans hinnerLeads.exit)
    refine .pure ⟨⟨hinner.base_le, hinner.fresh, hinner.result, hinner.resultParam, hinner.live⟩,
      hleadsAll, ?_⟩
    intro values frame dest target old hfits hagrees hdest htarget hold
    have hcode : Staged.into { bodyStaged with
        setup := decl :: initStaged.into (.name codeName rep) ++ bodyStaged.setup
        cleanup := bodyStaged.cleanup ++ Instr.releaseOf codeName rep } dest =
        decl :: (initStaged.into (.name codeName rep) ++
          (bodyStaged.into dest ++ Instr.releaseOf codeName rep)) := by
      simp [Staged.into]
    rw [hcode]
    refine Instr.Runs.declare hdecl fun first hfirst => ?_
    have hfirstAgrees := hagrees.lead hhosts hadded.leads (hfirst.sameOn hadded)
    have hinitRun := hinitRuns values first (.name codeName rep) codeName _ hfits hfirstAgrees
      (.inl rfl) hadded.declared hfirst.holds
    refine hinitRun.andThen fun value last hvalue hends => ?_
    obtain ⟨_, hholds, hkept⟩ := hends
    -- The locals from before are as they were: neither the new local nor its code touches them.
    have hsame : frame.SameOn state last := fun key hkey =>
      (hkept key (hadded.leads.declared key hkey) (hadded.ne hkey)).trans
        (hfirst.same key (hadded.ne hkey))
    have hlastAgrees := (hagrees.lead hhosts (hadded.leads.trans (hleads.trans hclosing))
      hsame).enter name rep hholds
    have hdeclaredAll : ∀ key ∈ state.declared, key ∈ closed.declared := fun key hkey =>
      (hadded.leads.trans (hleads.trans hclosing)).declared key hkey
    have hbodyRun := hbodyRuns (values.set name value) last dest target old
      (hfits.set (hinit.fits values value hfits hvalue)) hlastAgrees hdest
      (hdeclaredAll target htarget) (hold.of_get?_eq (hsame target htarget))
    refine (hbodyRun.mono fun flow final hends => ?_).cleared
      (Instr.releasesBut_releaseOf hadded.new rep) htarget
    exact hends.weaken hdeclaredAll fun key hkey _ => hsame key hkey

theorem cond {test : Atom} {onTrue onFalse : Term} {flag : Valuation → Value}
    {first second : Valuation → Except Value Value} (htest : test.Means around reps .bool flag)
    (htrue : onTrue.Means around good base reps rep first)
    (hfalse : onFalse.Means around good base reps rep second) (ty : Ty) :
    (Term.cond test onTrue onFalse ty).Means around good base reps rep fun values =>
      if (flag values).isTrue then first values else second values where
  unfused := fun known => by simp only [Term.fuseIn, htrue.unfused, hfalse.unfused]
  fits := by
    intro values value hfits hvalue
    split at hvalue
    · exact htrue.fits values value hfits hvalue
    · exact hfalse.fits values value hfits hvalue
  stages := by
    intro state context hhosts
    simp only [stage, pure_bind, stageCond]
    refine (htest.load_gives hhosts).bind ?_
    rintro _ _ ⟨operand, rfl, rfl, hrep, hnames, hshows⟩
    refine (temp_gives hhosts.toSane .bool).bind ?_
    rintro ⟨flagName, decl⟩ started ⟨hstarted, hadds, hdecl⟩
    obtain ⟨store, htransfer, hmoves⟩ := Instr.transfer_of_widens
      (.name flagName .bool) (.inl hrep) "condition"
    refine (Gives.lift htransfer).bind ?_
    rintro _ _ ⟨rfl, rfl⟩
    refine (settle_gives hstarted []).bind ?_
    rintro _ tested ⟨htested, hsettled⟩
    have hleads := hadds.leads.trans hsettled
    refine (htrue.stages tested _ (hhosts.lead hleads htested)).bind ?_
    rintro trueArm middle ⟨hmiddle, htrueLeads, htrueRuns⟩
    refine (settle_gives hmiddle trueArm.cleanup).bind ?_
    rintro _ chosen ⟨hchosen, hchosenLeads⟩
    have hleadsFalse := hleads.trans (htrueLeads.trans hchosenLeads)
    refine (hfalse.stages chosen _ (hhosts.lead hleadsFalse hchosen)).bind ?_
    rintro falseArm final ⟨hfinal, hfalseLeads, hfalseRuns⟩
    refine (settle_gives hfinal falseArm.cleanup).bind ?_
    rintro _ last ⟨hlast, hlastLeads⟩
    refine .pure ⟨hlast, hleadsFalse.trans (hfalseLeads.trans hlastLeads), ?_⟩
    intro values frame dest target old hfits hagrees hdest htarget hold
    change Instr.Runs good [decl, store, .branch (.name flagName .bool) (trueArm.into dest)
      (falseArm.into dest) rep] frame _
    refine Instr.Runs.declare hdecl fun declared hdeclared => ?_
    have hshown := (hshows values frame hagrees).of_same fun key hkey =>
      hdeclared.sameOn hadds key (hnames key hkey)
    have hflag := Value.eq_bool_of_conform (htest.fits values hfits)
    refine Instr.Runs.move hmoves (hflag ▸ hshown.reads) (hdeclared.holds.stores (.inl rfl) rfl)
      fun ready hready => ?_
    have hsame := (hdeclared.sameOn hadds).update hadds hready
    have hheld := hold.of_get?_eq (hsame target htarget)
    refine Instr.Runs.branch (hready.holds.reads _) ?_
    rw [List.append_nil]
    cases (flag values).isTrue with
    | true =>
      have hrun := htrueRuns values ready dest target old hfits (hagrees.lead hhosts hleads hsame)
        hdest (hleads.declared target htarget) hheld
      exact hrun.mono fun flow last hends =>
        hends.weaken hleads.declared fun key hkey _ => hsame key hkey
    | false =>
      have hrun := hfalseRuns values ready dest target old hfits
        (hagrees.lead hhosts hleadsFalse hsame) hdest (hleadsFalse.declared target htarget) hheld
      exact hrun.mono fun flow last hends =>
        hends.weaken hleadsFalse.declared fun key hkey _ => hsame key hkey

/-- A return: its value is the result of the function, and nobody gets a value from it. -/
theorem ret {value : Atom} {valueRep : Rep} {meaning : Valuation → Value}
    (h : value.Means around reps valueRep meaning) (hwide : valueRep.Widens .bigInt) (ty : Ty) :
    (Term.ret value ty).Means around good base reps rep fun values =>
      .error (meaning values) where
  unfused := fun _ => rfl
  fits := fun _ _ _ hvalue => by cases hvalue
  stages := by
    intro state context hhosts
    simp only [stage, stageReturn]
    refine Gives.get.bind ?_
    rintro _ _ ⟨rfl, rfl⟩
    simp only [hhosts.result]
    refine (h.load_gives hhosts).bind ?_
    rintro _ _ ⟨operand, rfl, rfl, hrep, _, hshows⟩
    obtain ⟨store, htransfer, hmoves⟩ := Instr.transfer_of_widens
      (.deref Routine.resultParam .bigInt) (hrep ▸ hwide) "return"
    have hheap : Rep.bigInt.isStack = false := rfl
    simp only [hheap, Bool.false_eq_true, if_false]
    refine (Gives.lift htransfer).bind ?_
    rintro _ _ ⟨rfl, rfl⟩
    simp only [pure_bind]
    refine (settle_gives hhosts.toSane []).bind ?_
    rintro _ settled ⟨hsettled, hleads⟩
    refine Gives.get.bind ?_
    rintro _ _ ⟨rfl, rfl⟩
    refine .pure ⟨hsettled, hleads, ?_⟩
    intro values frame dest target old hfits hagrees hdest htarget hold
    have hcode : Staged.into {
        setup := [] ++ [store] ++ [] ++
          settled.live.map (fun entry => Instr.release entry.2 entry.1) ++ [.ret .unit]
        rep
        deliver := fun _ => .comment "unreachable"
        cleanup := [] } dest =
        store :: (settled.live.map (fun entry => Instr.release entry.2 entry.1) ++
          [.ret .unit, .comment "unreachable"]) := by
      simp [Staged.into]
    rw [hcode]
    obtain ⟨_, hresult⟩ := hagrees.result
    refine Instr.Runs.move hmoves (hshows values frame hagrees).reads
      (hresult.stores (.inr rfl) (hwide.conform (h.fits values hfits))) fun stored hstored => ?_
    have hreleases : Instr.ReleasesBut (· = Routine.resultParam)
        (settled.live.map fun entry => Instr.release entry.2 entry.1) := by
      intro instr hinstr
      obtain ⟨entry, hentry, rfl⟩ := List.mem_map.mp hinstr
      exact ⟨entry.2, entry.1, rfl, hsettled.live entry hentry⟩
    refine Instr.Runs.releases hreleases fun last hlast => ?_
    have hunit : last.Reads .unit .unit := .inl fun _ _ => rfl
    exact Instr.Runs.ret hunit ⟨⟨_, rfl⟩, hstored.holds.of_get?_eq (hlast _ rfl)⟩

theorem field {record : Atom} {recordRep : Rep} {key : String} {ty : Ty}
    {whole : Valuation → Value} {part : Value → Value}
    (h : record.Means around reps recordRep whole) (hfield : fieldRep recordRep key = .ok rep)
    (hty : Rep.ofTy around .generated ty = .ok rep)
    (hpart : ∀ value, recordRep.conform value = .ok value →
      value.field? key = some (part value) ∧ rep.conform (part value) = .ok (part value)) :
    (Term.field record key ty).Means around good base reps rep fun values =>
      .ok (part (whole values)) where
  unfused := fun _ => rfl
  fits := by
    rintro values _ hfits ⟨⟩
    exact (hpart _ (h.fits values hfits)).2
  stages := by
    intro state context hhosts
    simp only [stage, stageField, bind_assoc]
    refine (h.load_gives hhosts).bind ?_
    rintro _ _ ⟨operand, rfl, rfl, hrep, _, hshows⟩
    subst hrep
    refine (Gives.lift hfield).bind ?_
    rintro _ _ ⟨rfl, rfl⟩
    refine (repOf_gives hty).bind ?_
    rintro _ _ ⟨rfl, rfl⟩
    have hown : Gives (coerce (.ofLoaded
        { value := .inline (.field operand.toInline key) rep }) rep "field access") state _ :=
      grant_same rfl "field access"
    refine hown.bind ?_
    rintro _ _ ⟨rfl, rfl⟩
    refine (grant_same rfl context).mono ?_
    rintro _ _ ⟨rfl, rfl⟩
    refine ⟨hhosts.toSane, .refl state, ?_⟩
    intro values frame dest name old hfits hagrees hdest _ hold
    obtain ⟨hget, hconform⟩ := hpart _ (h.fits values hfits)
    refine Instr.Runs.move (Instr.moves_store dest _)
      ((hshows values frame hagrees).reads_field hget rep) (hold.stores hdest hconform)
      fun next hnext => ?_
    exact Instr.Runs.nil (hnext.ends_of_sameOn .refl)

theorem update {record value : Atom} {key : String} {ty : Ty} {keyRep valueRep : Rep}
    {whole part : Valuation → Value} {result : Value → Value → Value}
    (hrecord : record.Means around reps rep whole) (hvalue : value.Means around reps valueRep part)
    (hwide : valueRep.Widens keyRep) (hfield : fieldRep rep key = .ok keyRep)
    (hty : Rep.ofTy around .generated ty = .ok rep)
    (hresult : ∀ whole part, rep.conform whole = .ok whole → keyRep.conform part = .ok part →
      whole.setField? key part = some (result whole part) ∧
        rep.conform (result whole part) = .ok (result whole part)) :
    (Term.update record [(key, value)] ty).Means around good base reps rep fun values =>
      .ok (result (whole values) (part values)) where
  unfused := fun _ => rfl
  fits := by
    rintro values _ hfits ⟨⟩
    exact (hresult _ _ (hrecord.fits values hfits) (hwide.conform (hvalue.fits values hfits))).2
  stages := by
    intro state context hhosts
    simp only [stage, stageUpdate, bind_assoc]
    refine (repOf_gives hty).bind ?_
    rintro _ _ ⟨rfl, rfl⟩
    refine (temp_gives hhosts.toSane rep).bind ?_
    rintro ⟨temp, decl⟩ started ⟨hstarted, hadds, hdecl⟩
    have hhosted := hhosts.lead hadds.leads hstarted
    refine (storeAtom_gives (.name temp rep) hrecord (.inl rfl) hhosted "record update").bind ?_
    rintro _ _ ⟨rfl, copy, original, rfl, hcopy, hcopied⟩
    simp only [storeFields, bind_assoc, pure_bind]
    refine (Gives.lift hfield).bind ?_
    rintro _ _ ⟨rfl, rfl⟩
    refine (storeAtom_gives (.field (.name temp rep) key keyRep) hvalue hwide hhosted _).bind ?_
    rintro _ _ ⟨rfl, store, given, rfl, hstore, hgiven⟩
    refine (grant_same rfl context).mono ?_
    rintro _ _ ⟨rfl, rfl⟩
    refine ⟨hstarted, hadds.leads, ?_⟩
    intro values frame dest name old hfits hagrees hdest hname hold
    have hpart := hwide.conform (hvalue.fits values hfits)
    obtain ⟨hset, hconform⟩ := hresult _ _ (hrecord.fits values hfits) hpart
    refine Instr.Runs.cleared ?_ (Instr.releasesBut_releaseOf hadds.new rep) hname
    refine Instr.Runs.declare hdecl fun first hfirst => ?_
    have hfirstAgrees := hagrees.lead hhosts hadds.leads (hfirst.sameOn hadds)
    refine Instr.Runs.move hcopy (hcopied values first hfirstAgrees)
      (hfirst.holds.stores (.inl rfl) (hrecord.fits values hfits)) fun second hsecond => ?_
    have hsecondSame := (hfirst.sameOn hadds).update hadds hsecond
    refine Instr.Runs.move hstore
      (hgiven values second (hagrees.lead hhosts hadds.leads hsecondSame))
      (hsecond.holds.stores_field hpart hset hconform)
      fun third hthird => ?_
    have hthirdSame := hsecondSame.update hadds hthird
    refine Instr.Runs.move (Instr.moves_store dest _) (hthird.holds.reads rep)
      ((hold.of_get?_eq (hthirdSame name hname)).stores hdest hconform) fun last hlast => ?_
    exact Instr.Runs.nil (hlast.ends_of_sameOn hthirdSame)

theorem call {callee : String} {args : List Atom} {ty : Ty} {params : List Rep}
    {meaning : Valuation → List Value} {result : List Value → Value}
    (hfused : FusedPrimitive.ofName? callee = none)
    (hsignature : ∀ state, signature around callee args ty state = .ok (params, rep) state)
    (hargs : Atom.MeansAll around reps args params meaning)
    (hcallee : ∀ args, Rep.ConformAll params args → ∀ callees, good callees → ∀ store,
      callees callee args store = .ok (result args) store)
    (hresult : ∀ args, Rep.ConformAll params args → rep.conform (result args) = .ok (result args)) :
    (Term.call callee args ty).Means around good base reps rep fun values =>
      .ok (result (meaning values)) where
  unfused := fun known => by simp only [Term.fuseIn, Term.fuseCall, hfused]
  fits := by
    rintro values _ hfits ⟨⟩
    exact hresult _ (hargs.fits hfits)
  stages := by
    intro state context hhosts
    have hsigned : Gives (signature around callee args ty) state fun given after =>
        given = (params, rep) ∧ state = after := ⟨_, _, hsignature state, rfl, rfl⟩
    simp only [stage, stageCall, bind_assoc]
    refine hsigned.bind ?_
    rintro _ _ ⟨rfl, rfl⟩
    have hcount : ¬params.length ≠ args.length := not_not_intro hargs.length_eq
    simp only [if_neg hcount, bind_assoc, pure_bind]
    refine (loadArgs_gives good hargs hhosts callee 0).bind ?_
    rintro ⟨setup, operands, cleanup⟩ after ⟨hsane, hleads, hreleases, hruns⟩
    refine (grant_same rfl context).mono ?_
    rintro _ _ ⟨rfl, rfl⟩
    refine ⟨hsane, hleads, ?_⟩
    intro values frame dest name old hfits hagrees hdest hname hold
    refine Instr.Runs.cleared ?_ hreleases hname
    refine hruns values frame _ _ hfits hagrees fun ready hready hread => ?_
    refine Instr.Runs.call hread (hcallee _ (hargs.fits hfits))
      ((hold.of_get?_eq (hready name hname)).stores hdest (hresult _ (hargs.fits hfits)))
      fun last hlast => ?_
    exact Instr.Runs.nil (hlast.ends_of_sameOn hready)

end Term.Means

end Rules

end IsaBackend
