import IsaBackend.Proofs.Compilation.Independence
import IsaBackend.Proofs.Lifetime.Matching
import IsaBackend.Proofs.Machine.Programs
import IsaBackend.Proofs.Staging.LinkedFunctions
import IsaBackend.Proofs.Term.LinkedExprs
import IsaBackend.Proofs.Term.LinkedFusing

/-!
# Functions that are alike compile to routines that match

Where one of two functions that are alike compiles, so does the other, from any supply of fresh names.
Each pass keeps the two alike, and the lifetime check has the same to say about both. Definitions that
compile alike one by one give programs that match.
-/

namespace IsaBackend

open FreshNames (IsGenerated)

def CompileOptions.prepare (options : CompileOptions) (around : Surroundings) (term : Term) : Term :=
  if options.fuse then term.fuse around else term

private theorem CompileOptions.bound_prepare (options : CompileOptions) (around : Surroundings)
    (term : Term) : (options.prepare around term).bound = term.bound := by
  unfold prepare
  split
  · exact (Term.fuse_names around term).1
  · rfl

private theorem lift_mirrors {σ τ α : Type} (result : Except CompileError α) {state : σ} {other : τ} :
    Mirrors (lift result) (lift result) state other fun value twin after twinAfter =>
      (value = twin ∧ result = .ok value) ∧ state = after ∧ other = twinAfter :=
  Mirrors.lift fun value hvalue => ⟨value, hvalue, rfl, hvalue⟩

namespace Function

/-- The names of the variables of a function, whether it binds or uses them. -/
def names (function : Function) : List String :=
  function.binders ++ function.body.free ++ function.body.vars

def scope (params : List (String × Ty)) : Scope :=
  params.foldl (fun scope (name, ty) => scope.declare name ty false) {}

private theorem scope_facts (params : List (String × Ty)) :
    (scope params).Valid ∧ ∀ name,
      (name ∉ params.map Prod.fst → (scope params).get? name = none) ∧
      (name ∈ params.map Prod.fst →
        ∃ binding, (scope params).get? name = some binding ∧ binding.mutable = false) := by
  have hkept : ∀ (params : List (String × Ty)) (start : Scope), start.Valid →
      (∀ name binding, start.get? name = some binding → binding.mutable = false) →
      let last := params.foldl (fun scope (name, ty) => scope.declare name ty false) start
      last.Valid ∧ (∀ name binding, last.get? name = some binding → binding.mutable = false) ∧
        ∀ name, (last.get? name).isSome ↔ (start.get? name).isSome ∨ name ∈ params.map Prod.fst := by
    intro params
    induction params with
    | nil => exact fun start hvalid hmutable => ⟨hvalid, hmutable, by simp⟩
    | cons param rest ih =>
      intro start hvalid hmutable
      have hnext : ∀ name binding, (start.declare param.1 param.2 false).get? name = some binding →
          binding.mutable = false := by
        intro name binding hbinding
        rw [Scope.get?_declare] at hbinding
        split at hbinding
        · cases hbinding
          rfl
        · exact hmutable name binding hbinding
      obtain ⟨hlast, hconstant, hsome⟩ := ih _ (hvalid.declare param.1 param.2 false) hnext
      refine ⟨hlast, hconstant, fun name => ?_⟩
      rw [List.foldl_cons, hsome, Scope.get?_declare, List.map_cons, List.mem_cons]
      by_cases hname : name = param.1
      · simp [hname]
      · simp [hname]
  obtain ⟨hvalid, hmutable, hsome⟩ := hkept params {} Scope.valid_empty fun _ _ h => by cases h
  have hempty : ∀ name, (({} : Scope).get? name).isSome = false := fun _ => rfl
  refine ⟨hvalid, fun name => ⟨fun hname => ?_, fun hname => ?_⟩⟩
  · have hnone := hsome name
    rw [hempty] at hnone
    exact Option.not_isSome_iff_eq_none.mp fun h => by simpa [hname] using hnone.mp h
  · obtain ⟨binding, hbinding⟩ := Option.isSome_iff_exists.mp ((hsome name).mpr (.inr hname))
    exact ⟨binding, hbinding, hmutable name binding hbinding⟩

private theorem scope_paired [OwnNames] {params twins : List (String × Ty)}
    {pairs : List (String × String)} (hpairing : Facts.Pairing pairs)
    (htys : twins.map Prod.snd = params.map Prod.snd) (hsub : pairedNames params twins ⊆ pairs)
    {left right : String} (hsame : Facts.Same { ties := pairs } left right) {start other : Scope}
    (hdepth : start.depth = other.depth) (hstart : start.get? left = other.get? right) :
    (params.foldl (fun scope (name, ty) => scope.declare name ty false) start).get? left =
      (twins.foldl (fun scope (name, ty) => scope.declare name ty false) other).get? right := by
  induction params generalizing twins start other with
  | nil =>
    obtain rfl := List.map_eq_nil_iff.mp htys
    exact hstart
  | cons param params ih =>
    cases twins with
    | nil => cases htys
    | cons twin twins =>
      obtain ⟨hty, hrest⟩ := List.cons.inj htys
      obtain ⟨hpair, hpairs⟩ := List.cons_subset.mp hsub
      have hiff := hpairing.eq_iff hpair hsame
      refine ih hrest hpairs hdepth ?_
      rw [Scope.get?_declare, Scope.get?_declare, hdepth, hty]
      by_cases hleft : left = param.1
      · rw [if_pos hleft, if_pos (hiff.mp hleft.symm).symm]
      · rw [if_neg hleft, if_neg fun hright => hleft (hiff.mpr hright.symm).symm]
        exact hstart

/-- The binders of an A-normal form that have the form of generated names were generated. -/
theorem binders_past {interface : Interface} {body : Expr} {state final : FlatState} {term : Term}
    (h : Term.ofExpr interface body state = .ok term final)
    (hplain : ∀ name ∈ body.bound, ¬IsGenerated name) :
    ∀ name ∈ term.bound, ∀ number, name = FreshNames.name number → number < final.names.next := by
  rintro name hn number rfl
  rcases (Term.ofExpr_flattens body h).binders _ hn with hsource | ⟨other, hlt, heq⟩
  · exact absurd ⟨number, rfl⟩ (hplain _ hsource)
  · rw [FreshNames.name_inj.mp heq]
    exact hlt

end Function

private theorem Link.class?_ofPairs (pairs : List (String × String)) (name : String) :
    Link.class? (Link.ofPairs pairs) name =
      if name ∈ pairs.map Prod.fst then some .immutableLocal else none := by
  induction pairs with
  | nil => rfl
  | cons pair pairs ih =>
    change (if pair.1 = name then some NameClass.immutableLocal else
      Link.class? (Link.ofPairs pairs) name) = _
    rw [ih, List.map_cons]
    by_cases hname : pair.1 = name
    · simp [hname]
    · simp only [hname, Ne.symm hname, if_false, List.mem_cons, false_or]

section Functions

variable [OwnNames]

private theorem FlatState.linked_start {params twins : List (String × Ty)}
    (htys : twins.map Prod.snd = params.map Prod.snd)
    (hpairing : Facts.Pairing (pairedNames params twins))
    (hparams : ∀ param ∈ params, ¬Secret param.1)
    (htwins : ∀ param ∈ twins, ¬Secret param.1) (names twinNames : FreshNames) :
    FlatState.Linked (Link.ofPairs (pairedNames params twins)) ⟨Function.scope params, names⟩
      ⟨Function.scope twins, twinNames⟩ := by
  have hlength : (params.map Prod.fst).length = (twins.map Prod.fst).length := by
    simpa using congrArg List.length htys.symm
  have hfst : (pairedNames params twins).map Prod.fst = params.map Prod.fst :=
    List.map_fst_zip (Nat.le_of_eq hlength)
  have hsnd : (pairedNames params twins).map Prod.snd = twins.map Prod.fst :=
    List.map_snd_zip (Nat.le_of_eq hlength.symm)
  obtain ⟨hvalid, hscope⟩ := Function.scope_facts params
  obtain ⟨htwinValid, htwinScope⟩ := Function.scope_facts twins
  have hplain : ∀ name twin, Link.Same (Link.ofPairs (pairedNames params twins)) name twin →
      ¬Secret name ∧ ¬Secret twin := by
    intro name twin hlinked
    rcases (Link.same_ofPairs hpairing).mp hlinked with hmem | ⟨rfl, _, hplain⟩
    · obtain ⟨hname, htwin⟩ := mem_pairedNames hmem
      obtain ⟨param, hparam, rfl⟩ := List.mem_map.mp hname
      obtain ⟨other, hother, rfl⟩ := List.mem_map.mp htwin
      exact ⟨hparams param hparam, htwins other hother⟩
    · exact ⟨hplain, hplain⟩
  refine ⟨?_, ?_, ?_, ?_, hvalid, htwinValid⟩
  · intro name twin hlinked
    have hsame := hlinked.facts hpairing
    have hget : (Function.scope params).get? name = (Function.scope twins).get? twin :=
      Function.scope_paired hpairing htys (List.Subset.refl _) hsame rfl rfl
    rw [Link.class?_ofPairs, hfst, ← hget]
    by_cases hname : name ∈ params.map Prod.fst
    · obtain ⟨binding, hbinding, hmutable⟩ := (hscope name).2 hname
      rw [hbinding, if_pos hname]
      exact ⟨rfl, rfl, by rw [hmutable]; rfl⟩
    · rw [(hscope name).1 hname, if_neg hname]
      exact ⟨(hsame.resolve_left fun hmem => hname (mem_pairedNames hmem).1).1, rfl⟩
  · intro name hunbound _
    have hfree : ∀ entry ∈ pairedNames params twins, entry.1 ≠ name ∧ entry.2 ≠ name :=
      fun entry he => hunbound ⟨entry.1, entry.2, false⟩ (List.mem_map.mpr ⟨entry, he, rfl⟩)
    have hname : name ∉ params.map Prod.fst := by
      rw [← hfst]
      intro hm
      obtain ⟨entry, he, heq⟩ := List.mem_map.mp hm
      exact (hfree entry he).1 heq
    have htwinName : name ∉ twins.map Prod.fst := by
      rw [← hsnd]
      intro hm
      obtain ⟨entry, he, heq⟩ := List.mem_map.mp hm
      exact (hfree entry he).2 heq
    exact ⟨(hscope name).1 hname, (htwinScope name).1 htwinName⟩
  · intro name twin hlinked
    obtain ⟨hname, htwin⟩ := hplain name twin hlinked
    exact ⟨fun hsecret => absurd hsecret hname, fun hsecret => absurd hsecret htwin⟩
  · intro name twin hlinked
    obtain ⟨hname, htwin⟩ := hplain name twin hlinked
    exact ⟨fun number heq => absurd (heq ▸ secret_name number) hname,
      fun number heq => absurd (heq ▸ secret_name number) htwin⟩

namespace Function

variable {rules : ExprRules} {interface : Interface} {around : Surroundings}
  {names twinNames : FreshNames}

private theorem flatten_mirrors (hrules : rules.Sound interface) {params twins : List (String × Ty)}
    (htys : twins.map Prod.snd = params.map Prod.snd)
    (hpairing : Facts.Pairing (pairedNames params twins)) {body twin : Expr}
    (hbody : Expr.Alike rules (Link.ofPairs (pairedNames params twins)) body twin)
    (hparams : ∀ param ∈ params, ¬Secret param.1) (htwins : ∀ param ∈ twins, ¬Secret param.1)
    (hbound : ∀ name ∈ body.bound, ¬IsGenerated name)
    (htwinBound : ∀ name ∈ twin.bound, ¬IsGenerated name) :
    Mirrors (flatten interface params body) (flatten interface twins twin) names twinNames
      fun term twinTerm after twinAfter =>
        Term.Alike (Link.ofPairs (pairedNames params twins)) term twinTerm ∧
        (∀ name ∈ term.bound, ∀ number, name = FreshNames.name number → number < after.next) ∧
        ∀ name ∈ twinTerm.bound, ∀ number, name = FreshNames.name number →
          number < twinAfter.next := by
  have hlinked := FlatState.linked_start htys hpairing hparams htwins names twinNames
  intro term after h
  have hflatten : ∃ state, Term.ofExpr interface body ⟨scope params, names⟩ = .ok term state ∧
      after = state.names := by
    simp only [flatten] at h
    split at h
    · rename_i state hstate
      cases h
      exact ⟨state, hstate, rfl⟩
    · cases h
  obtain ⟨state, hstate, rfl⟩ := hflatten
  obtain ⟨twinTerm, twinState, htwin, halike⟩ :=
    Flattening.ofExpr_mirrors hrules hbody hlinked term state hstate
  refine ⟨twinTerm, twinState.names, ?_, halike.alike _ (.refl _), binders_past hstate hbound,
    binders_past htwin htwinBound⟩
  unfold scope at htwin
  simp only [flatten, htwin]

private theorem emit_mirrors (name : String) {params twins : List (String × Rep)}
    (hreps : twins.map Prod.snd = params.map Prod.snd)
    (hpairing : Facts.Pairing (pairedNames params twins)) {result : Rep}
    (hreference : result.isStack = false → OwnNames.byReference) {body twin : Term}
    (hbody : Term.Alike (Link.ofPairs (pairedNames params twins)) body twin)
    (hparams : ∀ param ∈ params, ¬Secret param.1) (htwins : ∀ param ∈ twins, ¬Secret param.1)
    (hpast : ∀ name ∈ body.bound, ∀ number, name = FreshNames.name number → number < names.next)
    (htwinPast : ∀ name ∈ twin.bound, ∀ number, name = FreshNames.name number →
      number < twinNames.next) :
    Mirrors (emit around name params result body) (emit around name twins result twin) names
      twinNames fun routine twinRoutine _ _ => routine.Matches twinRoutine ∧
        twinRoutine.Stages twinNames.next twin := by
  have hgenerated : ∀ parts : List (String × Rep), (∀ param ∈ parts, ¬Secret param.1) →
      ∀ number, FreshNames.name number ∉ parts.map Prod.fst := by
    intro parts hparts number hm
    obtain ⟨param, hparam, heq⟩ := List.mem_map.mp hm
    exact hparts param hparam (heq ▸ secret_name number)
  intro routine after h
  obtain ⟨state, hstage, rfl⟩ := emit_eq_ok h
  have hsides : Sides.Past ⟨{ names }, { names := twinNames }⟩ body.bound twin.bound :=
    ⟨hpast, htwinPast⟩
  obtain ⟨twinRoutine, twinState, htwin, hmatches⟩ :=
    Staging.stageFunction_mirrors name hreps hpairing hreference hbody (hgenerated _ hparams)
      (hgenerated _ htwins) hsides routine state hstage
  refine ⟨twinRoutine, twinState.names, ?_, hmatches, ?_⟩
  · unfold emit
    rw [htwin]
  · exact ((Staging.stageFunction_yields around name twins result twin
      { names := twinNames }).of_ok htwin).2 htwinPast

omit [OwnNames] in
private theorem partReps_snd {pos : Position} {params twins : List (String × Ty)}
    (htys : twins.map Prod.snd = params.map Prod.snd) {reps : List (String × Rep)}
    (h : partReps around pos params = .ok reps) :
    ∃ twinReps, partReps around pos twins = .ok twinReps ∧
      twinReps.map Prod.snd = reps.map Prod.snd := by
  induction params generalizing twins reps with
  | nil =>
    obtain rfl := List.map_eq_nil_iff.mp htys
    exact ⟨reps, h, rfl⟩
  | cons param params ih =>
    cases twins with
    | nil => cases htys
    | cons twin twins =>
      obtain ⟨hty, hrest⟩ := List.cons.inj htys
      obtain ⟨rep, hrep, h⟩ := except_bind_eq_ok.mp h
      obtain ⟨others, hothers, h⟩ := except_bind_eq_ok.mp h
      cases h
      obtain ⟨twinOthers, htwins, hsnd⟩ := ih hrest hothers
      refine ⟨(twin.1, rep) :: twinOthers, ?_, congrArg (rep :: ·) hsnd⟩
      rw [partReps, hty, hrep, htwins]
      rfl

omit [OwnNames] in
/-- The representations of parameters rest on the signature and not on their names. -/
private theorem paramReps_mirror {params twins : List String} {tys : List Ty}
    (hlength : params.length = tys.length) (htwin : twins.length = tys.length) (pos : Position)
    {state other : FreshNames} :
    Mirrors (lift (partReps around pos (params.zip tys))) (lift (partReps around pos (twins.zip tys)))
      state other fun reps twinReps after twinAfter =>
        (reps.map Prod.fst = params ∧ twinReps.map Prod.fst = twins ∧
          twinReps.map Prod.snd = reps.map Prod.snd) ∧ state = after ∧ other = twinAfter := by
  have htys : (twins.zip tys).map Prod.snd = (params.zip tys).map Prod.snd := by
    rw [List.map_snd_zip (Nat.le_of_eq hlength.symm), List.map_snd_zip (Nat.le_of_eq htwin.symm)]
  refine Mirrors.lift fun reps hreps => ?_
  obtain ⟨twinReps, htwinReps, hsnd⟩ := partReps_snd htys hreps
  refine ⟨twinReps, htwinReps, ?_, ?_, hsnd⟩
  · rw [partReps_names hreps, List.map_fst_zip (Nat.le_of_eq hlength)]
  · rw [partReps_names htwinReps, List.map_fst_zip (Nat.le_of_eq htwin)]

/-- Functions that differ in the names of their parameters at most and have bodies that are alike. -/
structure Alike (rules : ExprRules) (function twin : Function) : Prop where
  name : twin.name = function.name
  length : twin.params.length = function.params.length
  pairing : Facts.Pairing (function.params.zip twin.params)
  pos : twin.pos = function.pos
  left : ∀ name ∈ function.params, ¬Secret name
  right : ∀ name ∈ twin.params, ¬Secret name
  body : Expr.Alike rules (Link.ofPairs (function.params.zip twin.params)) function.body twin.body

private theorem prepare_alike (around : Surroundings) (options : CompileOptions)
    {links : List Link} {term twin : Term} (h : Term.Alike links term twin) :
    Term.Alike links (options.prepare around term) (options.prepare around twin) := by
  unfold CompileOptions.prepare
  split
  · exact Term.fuseIn_alike around h (.empty _)
  · exact h

/-- The result parameter is needed for itself if the result of a function is returned through it. -/
def Reserves (around : Surroundings) (function : Function) : Prop :=
  ∀ signature result, around.interface.signature function.name = some signature →
    Rep.ofTy around function.pos signature.result = .ok result → result.isStack = false →
    OwnNames.byReference

/-- Where one of two functions that are alike compiles, so does the other, and the routines match. -/
theorem Alike.compile_mirrors {function twin : Function} (h : function.Alike rules twin)
    (hrules : rules.Sound around.interface) (options : CompileOptions)
    (hreserves : function.Reserves around)
    (hplain : ∀ name ∈ function.binders, ¬IsGenerated name)
    (htwinPlain : ∀ name ∈ twin.binders, ¬IsGenerated name) :
    Mirrors (function.compile options around) (twin.compile options around) names twinNames
      fun routine twinRoutine _ _ => routine.Matches twinRoutine := by
  have hbound := (List.forall_mem_append.mp hplain).2
  have htwinBound := (List.forall_mem_append.mp htwinPlain).2
  unfold compile
  rw [h.name, h.length, h.pos]
  cases hsignature : around.interface.signature function.name with
  | none => exact .throw
  | some signature =>
    simp only
    split
    · exact .throw
    · rename_i hlength
      have hlength : function.params.length = signature.params.length := by omega
      have htwinLength := h.length.trans hlength
      have hzip : (function.params.zip signature.params).map Prod.fst = function.params :=
        List.map_fst_zip (Nat.le_of_eq hlength)
      have htwinZip : (twin.params.zip signature.params).map Prod.fst = twin.params :=
        List.map_fst_zip (Nat.le_of_eq htwinLength)
      have htys : (twin.params.zip signature.params).map Prod.snd =
          (function.params.zip signature.params).map Prod.snd := by
        rw [List.map_snd_zip (Nat.le_of_eq hlength.symm),
          List.map_snd_zip (Nat.le_of_eq htwinLength.symm)]
      have hpaired : pairedNames (function.params.zip signature.params)
          (twin.params.zip signature.params) = function.params.zip twin.params := by
        rw [pairedNames, hzip, htwinZip]
      refine (paramReps_mirror hlength htwinLength function.pos).bind ?_
      rintro reps twinReps _ _ ⟨⟨hnames, htwinNames, hreps⟩, rfl, rfl⟩
      have hrepPairs : pairedNames reps twinReps = function.params.zip twin.params := by
        rw [pairedNames, hnames, htwinNames]
      refine (lift_mirrors _).bind ?_
      rintro result _ _ _ ⟨⟨rfl, hresult⟩, rfl, rfl⟩
      refine (flatten_mirrors hrules htys (hpaired.symm ▸ h.pairing) (hpaired.symm ▸ h.body)
        (fun param hm => h.left param.1 (List.of_mem_zip hm).1)
        (fun param hm => h.right param.1 (List.of_mem_zip hm).1) hbound htwinBound).bind ?_
      rintro term twinTerm middle twinMiddle ⟨halike, hpast, htwinPast⟩
      rw [hpaired] at halike
      have hprepared := prepare_alike around options halike
      rw [← hrepPairs] at hprepared
      refine (emit_mirrors function.name hreps (hrepPairs.symm ▸ h.pairing)
        (hreserves signature result hsignature hresult) hprepared
        (fun param hm => h.left _ (hnames ▸ List.mem_map_of_mem hm))
        (fun param hm => h.right _ (htwinNames ▸ List.mem_map_of_mem hm)) ?_ ?_).bind ?_
      · rw [CompileOptions.bound_prepare]
        exact hpast
      · rw [CompileOptions.bound_prepare]
        exact htwinPast
      · rintro routine twinRoutine _ _ ⟨hmatches, hstages⟩
        split
        · cases hlifetimes : routine.checkLifetimes with
          | error cause => exact .throw
          | ok _ =>
            have htidy := hstages.tidy _ (hstages.separates.covers False)
              fun _ _ hwatch => hwatch.elim
            rw [hmatches.checkLifetimes htidy hlifetimes]
            exact .pure hmatches
        · exact .pure hmatches

end Function

end Functions

/-- A function compiles to a routine that pairs its allocations and releases, whether or not that is
checked. -/
theorem Function.compile_paired {function : Function}
    (hplain : ∀ name ∈ function.binders, ¬IsGenerated name) {options : CompileOptions}
    {around : Surroundings} {names final : FreshNames} {routine : Routine}
    (h : function.compile options around names = .ok routine final) :
    routine.Sound (·.breaksPairing = false) (routine.discipline False) fun _ => False := by
  obtain ⟨params, result, term, staged, scope, flat, last, _, hflat, hstaged, hstage⟩ :=
    compile_eq_ok h
  have hbound : staged.bound = term.bound := by
    rcases hstaged with rfl | rfl
    · exact (Term.fuse_names around term).1
    · rfl
  have hpast := binders_past hflat fun name hn =>
    hplain name (List.mem_append_right _ hn)
  rw [← hbound] at hpast
  have hstages := ((Staging.stageFunction_yields around function.name params result staged
    { names := flat.names }).of_ok hstage).2 hpast
  refine ⟨?_, hstages.tidy _ (hstages.separates.covers False) fun _ _ hwatch => hwatch.elim,
    fun hwatch => hwatch.elim, fun _ hfalse => hfalse.elim⟩
  rintro cause (hcalm | ⟨_, name, rfl⟩)
  · exact RunError.breaksPairing_of_isLifetime hcalm
  · rfl

namespace Definition

/-- Definitions of which the second compiles where the first does, if some types are known. They are
the same but for functions, and those compile to routines that match. -/
inductive Follows (options : CompileOptions) (interface : Interface)
    (layouts : Layouts) : Definition → Definition → Prop where
  | same {definition : Definition} : (∀ function', definition ≠ function function') →
    Follows options interface layouts definition definition
  | function {first second : Function} :
    (∀ names twinNames, Mirrors (first.compile options ⟨layouts, interface⟩)
      (second.compile options ⟨layouts, interface⟩) names twinNames
      fun routine twin _ _ => ∃ _ : OwnNames, routine.Matches twin) →
    Follows options interface layouts (.function first) (.function second)

variable {options : CompileOptions} {interface : Interface}
  {layouts : Layouts}

private theorem step_layouts_function (options : CompileOptions) (interface : Interface)
    (definition : Function) (progress : Progress) :
    ((function definition).step options interface progress).2.layouts = progress.layouts := by
  apply step_keeps_layouts
  rfl

private theorem Follows.step {definition twin : Definition}
    (h : Follows options interface layouts definition twin)
    {progress other : Progress} (hprogress : progress.layouts = layouts)
    (hother : other.layouts = layouts) :
    (∀ item, (definition.step options interface progress).1 = .ok item →
      ∃ twinItem, (twin.step options interface other).1 = .ok twinItem ∧
        item.Matches twinItem) ∧
    (definition.step options interface progress).2.layouts =
      (twin.step options interface other).2.layouts := by
  obtain ⟨known, names⟩ := progress
  obtain ⟨others, twinNames⟩ := other
  obtain rfl : layouts = known := hprogress.symm
  obtain rfl : layouts = others := hother.symm
  cases h with
  | same hdefinition =>
    have hcongr : (definition.step options interface ⟨layouts, names⟩).1 =
        (definition.step options interface ⟨layouts, twinNames⟩).1 :=
      @step_outcome_congr options interface ⟨layouts, names⟩ ⟨layouts, twinNames⟩ rfl _ hdefinition
    refine ⟨fun item hitem => ⟨item, hcongr ▸ hitem, ?_⟩,
      @step_layouts_congr options interface ⟨layouts, names⟩ ⟨layouts, twinNames⟩ rfl definition⟩
    cases item with
    | register name rep => exact .register name rep
    | layout rep => exact .layout rep
    | routine routine =>
      unfold Definition.step at hitem
      split at hitem
      · rename_i item after hcompile
        cases hitem
        obtain ⟨function', _, _, rfl, _⟩ := compile_eq_routine hcompile
        exact absurd rfl (hdefinition function')
      · cases hitem
  | @function first second hmirrors =>
    refine ⟨fun item hitem => ?_, ?_⟩
    · cases hcompile : first.compile options ⟨layouts, interface⟩ names with
      | error cause after =>
        rw [step_function_error hcompile] at hitem
        cases hitem
      | ok routine after =>
        rw [step_function_ok hcompile] at hitem
        cases hitem
        obtain ⟨twinRoutine, twinAfter, htwin, own, hmatches⟩ :=
          hmirrors names twinNames routine after hcompile
        exact ⟨.routine twinRoutine, by rw [step_function_ok htwin], .routine hmatches⟩
    · rw [step_layouts_function, step_layouts_function]

end Definition

/-- Outcomes of two definitions: both are items, which match, or both are errors. -/
inductive OutcomesMatch :
    Except CompileError Item → Except CompileError Item → Prop where
  | item {item twin : Item} : item.Matches twin → OutcomesMatch (.ok item) (.ok twin)
  | cause (cause twinCause : CompileError) : OutcomesMatch (.error cause) (.error twinCause)

namespace Compilation

variable {options : CompileOptions} {interface : Interface}
  {definitions twins : List Definition}

/-- Definitions of which each compiles where the other does, after the types before them. -/
inductive FollowAll (options : CompileOptions) (interface : Interface)
    : Layouts → List Definition → List Definition → Prop where
  | nil (layouts : Layouts) : FollowAll options interface layouts [] []
  | cons {layouts : Layouts} {definition twin : Definition} {rest twins : List Definition} :
    definition.Follows options interface layouts twin →
    FollowAll options interface
      (definition.step options interface ⟨layouts, {}⟩).2.layouts rest twins →
    FollowAll options interface layouts (definition :: rest) (twin :: twins)

private theorem outcomes_follow {layouts : Layouts}
    (h : FollowAll options interface layouts definitions twins)
    {progress other : Progress} (hprogress : progress.layouts = layouts)
    (hother : other.layouts = layouts) :
    List.Forall₂ (fun outcome twin => ∀ item, outcome = .ok item →
      ∃ twinItem, twin = .ok twinItem ∧ item.Matches twinItem)
      (outcomes options interface progress definitions)
      (outcomes options interface other twins) := by
  induction h generalizing progress other with
  | nil layouts => exact .nil
  | @cons layouts definition _ _ _ hdefinition _ ih =>
    obtain ⟨hitem, hafter⟩ := hdefinition.step hprogress hother
    have hnext : (definition.step options interface progress).2.layouts =
        (definition.step options interface ⟨layouts, {}⟩).2.layouts :=
      Definition.step_layouts_congr options interface hprogress definition
    exact .cons hitem (ih hnext (hafter.symm.trans hnext))

theorem outcomes_match
    (h : FollowAll options interface {} definitions twins)
    (hback : FollowAll options interface {} twins definitions) :
    List.Forall₂ (OutcomesMatch) (outcomes options interface {} definitions)
      (outcomes options interface {} twins) := by
  have hempty : ({} : Progress).layouts = {} := rfl
  have hboth := outcomes_follow h hempty hempty
  have hconverse := (outcomes_follow hback hempty hempty).flip
  generalize outcomes options interface {} definitions = firsts at hboth hconverse
  generalize outcomes options interface {} twins = seconds at hboth hconverse
  induction hboth with
  | nil => exact .nil
  | @cons outcome twin _ _ hitem _ ih =>
    cases hconverse with
    | cons hback hrest =>
      refine .cons ?_ (ih hrest)
      cases outcome with
      | ok item =>
        obtain ⟨twinItem, rfl, hmatches⟩ := hitem item rfl
        exact .item hmatches
      | error cause =>
        cases twin with
        | ok twinItem =>
          obtain ⟨_, hok, _⟩ := hback twinItem rfl
          cases hok
        | error twinCause => exact .cause cause twinCause

theorem outcomes_match_of_success
    (h : FollowAll options interface {} definitions twins)
    (hsuccess : (ofDefinitions options interface definitions).isSuccess = true) :
    List.Forall₂ (OutcomesMatch) (outcomes options interface {} definitions)
      (outcomes options interface {} twins) := by
  have hempty : ({} : Progress).layouts = {} := rfl
  have hfollow := outcomes_follow h hempty hempty
  simp only [isSuccess, ofDefinitions, compileFrom_eq, List.isEmpty_iff] at hsuccess
  generalize outcomes options interface {} definitions = firsts at hfollow hsuccess
  generalize outcomes options interface {} twins = seconds at hfollow
  induction hfollow with
  | nil => exact .nil
  | @cons outcome twin _ _ hitem _ ih =>
    cases outcome with
    | ok item =>
      obtain ⟨twinItem, rfl, hmatches⟩ := hitem item rfl
      exact .cons (.item hmatches) (ih hsuccess)
    | error cause => cases hsuccess

theorem program_matches (h : List.Forall₂ (OutcomesMatch)
      (outcomes options interface {} definitions) (outcomes options interface {} twins)) :
    (ofDefinitions options interface definitions).program.Matches
      (ofDefinitions options interface twins).program := by
  simp only [ofDefinitions, compileFrom_eq]
  change List.Forall₂ (Item.Matches)
    ((outcomes options interface {} definitions).filterMap Except.toOption)
    ((outcomes options interface {} twins).filterMap Except.toOption)
  generalize outcomes options interface {} definitions = firsts at h ⊢
  generalize outcomes options interface {} twins = seconds at h ⊢
  induction h with
  | nil => exact .nil
  | cons houtcome _ ih =>
    cases houtcome with
    | item hmatches => exact .cons hmatches ih
    | cause _ _ => exact ih

theorem isOk_outcomes (h : List.Forall₂ (OutcomesMatch)
      (outcomes options interface {} definitions) (outcomes options interface {} twins)) :
    (outcomes options interface {} definitions).map Except.isOk =
      (outcomes options interface {} twins).map Except.isOk := by
  generalize outcomes options interface {} definitions = firsts at h ⊢
  generalize outcomes options interface {} twins = seconds at h ⊢
  induction h with
  | nil => rfl
  | cons houtcome _ ih =>
    cases houtcome with
    | item _ => simp only [List.map_cons, ih, Except.isOk, Except.toBool]
    | cause _ _ => simp only [List.map_cons, ih, Except.isOk, Except.toBool]

theorem isSuccess_eq : (ofDefinitions options interface definitions).isSuccess =
    ((outcomes options interface {} definitions).map Except.isOk).all id := by
  simp only [isSuccess, ofDefinitions, compileFrom_eq]
  induction outcomes options interface {} definitions with
  | nil => rfl
  | cons outcome rest ih =>
    cases outcome with
    | ok item => exact ih
    | error cause => rfl

theorem routines_paired (hplain : ∀ function, .function function ∈ definitions →
      ∀ name ∈ function.binders, ¬IsGenerated name) :
    ∀ routine ∈ (ofDefinitions options interface definitions).program.routines, ∃ disc post,
      routine.Sound (·.breaksPairing = false) disc post := by
  intro routine hroutine
  obtain ⟨function, around, names, final, hmem, hcompile⟩ := exists_function hroutine
  exact ⟨_, _, Function.compile_paired (hplain function hmem) hcompile⟩

end Compilation

end IsaBackend
