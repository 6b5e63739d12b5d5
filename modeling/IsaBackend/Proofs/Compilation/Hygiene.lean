import IsaBackend.Proofs.Compilation.Replacement
import IsaBackend.Proofs.Expr.Contexts

/-!
# Hygiene of local binders

A local can be renamed, with the occurrences that its binder binds, and nothing changes: not what
compiles, and not what any call does. Only one thing must not happen. The storage of a routine is
flat, and a local keeps its name there before its initialiser is computed and after its scope has
ended, so the function must not use a global that has the name of the local.
-/

namespace IsaBackend

open FreshNames (IsGenerated)

namespace Pattern

mutual

def rename (old new : String) : Pattern → Pattern
  | name key => name (swapName old new key)
  | typed ty key => typed ty (swapName old new key)
  | wildcard => wildcard
  | tuple elems => tuple (renameAll old new elems)

def renameAll (old new : String) : List Pattern → List Pattern
  | [] => []
  | pattern :: rest => pattern.rename old new :: renameAll old new rest

end

mutual

private theorem names_rename (old new : String) :
    ∀ pattern : Pattern, (pattern.rename old new).names = pattern.names.map (swapName old new)
  | name _ => rfl
  | typed _ _ => rfl
  | wildcard => rfl
  | tuple elems => names_renameAll old new elems

theorem names_renameAll (old new : String) :
    ∀ patterns, namesAll (renameAll old new patterns) = (namesAll patterns).map (swapName old new)
  | [] => rfl
  | pattern :: rest => by
    simp only [renameAll, namesAll, names_rename old new pattern, names_renameAll old new rest,
      List.map_append]

end

end Pattern

/-- Inside a binder that has another name on the other side, its occurrences are renamed. -/
theorem Link.Settles.rename [OwnNames] {good : String → Prop} {links : List Link}
    {free vars : List String} (h : Settles id good links free vars) {old new : String}
    (hnew : ¬good new) (mutable : Bool) {bodyFree bodyVars : List String} (hbinder : old ∈ vars)
    (hfree : ∀ other ∈ bodyFree, other ≠ old → other ∈ free) (hvars : bodyVars ⊆ vars) :
    Settles (swapName old new) good (⟨old, new, mutable⟩ :: links) bodyFree bodyVars := by
  have hbound : Same (⟨old, new, mutable⟩ :: links) old (swapName old new old) :=
    .inl ⟨rfl, (if_pos rfl).symm⟩
  have hother : ∀ {other : String}, other ≠ old → swapName old new other = other :=
    fun hne => if_neg hne
  have hapart : ∀ {other : String}, good other → new ≠ other := fun hgood heq => hnew (heq ▸ hgood)
  refine ⟨fun other hn => ?_, fun other hn => ?_⟩
  · by_cases heq : other = old
    · subst heq
      exact ⟨hbound, (h.vars other hbinder).2⟩
    · obtain ⟨hsame, hgood⟩ := h.free other (hfree other hn heq)
      rw [hother heq]
      exact ⟨.inr ⟨Ne.symm heq, hapart hgood, hsame⟩, hgood⟩
  · by_cases heq : other = old
    · subst heq
      exact ⟨.inl hbound, (h.vars other hbinder).2⟩
    · obtain ⟨hpoints, hgood⟩ := h.vars other (hvars hn)
      rw [hother heq]
      refine ⟨?_, hgood⟩
      rcases hpoints with hsame | ⟨_, hunbound⟩
      · exact .inl (.inr ⟨Ne.symm heq, hapart hgood, hsame⟩)
      · exact .inr ⟨rfl, List.forall_mem_cons.mpr ⟨⟨Ne.symm heq, hapart hgood⟩, hunbound⟩⟩

namespace Expr

/-- A binder and what it binds are renamed: in a binding, in the declaration of a variable or in a
counting loop. -/
inductive RenamesBinder (old new : String) : Expr → Expr → Prop where
  | bind (note : Note) {pattern : Pattern} (init body : Expr) : old ∈ pattern.names →
    RenamesBinder old new (.bind note pattern init body)
      (.bind note (pattern.rename old new) init (body.renameFree old new))
  | var (note : Note) {target : Target Expr} (init body : Expr) : target.root = old →
    RenamesBinder old new (.var note target init body)
      (.var note (target.mapRoot (swapName old new)) init (body.renameFree old new))
  | count (note : Note) (first last step : Expr) (direction : Direction) (body : Expr) :
    RenamesBinder old new (.count note old first last step direction body)
      (.count note new first last step direction (body.renameFree old new))

variable {old new : String} {expr twin : Expr}

private theorem RenamesBinder.alike [OwnNames] (h : RenamesBinder old new expr twin)
    {rules : ExprRules}
    {good : String → Prop} (hgood : ∀ name, good name → ¬Secret name) (hnew : ¬good new)
    (hplain : ¬Secret new) (hfit : Facts.Fit old new) {links : List Link}
    (hsettles : Link.Settles id good links expr.free expr.vars) :
    Expr.Alike rules links expr twin := by
  have hbinders : old ∈ expr.vars → Binders old new := fun hold =>
    ⟨hfit, hgood old (hsettles.vars old hold).2, hplain⟩
  have hself := alike_self rules hgood
  have hrenamed : ∀ (mutable : Bool) (body : Expr), old ∈ expr.vars →
      (∀ other ∈ body.free, other ≠ old → other ∈ expr.free) → body.vars ⊆ expr.vars →
      Expr.Alike rules (⟨old, new, mutable⟩ :: links) body (body.renameFree old new) :=
    fun mutable body hold hfree hvars => renameFree_alike rules hgood body
      (fun hgoodNew => absurd hgoodNew hnew) (hsettles.rename hnew mutable hold hfree hvars)
  cases h with
  | @bind note pattern init body hmem =>
    cases pattern with
    | name key =>
      obtain rfl := List.mem_singleton.mp hmem
      have hold : old ∈ (Expr.bind note (.name old) init body).vars := by simp [vars, patternName]
      simp only [Pattern.rename, swapName, if_true]
      refine .bind note (hbinders hold) (hself init (hsettles.part ?_ ?_))
        (hrenamed false body hold ?_ ?_)
      all_goals simp +contextual [free, vars, Pattern.names]
    | typed ty key =>
      obtain rfl := List.mem_singleton.mp hmem
      have hold : old ∈ (Expr.bind note (.typed ty old) init body).vars := by
        simp [vars, patternName]
      simp only [Pattern.rename, swapName, if_true]
      refine .bindTyped note ty (hbinders hold) (hself init (hsettles.part ?_ ?_))
        (hrenamed false body hold ?_ ?_)
      all_goals simp +contextual [free, vars, Pattern.names]
    | wildcard => cases hmem
    | tuple elems => exact .refused (.bind _ _ _ _) (.bind _ _ _ _) rfl
  | @var note target init body hroot =>
    cases target with
    | name key =>
      subst hroot
      have hold : key ∈ (Expr.var note (.name key) init body).vars := by simp [vars, targetName]
      simp only [Target.mapRoot, Target.root, swapName, if_true]
      refine .var note (hbinders hold) (hself init (hsettles.part ?_ ?_))
        (hrenamed true body hold ?_ ?_)
      all_goals simp +contextual [free, freeParts, vars, Target.root]
    | _ => exact .refused (.var _ _ _ (by rintro _ ⟨⟩)) (.var _ _ _ (by rintro _ ⟨⟩)) rfl
  | count note first last step direction body =>
    have hold : old ∈ (Expr.count note old first last step direction body).vars := by simp [vars]
    refine .count note direction (hbinders hold) (hself first (hsettles.part ?_ ?_))
      (hself last (hsettles.part ?_ ?_)) (hself step (hsettles.part ?_ ?_))
      (hrenamed false body hold ?_ ?_)
    all_goals grind [free, vars]

private theorem RenamesBinder.bound_of_mem (h : RenamesBinder old new expr twin) {name : String}
    (hname : name ∈ twin.bound) : name ∈ expr.bound ∨ name = new := by
  have hswap : ∀ key, swapName old new key = key ∨ swapName old new key = new := by
    intro key
    unfold swapName
    split
    · exact .inr rfl
    · exact .inl rfl
  cases h with
  | bind note init body _ =>
    simp only [bound, Pattern.names_rename, bound_renameFree] at hname
    grind [bound]
  | @var note target init body _ =>
    simp only [bound, bound_renameFree] at hname
    cases target <;> grind [bound, boundParts, Target.mapRoot, Target.root]
  | count note first last step direction body =>
    simp only [bound, bound_renameFree] at hname
    grind [bound]

end Expr

private theorem Function.Ungenerated.alike_renamed {function : Function} (h : function.Ungenerated)
    {context : Expr → Expr} (hcontext : Expr.Context context) {old new : String} {expr twin : Expr}
    (hrenames : Expr.RenamesBinder old new expr twin) (hbody : function.body = context expr)
    (hnew : new ∉ function.names) (hplain : ¬IsGenerated new) (hglobal : old ∉ function.globals) :
    letI := OwnNames.ofNames [old, new]
    function.Alike .none { function with body := context twin } ∧
      ∀ name ∈ ({ function with body := context twin } : Function).binders, ¬IsGenerated name := by
  let := OwnNames.ofNames [old, new]
  have hown : ∀ name ∈ [old, new], Own name ∨ name = Routine.resultParam := fun name hn =>
    (Decidable.em (name = Routine.resultParam)).symm.imp_left fun hne => .inr ⟨hn, hne⟩
  have hfit : Facts.Fit old new := .inr ⟨hown old (by simp), hown new (by simp)⟩
  have hunused : new ∉ function.globals := fun hn =>
    hnew (by simp [names, (List.mem_filter.mp hn).1])
  have hsettles := h.settles
    (List.forall_mem_cons.mpr ⟨hglobal, List.forall_mem_singleton.mpr hunused⟩)
    fun name hn => (⟨h name hn, fun heq => hnew (heq ▸ hn)⟩ : ¬IsGenerated name ∧ name ≠ new)
  rw [hbody] at hsettles
  have hparams : ∀ name ∈ function.params, ¬Secret name := fun name hn =>
    h.binders name (List.mem_append_left _ hn)
  refine ⟨⟨rfl, rfl, .self _, rfl, hparams, hparams, ?_⟩, fun name hn => ?_⟩
  · rw [hbody]
    refine hcontext.alike (fun _ hgood => hgood.1) (fun hplace => ?_) hsettles
    exact hrenames.alike (fun _ hgood => hgood.1) (fun hgood => hgood.2 rfl) hplain hfit hplace
  · have hbinder : name ∈ function.binders ∨ name = new := by
      unfold Function.binders at hn ⊢
      rw [hbody]
      rcases List.mem_append.mp hn with hparam | hbound
      · exact .inl (List.mem_append_left _ hparam)
      · exact (hcontext.bound_mono (fun _ => hrenames.bound_of_mem) name hbound).imp_left
          (List.mem_append_right _)
    rcases hbinder with hbinder | rfl
    · exact h.binders name hbinder
    · exact hplain

namespace Compilation

/-- The same definitions compile after a binder is renamed to a name that the function does not have,
and every call does the same, unless the function also uses a global that has the name of the
binder. -/
theorem renamed_binder_runs_alike (options : CompileOptions) (interface : Interface)
    (before after : List Definition) (function : Function) {context : Expr → Expr}
    (hcontext : Expr.Context context) {old new : String} {expr twin : Expr}
    (hrenames : Expr.RenamesBinder old new expr twin) (hbody : function.body = context expr)
    (hungenerated : ∀ other, .function other ∈ before ++ .function function :: after →
      other.Ungenerated)
    (hnew : new ∉ function.names) (hplain : ¬IsGenerated new) (hglobal : old ∉ function.globals) :
    let definitions := before ++ .function function :: after
    let renamed := before ++ .function { function with body := context twin } :: after
    (outcomes options interface {} definitions).map Except.isOk =
        (outcomes options interface {} renamed).map Except.isOk ∧
      (ofDefinitions options interface definitions).isSuccess =
        (ofDefinitions options interface renamed).isSuccess ∧
      (ofDefinitions options interface definitions).program.RunAlike
        (ofDefinitions options interface renamed).program := by
  intro definitions renamed
  have hfunction : function.Ungenerated := hungenerated function (by simp)
  have hothers : ∀ other, .function other ∈ before ++ after → other.Ungenerated :=
    fun other hm => hungenerated other (by grind)
  let := OwnNames.ofNames [old, new]
  obtain ⟨halike, hbinders⟩ :=
    hfunction.alike_renamed hcontext hrenames hbody hnew hplain hglobal
  have hsound := ExprRules.sound_none interface
  have hreserves : ∀ (changed : Function) layouts, changed.Reserves ⟨layouts, interface⟩ :=
    fun _ _ _ _ _ _ _ => trivial
  have hmatch : List.Forall₂ OutcomesMatch (outcomes options interface {} definitions)
      (outcomes options interface {} renamed) :=
    outcomes_match
      (follows_at hothers (.of_alike halike hsound (hreserves _ _) hfunction.binders hbinders))
      (follows_at hothers (.of_alike halike.symm hsound (hreserves _ _) hbinders hfunction.binders))
  have hoks := isOk_outcomes hmatch
  refine ⟨hoks, ?_, runAlike_at hothers hfunction.binders hbinders hmatch⟩
  rw [isSuccess_eq, isSuccess_eq, hoks]

end Compilation

/-- A function that reads a register and gives the next number, by way of a local. -/
def Function.advancing (var : String) : Function where
  name := "next"
  params := []
  body := .bind ⟨.int, .generated⟩ (.name var)
    (.call ⟨.int, .generated⟩ "add_int"
      [.name ⟨.int, .generated⟩ "x", .lit ⟨.int, .generated⟩ (.num 1)])
    (.name ⟨.int, .generated⟩ var)

def Declarations.advancing : Declarations :=
  ((({} : Declarations).addRegister "x" .int).addFunction "add_int" [.int, .int] .int).addFunction
    "next" [] .int

def Compilation.advancing (var : String) : Compilation :=
  ofDefinitions {} Declarations.advancing.interface
    [.register "x" .int, .function (.advancing var)]

def Compilation.advance? (var : String) (start : Int) : Option Int :=
  match (Machine.ofProgram (advancing var).program 100).setRegister "x" (.int start) with
  | .ok machine =>
    match (machine.call "next" []).1 with
    | .ok (.int value) => some value
    | _ => none
  | .error _ => none

private theorem Function.advancing_renames (old new : String) :
    Expr.RenamesBinder old new (Function.advancing old).body (Function.advancing new).body := by
  have hbody : Expr.renameFree old new (.name ⟨.int, .generated⟩ old) =
      .name ⟨.int, .generated⟩ new := by
    rw [Expr.renameFree, swapName, if_pos rfl]
  have hpattern : (Pattern.name old).rename old new = .name new := by
    rw [Pattern.rename, swapName, if_pos rfl]
  unfold Function.advancing
  rw [← hpattern, ← hbody]
  exact .bind _ _ _ List.mem_cons_self

namespace Compilation

/-- A local with a name of its own can be renamed. -/
theorem advancing_runs_alike :
    (advancing "value").isSuccess = true ∧ (advancing "y").isSuccess = true ∧
      (advancing "value").program.RunAlike (advancing "y").program := by
  have hplain : (Function.advancing "value").Ungenerated :=
    Function.ungenerated_of_unmarked (by decide +kernel)
  have halike := renamed_binder_runs_alike {} Declarations.advancing.interface
    [.register "x" .int] [] (.advancing "value") .hole (Function.advancing_renames "value" "y") rfl
    (by simp [hplain]) (by decide +kernel) (FreshNames.not_isGenerated (by decide))
    (by decide +kernel)
  have hsuccess : (advancing "value").isSuccess = true := by decide +kernel
  exact ⟨hsuccess, halike.2.1.symm.trans hsuccess, halike.2.2⟩

/-- A local with the name of the register is there before its initialiser is computed, so the
register is not read. With another name it is. -/
theorem advancing_reads_itself :
    Expr.RenamesBinder "x" "y" (Function.advancing "x").body (Function.advancing "y").body ∧
      "y" ∉ (Function.advancing "x").names ∧
      (advancing "x").isSuccess = true ∧ (advancing "y").isSuccess = true ∧
      advance? "x" 41 = some 1 ∧ advance? "y" 41 = some 42 := by
  refine ⟨Function.advancing_renames "x" "y", ?_⟩
  decide +kernel

end Compilation

end IsaBackend
