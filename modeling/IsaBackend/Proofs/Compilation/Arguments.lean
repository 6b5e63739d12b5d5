import IsaBackend.Proofs.Compilation.Replacement
import IsaBackend.Proofs.Expr.Arguments

/-!
# The order of arguments

The arguments of a call that compute something are evaluated from left to right: the call does the same
if they are bound to names one after the other before it. Arguments that are names, literals or put
together of them are not bound. They are read where they stand, after all the others.
-/

namespace IsaBackend

open FreshNames (IsGenerated)

/-- The generated names, and one that only the right side has. -/
@[reducible]
def OwnNames.ofSecret (name : String) : OwnNames where
  isOwn key := IsGenerated key ∨ key = name ∧ key ≠ Routine.resultParam
  generated number := .inl ⟨number, rfl⟩
  isSecret key := IsGenerated key ∨ key = name
  secret number := .inl ⟨number, rfl⟩
  byReference := True
  result := by
    rintro - (hgenerated | ⟨_, hne⟩)
    · exact FreshNames.not_isGenerated (by decide) hgenerated
    · exact hne rfl

namespace Function

variable {function : Function} {context : Expr → Expr} {note : Note} {callee fresh : String}
  {before after : List Expr} {arg : Expr} (interface : Interface)

/-- The function with an argument of a call bound to a name before the call. -/
def liftArg (function : Function) (context : Expr → Expr) (note : Note) (callee fresh : String)
    (before : List Expr) (arg : Expr) (after : List Expr) : Function :=
  { function with
    body := context (.bindArg interface note fresh arg
      (.call note callee (before ++ .argName interface fresh arg :: after))) }

private theorem mem_names_liftArg (hcontext : Expr.Context context)
    (hbody : function.body = context (.call note callee (before ++ arg :: after))) {name : String}
    (h : name ∈ (function.liftArg interface context note callee fresh before arg after).names) :
    name ∈ function.names ∨ name = fresh := by
  simp only [names, Function.binders, liftArg, hbody, List.mem_append] at h ⊢
  rcases h with ((hparam | hbound) | hfree) | hvars
  · exact .inl (.inl (.inl (.inl hparam)))
  · exact (hcontext.bound_mono (fun _ => Expr.bound_bindArg) name hbound).imp_left
      fun hn => .inl (.inl (.inr hn))
  · exact (hcontext.free_mono (fun _ => Expr.free_bindArg) name hfree).imp_left
      fun hn => .inl (.inr hn)
  · exact (hcontext.vars_mono (fun _ => Expr.vars_bindArg) name hvars).imp_left .inr

private theorem Ungenerated.liftArg (h : function.Ungenerated) (hcontext : Expr.Context context)
    (hbody : function.body = context (.call note callee (before ++ arg :: after)))
    (hplain : ¬IsGenerated fresh) :
    (function.liftArg interface context note callee fresh before arg after).Ungenerated := by
  intro name hname
  rcases mem_names_liftArg interface hcontext hbody hname with hold | rfl
  · exact h name hold
  · exact hplain

private theorem Ungenerated.alike_liftArg (h : function.Ungenerated)
    (hcontext : Expr.Context context)
    (hbody : function.body = context (.call note callee (before ++ arg :: after)))
    (htrivial : Expr.areTrivial before = true) (hcomputes : arg.isTrivial = false)
    (hnew : fresh ∉ function.names) :
    letI := OwnNames.ofSecret fresh
    function.Alike (.lifting interface fresh)
      (function.liftArg interface context note callee fresh before arg after) := by
  let := OwnNames.ofSecret fresh
  have hplain : ∀ name ∈ function.names, ¬Secret name := fun name hn hsecret =>
    hsecret.elim (h name hn) fun heq => hnew (heq ▸ hn)
  have hglobals : ∀ name ∈ function.globals, ¬Own name ∧ ¬Secret name := by
    intro name hn
    have hmem : name ∈ function.names := by simp [names, (List.mem_filter.mp hn).1]
    exact ⟨fun hown => hplain name hmem (hown.imp_right And.left), hplain name hmem⟩
  have hparams : ∀ name ∈ function.params, ¬Secret name := fun name hn =>
    hplain name (by simp [names, Function.binders, hn])
  have hsettles := Function.settles hglobals hplain
  rw [hbody] at hsettles
  refine ⟨rfl, rfl, .self _, rfl, hparams, hparams, ?_⟩
  rw [hbody]
  refine hcontext.alike (fun _ hgood => hgood) (fun hplace => ?_) hsettles
  simp only [Expr.free, Expr.vars, Expr.freeAll_append, Expr.varsAll_append, Expr.freeAll,
    Expr.varsAll] at hplace
  refine .replace (.call note callee htrivial hcomputes ?_ ?_ ?_)
  · refine Expr.alikeAll_self .none (fun _ hgood => hgood) before (hplace.part ?_ ?_)
    all_goals simp
  · refine Expr.alike_self .none (fun _ hgood => hgood) arg (hplace.part ?_ ?_)
    all_goals simp
  · refine Expr.alikeAll_self .none (fun _ hgood => hgood) after (hplace.part ?_ ?_)
    all_goals simp

end Function

namespace Compilation

variable {options : CompileOptions} {interface : Interface} {before after : List Definition}
  {function : Function} {context : Expr → Expr} {note : Note} {callee : String}

theorem liftArg_standsFor (hcontext : Expr.Context context) {done rest : List Expr}
    {arg : Expr} (hbody : function.body = context (.call note callee (done ++ arg :: rest)))
    (hothers : ∀ other, .function other ∈ before ++ after → other.Ungenerated)
    (hfunction : function.Ungenerated) (hdone : Expr.areTrivial done = true)
    (hcomputes : arg.isTrivial = false) {fresh : String} (hnew : fresh ∉ function.names)
    (hplain : ¬IsGenerated fresh) :
    StandsFor options interface before after
      (function.liftArg interface context note callee fresh done arg rest) function := by
  let := OwnNames.ofSecret fresh
  have halike := hfunction.alike_liftArg interface hcontext hbody hdone hcomputes hnew
  have hfit : Own fresh ∨ fresh = Routine.resultParam :=
    (Decidable.em (fresh = Routine.resultParam)).symm.imp_left fun hne => .inr ⟨rfl, hne⟩
  exact .of_alike halike (ExprRules.lifting_sound interface (.inr rfl) hplain hfit)
    (fun _ _ _ _ _ _ => trivial) hothers hfunction.binders
    (hfunction.liftArg interface hcontext hbody hplain).binders

private theorem sequenced_standsFor {names : List String} {done args : List Expr}
    (hcontext : Expr.Context context)
    (hbody : function.body = context (.call note callee (done ++ args)))
    (hothers : ∀ other, .function other ∈ before ++ after → other.Ungenerated)
    (hfunction : function.Ungenerated) (hdone : Expr.areTrivial done = true) (hnodup : names.Nodup)
    (hnames : ∀ name ∈ names, name ∉ function.names ∧ ¬IsGenerated name) :
    StandsFor options interface before after
      { function with body := context (.sequenced interface note callee names done args) }
      function := by
  induction args generalizing function context names done with
  | nil =>
    cases names with
    | nil => exact .of_body hbody
    | cons fresh names => exact .of_body hbody
  | cons arg rest ih =>
    cases names with
    | nil => exact .of_body hbody
    | cons fresh names =>
      rw [Expr.sequenced]
      split
      · rename_i htrivial
        refine ih hcontext (by simpa using hbody) hfunction ?_ hnodup hnames
        rw [Expr.areTrivial_concat, hdone, htrivial]
        rfl
      · rename_i hcomputes
        obtain ⟨⟨hnew, hplain⟩, hlater⟩ := List.forall_mem_cons.mp hnames
        obtain ⟨hfresh, hrest⟩ := List.nodup_cons.mp hnodup
        -- The call that is left stands in the body of the new binding.
        have hinner : Expr.Context fun body => context (.bindArg interface note fresh arg body) :=
          hcontext.comp (.bindBody note _ arg .hole)
        have hlifted := hfunction.liftArg interface hcontext hbody hplain
        have hothersNew : ∀ name ∈ names, name ∉ (function.liftArg interface context note callee
            fresh done arg rest).names ∧ ¬IsGenerated name := by
          intro name hname
          obtain ⟨hout, hplainName⟩ := hlater name hname
          refine ⟨fun hmem => ?_, hplainName⟩
          rcases Function.mem_names_liftArg interface hcontext hbody hmem with hold | rfl
          · exact hout hold
          · exact hfresh hname
        have hdoneNext : Expr.areTrivial (done ++ [.argName interface fresh arg]) = true := by
          rw [Expr.areTrivial_concat, hdone]
          rfl
        have hstep : StandsFor options interface before after _ function :=
          liftArg_standsFor hcontext hbody hothers hfunction hdone (Bool.eq_false_iff.mpr hcomputes)
            hnew hplain
        exact (ih hinner (by simp [Function.liftArg]) hlifted hdoneNext hrest hothersNew).trans hstep

/-- The arguments of a call that compute are evaluated from left to right, and the trivial ones are read
after them: the same definitions compile if the arguments that compute are bound to new names in their
order before the call, and every call does the same. -/
theorem sequenced_args_run_alike (options : CompileOptions) (interface : Interface)
    (before after : List Definition) (function : Function) {context : Expr → Expr}
    (hcontext : Expr.Context context) (note : Note) (callee : String) (args : List Expr)
    (hbody : function.body = context (.call note callee args))
    (hungenerated : ∀ other, .function other ∈ before ++ .function function :: after →
      other.Ungenerated)
    {names : List String} (hnodup : names.Nodup)
    (hnames : ∀ name ∈ names, name ∉ function.names ∧ ¬IsGenerated name)
    (hsuccess : (ofDefinitions options interface
      (before ++ .function function :: after)).isSuccess = true) :
    let sequenced := before ++ .function { function with
      body := context (.sequenced interface note callee names [] args) } :: after
    (ofDefinitions options interface sequenced).isSuccess = true ∧
      (ofDefinitions options interface (before ++ .function function :: after)).program.RunAlike
        (ofDefinitions options interface sequenced).program :=
  sequenced_standsFor hcontext hbody (fun other hm => hungenerated other (by grind))
    (hungenerated function (by simp)) rfl hnodup hnames hsuccess

end Compilation

def Expr.number (key : String) : Expr := .name ⟨.int, .generated⟩ key

def Function.bumping : Function where
  name := "bump"
  params := []
  body := .block ⟨.int, .generated⟩
    [.assign ⟨.unit, .generated⟩ (.name "R") (.lit ⟨.int, .generated⟩ (.num 5)), .number "R"]

def Expr.bumped : Expr := .call ⟨.int, .generated⟩ "bump" []

def Function.subtracting (body : Expr) : Function where
  name := "use"
  params := []
  body

def Declarations.bumping : Declarations :=
  (((({} : Declarations).addRegister "R" .int).addFunction "sub_int" [.int, .int] .int).addFunction
    "bump" [] .int).addFunction "use" [] .int

/-- The register, the function that changes it and one that uses both. -/
def Compilation.subtracting (body : Expr) : Compilation :=
  ofDefinitions {} Declarations.bumping.interface
    ([.register "R" .int, .function .bumping] ++ .function (.subtracting body) :: [])

def Compilation.subtract? (body : Expr) : Option Int :=
  match ((Machine.ofProgram (subtracting body).program 100).call "use" []).1 with
  | .ok (.int value) => some value
  | _ => none

namespace Compilation

/-- The register minus what the other function gives: that is bound first, and the register is read
after it. -/
theorem subtraction_runs_alike :
    let call := Expr.call ⟨.int, .generated⟩ "sub_int" [.number "R", .bumped]
    let sequenced := Expr.bind ⟨.int, .generated⟩ (.typed .int "t") .bumped
      (.call ⟨.int, .generated⟩ "sub_int" [.number "R", .number "t"])
    (subtracting call).isSuccess = true ∧ (subtracting sequenced).isSuccess = true ∧
      (subtracting call).program.RunAlike (subtracting sequenced).program := by
  intro call sequenced
  have hsuccess : (subtracting call).isSuccess = true := by decide +kernel
  have hbumping : Function.bumping.Ungenerated :=
    Function.ungenerated_of_unmarked (by decide +kernel)
  have hsubtracting : (Function.subtracting call).Ungenerated :=
    Function.ungenerated_of_unmarked (by decide +kernel)
  have hnames : ∀ name ∈ ["t"], name ∉ (Function.subtracting call).names ∧ ¬IsGenerated name :=
    List.forall_mem_singleton.mpr ⟨by decide +kernel, FreshNames.not_isGenerated (by decide)⟩
  have halike := sequenced_args_run_alike {} Declarations.bumping.interface
    [.register "R" .int, .function .bumping] [] (.subtracting call) .hole ⟨.int, .generated⟩ "sub_int"
    [.number "R", .bumped] rfl (by simp [hbumping, hsubtracting]) (by decide) hnames hsuccess
  exact ⟨hsuccess, halike⟩

/-- If the register is bound as well, it is read before it is changed, and the result is another. -/
theorem subtraction_reads_late :
    let call := Expr.call ⟨.int, .generated⟩ "sub_int" [.number "R", .bumped]
    let bound := Expr.bind ⟨.int, .generated⟩ (.typed .int "t") (.number "R")
      (.bind ⟨.int, .generated⟩ (.typed .int "u") .bumped
        (.call ⟨.int, .generated⟩ "sub_int" [.number "t", .number "u"]))
    (subtracting call).isSuccess = true ∧ (subtracting bound).isSuccess = true ∧
      subtract? call = some 0 ∧ subtract? bound = some (-5) := by
  decide +kernel

end Compilation

end IsaBackend
