import IsaBackend.Proofs.Compilation.Arguments

/-!
# Casts

The representation that a context asks for goes through a cast to what is cast. So a cast has no effect
in a binding with a type, an assignment, a branch or a result, whatever its type is: the code is the
same without it. Nothing is asked for in an argument, and there what is cast is bound to a name of the
cast's type first.
-/

namespace IsaBackend

open FreshNames (IsGenerated)

namespace Term

/-- A term without the casts around it. -/
def bare : Term → Term
  | .cast inner _ => inner.bare
  | term => term

mutual

/-- A term without the casts in it whose type does not matter. The type of a statement or of the body of
a loop matters, because its value goes to a local of that type. -/
def uncast : Term → Term
  | .cast inner ty => .cast inner.uncast.bare ty
  | .assign target ty value => .assign target ty value.uncast.bare
  | .bind name ty init body bodyTy => .bind name ty init.uncast.bare body.uncast.bare bodyTy
  | .block stmts last ty => .block (uncastAll stmts) last.uncast.bare ty
  | .cond test onTrue onFalse ty => .cond test onTrue.uncast.bare onFalse.uncast.bare ty
  | .count var first last step direction body => .count var first last step direction body.uncast
  | .loop kind test body => .loop kind test.uncast.bare body.uncast
  | term => term

def uncastAll : List Term → List Term
  | [] => []
  | term :: rest => term.uncast :: uncastAll rest

end

private theorem uncast_ty (term : Term) : term.uncast.ty = term.ty := by
  cases term <;> rfl

private theorem bare_bare (term : Term) : term.bare.bare = term.bare := by
  fun_induction bare term with
  | case1 inner ty ih => exact ih
  | case2 term hcast => rw [bare.eq_2 term hcast]

end Term

namespace Staging

variable (around : Surroundings) (want : Rep × String)

/-- A cast is staged in the representation that is asked for, not in its own. -/
theorem stage_bare (term : Term) :
    stage around (some want) term.bare = stage around (some want) term := by
  fun_induction Term.bare term with
  | case1 inner ty ih => rw [ih, stage]
  | case2 term _ => rfl

mutual

private theorem stage_uncast : ∀ (want : Rep × String) (term : Term),
    stage around (some want) term.uncast = stage around (some want) term
  | want, .cast inner ty => by
    simp only [Term.uncast, stage, stage_bare, stage_uncast _ inner]
  | want, .assign target ty value => by
    simp only [Term.uncast, stage, stage_bare, stage_uncast _ value]
  | want, .bind name ty init body bodyTy => by
    simp only [Term.uncast, stage, stage_bare, stage_uncast _ init, stage_uncast _ body]
  | want, .block stmts last ty => by
    simp only [Term.uncast, stage, stage_bare, stageAll_uncast stmts, stage_uncast _ last]
  | want, .cond test onTrue onFalse ty => by
    simp only [Term.uncast, stage, stageCond, stage_bare, stage_uncast _ onTrue,
      stage_uncast _ onFalse]
  | want, .count var first last step direction body => by
    simp only [Term.uncast, stage, stageCount, discard, stage_uncast _ body, Term.uncast_ty]
  | want, .loop kind test body => by
    simp only [Term.uncast, stage, stageLoop, discard, stage_bare, stage_uncast _ test,
      stage_uncast _ body, Term.uncast_ty]
  | _, .atom _ | _, .call _ _ _ | _, .ret _ _ | _, .field _ _ _ | _, .update _ _ _ => rfl

theorem stageAll_uncast : ∀ terms : List Term,
    stageAll around (Term.uncastAll terms) = stageAll around terms
  | [] => rfl
  | term :: rest => by
    simp only [Term.uncastAll, stageAll, discard, stage_uncast _ term, stageAll_uncast rest,
      Term.uncast_ty]

end

end Staging

/-- What staging for a result depends on in an A-normal form. -/
def CompileOptions.essence (options : CompileOptions) (around : Surroundings) (term : Term) : Term :=
  (options.prepare around term).uncast.bare

private theorem CompileOptions.essence_bind (options : CompileOptions) (around : Surroundings)
    (name : String) {ty : Ty} {init : Term} (body : Term) (castTy bodyTy : Ty)
    (h : options.fuse = true → Term.boundConstant? ty (init.fuse around) = none) :
    options.essence around (.bind name ty (.cast init castTy) body bodyTy) =
      options.essence around (.bind name ty init body bodyTy) := by
  unfold essence prepare
  split
  · rename_i hfuse
    have hcast : Term.boundConstant? ty (.cast (init.fuseIn around ∅) castTy) =
        Term.boundConstant? ty (init.fuseIn around ∅) := (h hfuse).symm
    simp only [Term.fuse, Term.fuseIn, hcast, Term.uncast, Term.bare, Term.bare_bare]
  · simp only [Term.uncast, Term.bare, Term.bare_bare]

namespace Function

variable (options : CompileOptions) (around : Surroundings)

private theorem emit_uncast (name : String) (params : List (String × Rep)) (result : Rep)
    (term : Term) :
    emit around name params result term.uncast.bare = emit around name params result term := by
  funext names
  simp only [emit, Staging.stageFunction, Staging.stage_bare, Staging.stage_uncast]

private theorem compile_eq_of_essence (function : Function) {body other : Expr}
    (h : options.essence around <$> Term.ofExpr around.interface body =
      options.essence around <$> Term.ofExpr around.interface other) :
    { function with body }.compile options around =
      { function with body := other }.compile options around := by
  have hflatten : ∀ params, options.essence around <$> flatten around.interface params body =
      options.essence around <$> flatten around.interface params other := by
    intro params
    funext names
    have hforms := congrFun h ⟨scope params, names⟩
    change EStateM.map _ _ _ = EStateM.map _ _ _ at hforms ⊢
    unfold EStateM.map scope at hforms
    unfold EStateM.map flatten
    split at hforms <;> split at hforms <;> simp_all
  -- What comes after the A-normal form depends on its essence only.
  have hrest : ∀ name params reps result (next : Routine → EStateM CompileError FreshNames Routine)
      (body : Expr), (flatten around.interface params body >>= fun term =>
          emit around name reps result (options.prepare around term) >>= next) =
        (options.essence around <$> flatten around.interface params body) >>= fun term =>
          emit around name reps result term >>= next := by
    intro name params reps result next body
    simp only [bind_map_left, CompileOptions.essence, emit_uncast]
  unfold compile
  cases around.interface.signature function.name with
  | none => rfl
  | some signature =>
    dsimp only
    split
    · rfl
    · refine bind_congr fun reps => bind_congr fun result => ?_
      exact (hrest _ _ _ _ _ body).trans ((congrArg (· >>= _) (hflatten _)).trans
        (hrest _ _ _ _ _ other).symm)

end Function

namespace Expr

/-- An expression whose A-normal form is never fused to a constant of a type. -/
def NeverConstant (interface : Interface) (ty : Ty) (expr : Expr) : Prop :=
  ∀ state term final, Term.ofExpr interface expr state = .ok term final →
    ∀ layouts, Term.boundConstant? ty (term.fuse ⟨layouts, interface⟩) = none

variable {options : CompileOptions} {layouts : Layouts} {interface : Interface} {expr : Expr}

private theorem essence_bindCast {ty : Ty}
    (h : options.fuse = true → expr.NeverConstant interface ty)
    (note castNote : Note) (castTy : Ty) (name : String) (body : Expr) :
    options.essence ⟨layouts, interface⟩ <$> Term.ofExpr interface
        (.bind note (.typed ty name) (.cast castNote castTy expr) body) =
      options.essence ⟨layouts, interface⟩ <$> Term.ofExpr interface
        (.bind note (.typed ty name) expr body) := by
  simp only [Term.ofExpr, Term.ofPattern, pure_bind, bind_assoc, map_bind, map_pure]
  funext state
  change EStateM.bind _ _ _ = EStateM.bind _ _ _
  unfold EStateM.bind
  cases hexpr : Term.ofExpr interface expr state with
  | error => rfl
  | ok init middle =>
    simp only [CompileOptions.essence_bind options _ name _ castTy _ fun hfuse =>
      h hfuse state init middle hexpr layouts]

end Expr

namespace Compilation

/-- Two versions of a function that compile to the same code give the same program. -/
theorem ofDefinitions_congr {options : CompileOptions} {interface : Interface}
    {before after : List Definition} {function twin : Function}
    (h : ∀ layouts, function.compile options ⟨layouts, interface⟩ =
      twin.compile options ⟨layouts, interface⟩) :
    ofDefinitions options interface (before ++ .function function :: after) =
      ofDefinitions options interface (before ++ .function twin :: after) := by
  have hfrom : ∀ progress,
      compileFrom options interface progress (before ++ .function function :: after) =
        compileFrom options interface progress (before ++ .function twin :: after) := by
    induction before with
    | nil =>
      intro progress
      simp only [List.nil_append, compileFrom, Definition.compile, h]
    | cons definition before ih =>
      intro progress
      simp only [List.cons_append, compileFrom, ih]
  simp only [ofDefinitions, hfrom]

/-- A cast yields to what its context asks for. The code of any A-normal form is that of the form
without the casts in its bindings, assignments, branches and results; so a program is the same without a
cast that is bound to a name of some type. An argument that is cast is converted: every call does the
same if what is cast is bound to a new name of the cast's type before. -/
theorem casts_count_as_arguments (options : CompileOptions) (interface : Interface)
    (before after : List Definition) (function : Function) (note : Note) (ty : Ty) (expr : Expr) :
    let program (body : Expr) :=
      ofDefinitions options interface (before ++ .function { function with body } :: after)
    (∀ layouts name params result term,
      Function.emit ⟨layouts, interface⟩ name params result term =
        Function.emit ⟨layouts, interface⟩ name params result term.uncast.bare) ∧
    (∀ outer target name body, (options.fuse = true → expr.NeverConstant interface target) →
      program (.bind outer (.typed target name) (.cast note ty expr) body) =
        program (.bind outer (.typed target name) expr body)) ∧
    (∀ outer callee done rest fresh,
      let call := Expr.call outer callee (done ++ .cast note ty expr :: rest)
      let bound := Expr.bind outer (.typed ty fresh) expr
        (.call outer callee (done ++ .name ⟨ty, note.pos⟩ fresh :: rest))
      (∀ other, .function other ∈ before ++ .function { function with body := call } :: after →
        other.Ungenerated) →
      Expr.areTrivial done = true → fresh ∉ { function with body := call }.names →
      ¬IsGenerated fresh → (options.fuse = true → expr.NeverConstant interface ty) →
      (program call).isSuccess = true →
        (program bound).isSuccess = true ∧
          (program call).program.RunAlike (program bound).program) := by
  intro program
  have hbind : ∀ outer target name body,
      (options.fuse = true → expr.NeverConstant interface target) →
      program (.bind outer (.typed target name) (.cast note ty expr) body) =
        program (.bind outer (.typed target name) expr body) := by
    intro outer target name body hconstant
    exact ofDefinitions_congr fun layouts => Function.compile_eq_of_essence options
      ⟨layouts, interface⟩ function (Expr.essence_bindCast hconstant outer note ty name body)
  refine ⟨fun _ _ _ _ _ => (Function.emit_uncast _ _ _ _ _).symm, hbind, ?_⟩
  intro outer callee done rest fresh call bound hungenerated hdone hnew hplain hconstant
  have hothers : ∀ other, .function other ∈ before ++ after → other.Ungenerated :=
    fun other hm => hungenerated other (by grind)
  rw [← hbind outer ty fresh _ hconstant]
  exact liftArg_standsFor .hole rfl hothers (hungenerated _ (by simp)) hdone rfl hnew hplain

end Compilation

def Ty.word (width : Nat) : Ty := .bits (.const width) .dec

def Expr.word (width : Nat) (key : String) : Expr := .name ⟨.word width, .generated⟩ key

def Expr.lowByte : Expr := .cast ⟨.word 8, .generated⟩ (.word 8) (.word 32 "w")

def Function.same : Function where
  name := "same"
  params := ["v"]
  body := .word 32 "v"

def Function.narrowing (body : Expr) : Function where
  name := "low"
  params := ["w"]
  body

def Declarations.narrowing : Declarations :=
  (({} : Declarations).addFunction "same" [.word 32] (.word 32)).addFunction "low" [.word 32] (.word 32)

/-- A function that gives its argument, and one that may use it. -/
def Compilation.narrowing (body : Expr) : Compilation :=
  ofDefinitions {} Declarations.narrowing.interface
    ([.function .same] ++ .function (.narrowing body) :: [])

def Compilation.narrow? (body : Expr) : Option Nat :=
  match ((Machine.ofProgram (narrowing body).program 100).call "low" [.bits 0x1234 32]).1 with
  | .ok (.bits value _) => some value
  | _ => none

namespace Compilation

/-- The low byte as a word: bound to a name it is the whole word, as an argument it is a byte. -/
theorem lowByte_counts_as_argument :
    let outer : Note := ⟨.word 32, .generated⟩
    let call := Expr.call outer "same" [.lowByte]
    let bound := Expr.bind outer (.typed (.word 8) "t") (.word 32 "w") (.call outer "same" [.word 8 "t"])
    narrowing (.bind outer (.typed (.word 32) "y") .lowByte (.word 32 "y")) =
        narrowing (.bind outer (.typed (.word 32) "y") (.word 32 "w") (.word 32 "y")) ∧
      (narrowing call).isSuccess = true ∧ (narrowing bound).isSuccess = true ∧
      (narrowing call).program.RunAlike (narrowing bound).program := by
  intro outer call bound
  have hconstant : ∀ ty, (Expr.word 32 "w").NeverConstant Declarations.narrowing.interface ty := by
    intro ty state term final h layouts
    obtain ⟨_, _, _, h⟩ := bind_eq_ok.mp h
    cases h
    rfl
  have hsuccess : (narrowing call).isSuccess = true := by decide +kernel
  have hsame : Function.same.Ungenerated := Function.ungenerated_of_unmarked (by decide +kernel)
  have hcall : (Function.narrowing call).Ungenerated :=
    Function.ungenerated_of_unmarked (by decide +kernel)
  have hplain : ∀ other, Definition.function other ∈
      [.function .same] ++ [.function (.narrowing call)] → other.Ungenerated := by
    simp [hsame, hcall]
  obtain ⟨_, hbound, hargument⟩ := casts_count_as_arguments {} Declarations.narrowing.interface
    [.function .same] [] (.narrowing call) ⟨.word 8, .generated⟩ (.word 8) (.word 32 "w")
  exact ⟨hbound outer _ "y" _ fun _ => hconstant _, hsuccess, hargument outer "same" [] [] "t" hplain
    rfl (by decide +kernel) (FreshNames.not_isGenerated (by decide)) (fun _ => hconstant _) hsuccess⟩

/-- The low byte that is bound to the name of a word keeps the high bits; bound to the name of a byte
first, it loses them. -/
theorem lowByte_keeps_high_bits :
    let outer : Note := ⟨.word 32, .generated⟩
    let cast := Expr.bind outer (.typed (.word 32) "y") .lowByte (.word 32 "y")
    let bound := Expr.bind outer (.typed (.word 8) "t") (.word 32 "w")
      (.bind outer (.typed (.word 32) "y") (.word 8 "t") (.word 32 "y"))
    (narrowing cast).isSuccess = true ∧ (narrowing bound).isSuccess = true ∧
      narrow? cast = some 0x1234 ∧ narrow? bound = some 0x34 := by
  decide +kernel

end Compilation

end IsaBackend
