import IsaBackend.Proofs.Meaning.Hosts

/-!
# The meaning of operands

An atom means a function from the values of the names in scope to a value, if it becomes an operand
with this value wherever these names are locals. An operand goes to storage of its representation
or of a wider one, by a plain store, a conversion or a local of its own.
-/

namespace IsaBackend

open Staging StagingState

/-- Whether a value of a representation can go to storage of another without a loss. -/
def Rep.Widens (rep target : Rep) : Prop := rep = target ∨ rep = .machInt ∧ target = .bigInt

namespace Rep

theorem bridge?_self (rep : Rep) : rep.bridge? rep = some .identity := by
  cases rep <;> simp [bridge?, compatible]

theorem Widens.trans {rep middle target : Rep} (h : rep.Widens middle)
    (hnext : middle.Widens target) : rep.Widens target := by
  rcases h with rfl | ⟨rfl, rfl⟩
  · exact hnext
  · rcases hnext with rfl | ⟨hrep, _⟩
    · exact .inr ⟨rfl, rfl⟩
    · cases hrep

/-- Only machine integers go to storage of another representation. -/
theorem Widens.eq_of_ne {rep target : Rep} (h : rep.Widens target) (hne : rep ≠ .machInt) :
    target = rep := by
  rcases h with rfl | ⟨heq, _⟩
  · rfl
  · exact absurd heq hne

theorem Widens.conform {rep target : Rep} (h : rep.Widens target) {value : Value}
    (hvalue : rep.conform value = .ok value) : target.conform value = .ok value := by
  rcases h with rfl | ⟨rfl, rfl⟩
  · exact hvalue
  · cases value with
    | int number => rfl
    | _ => cases hvalue

end Rep

namespace Instr

theorem moves_store (dest : Place) (operand : Operand) :
    (Instr.store dest operand).Moves dest operand := by
  unfold Instr.store
  split
  · exact .inr (.inl rfl)
  · exact .inr (.inr rfl)

theorem transfer_of_widens (dest : Place) {operand : Operand}
    (h : operand.rep.Widens dest.rep) (context : String) :
    ∃ instr, transfer dest operand context = .ok instr ∧ instr.Moves dest operand := by
  unfold transfer
  rcases h with heq | ⟨hrep, hdest⟩
  · rw [heq, Rep.bridge?_self]
    exact ⟨_, rfl, moves_store dest operand⟩
  · rw [hrep, hdest]
    exact ⟨_, rfl, .inl rfl⟩

theorem Runs.declare {good : Callees → Prop} {rest : List Instr} {frame : Frame}
    {post : Flow → Frame → Prop} {decl : Instr} {name : String} {rep : Rep}
    (hdecl : DeclaredBy decl name rep)
    (h : ∀ next, frame.Updated name rep.initial next → Runs good rest next post) :
    Runs good (decl :: rest) frame post := by
  rcases hdecl with rfl | rfl
  · exact Runs.decl h
  · exact Runs.alloc h

end Instr

/-- Code that does nothing but release names other than those to be kept. -/
def Instr.ReleasesBut (kept : String → Prop) (cleanup : List Instr) : Prop :=
  ∀ instr ∈ cleanup, ∃ rep name, instr = .release rep name ∧ ¬kept name

theorem Instr.releasesBut_releaseOf {kept : String → Prop} {name : String} (h : ¬kept name)
    (rep : Rep) : Instr.ReleasesBut kept (Instr.releaseOf name rep) := by
  unfold Instr.releaseOf
  split
  · exact fun _ hnil => absurd hnil List.not_mem_nil
  · exact List.forall_mem_singleton.mpr ⟨rep, name, rfl, h⟩

namespace Instr.Runs

variable {good : Callees → Prop} {rest cleanup : List Instr} {frame : Frame}
  {post : Flow → Frame → Prop}

theorem releases {kept : String → Prop}
    (hcleanup : Instr.ReleasesBut kept cleanup)
    (h : ∀ last : Frame, (∀ key, kept key → last.get? key = frame.get? key) →
      Runs good rest last post) :
    Runs good (cleanup ++ rest) frame post := by
  induction cleanup generalizing frame with
  | nil => exact h frame fun _ _ => rfl
  | cons instr cleanup ih =>
    obtain ⟨⟨rep, name, rfl, hname⟩, hrest⟩ := List.forall_mem_cons.mp hcleanup
    refine Runs.release fun next hnext => ih hrest fun last hlast => h last fun key hkey => ?_
    rw [hlast key hkey, hnext key]
    rintro rfl
    exact hname hkey

end Instr.Runs

/-- An atom becomes an operand without any code. -/
structure Atom.Means (around : Surroundings) (reps : LocalReps) (atom : Atom) (rep : Rep)
    (meaning : Valuation → Value) : Prop where
  fits : ∀ values : Valuation, values.Fits reps →
    rep.conform (meaning values) = .ok (meaning values)
  loads : ∀ base state, state.Hosts base reps → ∃ operand : Operand,
    load around atom state = .ok { value := operand } state ∧ operand.rep = rep ∧
      (∀ name ∈ operand.names, name ∈ state.declared) ∧
      ∀ (values : Valuation) (frame : Frame), frame.Agrees state reps values →
        frame.Shows operand (meaning values)

section Rules

variable {around : Surroundings} {base : Nat} {reps : LocalReps}

namespace Atom

theorem means_num {number : Int} (hfits : fitsWord number = true) {ty : Ty} {rep : Rep}
    (hty : Rep.ofTy around .generated ty = .ok rep) :
    (Atom.lit (.num number) ty).Means around reps .machInt fun _ => .int number where
  fits := by
    intro values _
    simp only [Rep.conform, hfits, if_true]
  loads := by
    intro base state _
    refine ⟨.inline (.int number) .machInt, ?_, rfl, fun name hn => absurd hn List.not_mem_nil,
      fun _ _ _ => rfl⟩
    have hrep : repOf around ty state = .ok rep state := by
      unfold repOf
      rw [hty]
      rfl
    simp only [load]
    rw [bind_of_ok hrep]
    simp only [loadLiteral, hfits, if_true]
    rfl

theorem means_name {name : String} {rep : Rep} (hrep : reps name = some rep) (cls : NameClass)
    (ty : Ty) : (Atom.name name cls ty).Means around reps rep fun values => values name where
  fits := fun values hfits => hfits name rep hrep
  loads := by
    intro base state hhosts
    obtain ⟨codeName, hlocal, hdeclared⟩ := hhosts.locals name rep hrep
    refine ⟨.name codeName rep, ?_, rfl, List.forall_mem_singleton.mpr hdeclared, ?_⟩
    · simp only [load, loadName]
      rw [bind_of_ok (get_apply state)]
      simp only [hlocal]
      rfl
    · intro values frame hagrees
      exact hagrees.locals name rep hrep _ hlocal

theorem Means.weaken {atom : Atom} {rep : Rep} {meaning : Valuation → Value} {more : LocalReps}
    (h : atom.Means around reps rep meaning) (hmore : reps.Within more) :
    atom.Means around more rep meaning where
  fits := fun values hfits => h.fits values (hfits.weaken hmore)
  loads := by
    intro base state hhosts
    obtain ⟨operand, hload, hrep, hnames, hshows⟩ := h.loads base state (hhosts.weaken hmore)
    exact ⟨operand, hload, hrep, hnames, fun values frame hagrees =>
      hshows values frame (hagrees.weaken hmore)⟩

theorem Means.load_gives {atom : Atom} {rep : Rep} {meaning : Valuation → Value}
    (h : atom.Means around reps rep meaning) {state : StagingState}
    (hhosts : state.Hosts base reps) :
    Gives (load around atom) state fun loaded after => ∃ operand : Operand,
      loaded = { value := operand } ∧ state = after ∧ operand.rep = rep ∧
      (∀ name ∈ operand.names, name ∈ state.declared) ∧
      ∀ (values : Valuation) (frame : Frame), frame.Agrees state reps values →
        frame.Shows operand (meaning values) := by
  obtain ⟨operand, hload, hrep, hnames, hshows⟩ := h.loads base state hhosts
  exact ⟨_, _, hload, operand, rfl, rfl, hrep, hnames, hshows⟩

end Atom

/-- The atoms of a call have the representations of the parameters or narrower ones. -/
inductive Atom.MeansAll (around : Surroundings) (reps : LocalReps) :
    List Atom → List Rep → (Valuation → List Value) → Prop
  | nil : MeansAll around reps [] [] fun _ => []
  | cons {arg : Atom} {args : List Atom} {rep param : Rep} {params : List Rep}
      {value : Valuation → Value} {rest : Valuation → List Value}
      (harg : arg.Means around reps rep value) (hwide : rep.Widens param)
      (hrest : MeansAll around reps args params rest) :
      MeansAll around reps (arg :: args) (param :: params) fun values => value values :: rest values

def Rep.ConformAll : List Rep → List Value → Prop
  | [], [] => True
  | rep :: reps, value :: values => rep.conform value = .ok value ∧ ConformAll reps values
  | _, _ => False

theorem Atom.MeansAll.fits {args : List Atom} {params : List Rep}
    {meaning : Valuation → List Value} (h : Atom.MeansAll around reps args params meaning)
    {values : Valuation} (hfits : values.Fits reps) : Rep.ConformAll params (meaning values) := by
  induction h with
  | nil => exact trivial
  | cons harg hwide _ ih => exact ⟨hwide.conform (harg.fits values hfits), ih⟩

theorem Atom.MeansAll.length_eq {args : List Atom} {params : List Rep}
    {meaning : Valuation → List Value} (h : Atom.MeansAll around reps args params meaning) :
    params.length = args.length := by
  induction h with
  | nil => rfl
  | cons _ _ _ ih => simp [ih]

namespace Staging

variable {state : StagingState}

theorem storeAtom_gives (dest : Place) {atom : Atom} {rep : Rep} {value : Valuation → Value}
    (h : atom.Means around reps rep value) (hwide : rep.Widens dest.rep)
    (hhosts : state.Hosts base reps) (context : String) :
    Gives (storeAtom around dest atom context) state fun code after =>
      state = after ∧ ∃ instr operand, code = [instr] ∧ instr.Moves dest operand ∧
        ∀ (values : Valuation) (frame : Frame), frame.Agrees state reps values →
          frame.Reads operand (value values) := by
  refine (h.load_gives hhosts).bind ?_
  rintro _ _ ⟨operand, rfl, rfl, hrep, _, hshows⟩
  obtain ⟨instr, htransfer, hmoves⟩ := Instr.transfer_of_widens dest (hrep ▸ hwide) context
  refine (Gives.lift htransfer).bind ?_
  rintro _ _ ⟨rfl, rfl⟩
  have hsettle : Gives (settle []) state fun _ after => state = after := ⟨(), _, rfl, rfl⟩
  refine hsettle.bind ?_
  rintro _ _ rfl
  exact .pure ⟨rfl, instr, operand, rfl, hmoves, fun values frame hagrees =>
    (hshows values frame hagrees).reads⟩

variable (good : Callees → Prop)

/-- An argument is passed as it is, or in a local of its own that is released after the call. -/
theorem loadArg_gives {arg : Atom} {rep param : Rep} {value : Valuation → Value}
    (h : arg.Means around reps rep value) (hwide : rep.Widens param)
    (hhosts : state.Hosts base reps) (callee : String) (index : Nat) :
    Gives (loadArg around callee index arg param) state fun loaded after =>
      after.Sane base ∧ state.Leads after ∧
      Instr.ReleasesBut (· ∈ state.declared) loaded.cleanup ∧
      (∀ name ∈ loaded.value.names, name ∈ after.declared) ∧
      ∀ (values : Valuation) (frame : Frame) (rest : List Instr) (post : Flow → Frame → Prop),
        values.Fits reps → frame.Agrees state reps values →
        (∀ last : Frame, frame.SameOn state last → last.Shows loaded.value (value values) →
          Instr.Runs good rest last post) →
        Instr.Runs good (loaded.setup ++ rest) frame post := by
  refine (h.load_gives hhosts).bind ?_
  rintro _ _ ⟨operand, rfl, rfl, hrep, hnames, hshows⟩
  rcases hwide with rfl | ⟨rfl, rfl⟩
  · have hbridge : operand.rep.bridge? rep = some .identity := hrep ▸ Rep.bridge?_self operand.rep
    simp only [hbridge]
    refine .pure ⟨hhosts.toSane, .refl state, fun _ hnil => absurd hnil List.not_mem_nil, hnames,
      ?_⟩
    intro values frame rest post _ hagrees hrest
    exact hrest frame .refl (hshows values frame hagrees)
  · have hbridge : operand.rep.bridge? .bigInt = some .promote := by
      rw [hrep]
      rfl
    simp only [hbridge]
    refine (tempFrom_gives hhosts.toSane .bigInt operand).bind ?_
    rintro ⟨temp, _⟩ after ⟨hsane, hadds, rfl⟩
    have hreleases : Instr.ReleasesBut (· ∈ state.declared)
        (Instr.releaseOf temp .bigInt ++ []) := by
      rw [List.append_nil]
      exact Instr.releasesBut_releaseOf hadds.new .bigInt
    refine .pure ⟨hsane, hadds.leads, hreleases,
      List.forall_mem_singleton.mpr hadds.declared, ?_⟩
    intro values frame rest post hfits hagrees hrest
    have hvalue := h.fits values hfits
    have hinit : Exec.initialiser .bigInt (value values) = .ok (value values) := by
      cases hcase : value values with
      | int number => rfl
      | _ =>
        rw [hcase] at hvalue
        cases hvalue
    refine Instr.Runs.init (hshows values frame hagrees).reads hinit
      (Rep.Widens.conform (.inr ⟨rfl, rfl⟩) hvalue) fun last hlast => ?_
    exact hrest last (hlast.sameOn hadds) hlast.holds

theorem loadArgs_gives {args : List Atom} {params : List Rep} {meaning : Valuation → List Value}
    (h : Atom.MeansAll around reps args params meaning) (hhosts : state.Hosts base reps)
    (callee : String) (index : Nat) :
    Gives (loadArgs around callee index args params) state fun (setup, operands, cleanup) after =>
      after.Sane base ∧ state.Leads after ∧
      Instr.ReleasesBut (· ∈ state.declared) cleanup ∧
      ∀ (values : Valuation) (frame : Frame) (rest : List Instr) (post : Flow → Frame → Prop),
        values.Fits reps → frame.Agrees state reps values →
        (∀ last : Frame, frame.SameOn state last →
          last.Answers (fun program act => act.evalAll program operands) (meaning values) →
          Instr.Runs good rest last post) →
        Instr.Runs good (setup ++ rest) frame post := by
  induction h generalizing state index with
  | nil =>
    refine .pure ⟨hhosts.toSane, .refl state, fun _ hnil => absurd hnil List.not_mem_nil, ?_⟩
    intro values frame rest post _ _ hrest
    exact hrest frame .refl Frame.answers_evalAll_nil
  | cons harg hwide hmore ih =>
    refine (loadArg_gives good harg hwide hhosts callee index).bind ?_
    rintro loaded middle ⟨hmiddle, hleads, hreleases, hnames, hruns⟩
    refine (ih (hhosts.lead hleads hmiddle) (index + 1)).bind ?_
    rintro ⟨setup, operands, cleanup⟩ after ⟨hafter, hmoreLeads, hmoreReleases, hmoreRuns⟩
    refine .pure ⟨hafter, hleads.trans hmoreLeads, ?_, ?_⟩
    · intro instr hinstr
      rcases List.mem_append.mp hinstr with hinstr | hinstr
      · obtain ⟨rep, name, rfl, hname⟩ := hmoreReleases instr hinstr
        exact ⟨rep, name, rfl, fun hmem => hname (hleads.declared name hmem)⟩
      · exact hreleases instr hinstr
    · intro values frame rest post hfits hagrees hrest
      rw [List.append_assoc]
      refine hruns values frame _ post hfits hagrees fun ready hready hshown => ?_
      refine hmoreRuns values ready rest post hfits (hagrees.lead hhosts hleads hready)
        fun last hlast hmoreRead => ?_
      have hkept := hshown.of_same fun name hname => hlast name (hnames name hname)
      exact hrest last (hready.trans hleads hlast) (hkept.reads.evalAll_cons hmoreRead)

end Staging

end Rules

end IsaBackend
