import IsaBackend.Proofs.Code.Tidy
import IsaBackend.Proofs.Machine.Runs
import IsaBackend.Proofs.Names

/-!
# Matching code

Two pieces of code match if they do the same up to the names that each side has for itself. Which of
the locals of the two sides are the same is carried along. Any other name stands for itself on both
sides.
-/

namespace IsaBackend

/-- The names that each side has for itself, such as the generated ones. What they mean on the other
side does not matter. -/
class OwnNames where
  isOwn : String → Prop
  generated : ∀ number, isOwn (FreshNames.name number)
  /-- Names that the sources of the two sides do not share. -/
  isSecret : String → Prop
  secret : ∀ number, isSecret (FreshNames.name number)
  /-- Results may be returned through the result parameter. -/
  byReference : Prop
  result : byReference → ¬isOwn Routine.resultParam

def Own [OwnNames] (name : String) : Prop := OwnNames.isOwn name

theorem own_name [OwnNames] (number : Nat) : Own (FreshNames.name number) :=
  OwnNames.generated number

/-- A name that the sources of the two sides do not share. -/
def Secret [OwnNames] (name : String) : Prop := OwnNames.isSecret name

theorem secret_name [OwnNames] (number : Nat) : Secret (FreshNames.name number) :=
  OwnNames.secret number

theorem not_own_result [OwnNames] (h : OwnNames.byReference) : ¬Own Routine.resultParam :=
  OwnNames.result h

theorem ne_of_own [OwnNames] {name other : String} (hname : ¬Own name) (hother : Own other) :
    name ≠ other := by
  rintro rfl
  exact hname hother

/-- What is known of the locals of two sides. -/
structure Facts where
  /-- Locals of the left and of the right side that are the same and not released. -/
  ties : List (String × String) := []

namespace Facts

variable {facts more : Facts} {left right : String}

def HasLeft (facts : Facts) (name : String) : Prop := name ∈ facts.ties.map Prod.fst

def HasRight (facts : Facts) (name : String) : Prop := name ∈ facts.ties.map Prod.snd

theorem ne_left_of_tie {name : String} (h : ¬facts.HasLeft name) {entry : String × String}
    (he : entry ∈ facts.ties) : entry.1 ≠ name := by
  rintro rfl
  exact h (List.mem_map_of_mem he)

theorem ne_right_of_tie {name : String} (h : ¬facts.HasRight name) {entry : String × String}
    (he : entry ∈ facts.ties) : entry.2 ≠ name := by
  rintro rfl
  exact h (List.mem_map_of_mem he)

/-- Some facts are among others. -/
def Within (facts more : Facts) : Prop := facts.ties ⊆ more.ties

theorem Within.refl (facts : Facts) : facts.Within facts := fun _ h => h

theorem Within.trans {most : Facts} (h : facts.Within more) (hmore : more.Within most) :
    facts.Within most := List.Subset.trans h hmore

theorem within_empty (facts : Facts) : ({} : Facts).Within facts := List.nil_subset _

/-- A local of each side that is the same as the other. -/
def tie (facts : Facts) (left right : String) : Facts :=
  { ties := (left, right) :: facts.ties }

def join (facts : Facts) (pairs : List (String × String)) : Facts :=
  { ties := pairs ++ facts.ties }

theorem within_join (facts : Facts) (pairs : List (String × String)) :
    facts.Within (facts.join pairs) := List.subset_append_right _ _

theorem within_tie (facts : Facts) (left right : String) : facts.Within (facts.tie left right) :=
  List.subset_cons_self _ _

variable [OwnNames]

/-- Names that mean the same on both sides: tied locals, and names that no side has for itself. -/
def Same (facts : Facts) (left right : String) : Prop :=
  (left, right) ∈ facts.ties ∨ left = right ∧ ¬Own left

theorem Same.mono (h : facts.Same left right) (hmore : facts.Within more) :
    more.Same left right :=
  h.imp_left fun htied => hmore htied

/-- Two names that can be given to a local: each side has its own, or both the same. -/
def Alike (left right : String) : Prop :=
  left = right ∧ ¬Own left ∨ Own left ∧ Own right

theorem Alike.refl (name : String) : Alike name name := by
  by_cases hown : Own name
  · exact .inr ⟨hown, hown⟩
  · exact .inl ⟨rfl, hown⟩

private theorem Alike.symm (h : Alike left right) : Alike right left := by
  rcases h with ⟨rfl, hplain⟩ | ⟨hleft, hright⟩
  · exact .inl ⟨rfl, hplain⟩
  · exact .inr ⟨hright, hleft⟩

/-- Two names that the sources can give to a local. The name of the result parameter is taken from the
start, so the code never gives it to a local. -/
def Fit (left right : String) : Prop :=
  left = right ∨
    (Own left ∨ left = Routine.resultParam) ∧ (Own right ∨ right = Routine.resultParam)

theorem fit_of_own (hleft : Own left) (hright : Own right) : Fit left right :=
  .inr ⟨.inl hleft, .inl hright⟩

end Facts

/-- The parts of places correspond. -/
inductive Place.Parallel : Place → Place → Prop where
  | name (left right : String) (rep : Rep) : Parallel (.name left rep) (.name right rep)
  | deref (left right : String) (rep : Rep) : Parallel (.deref left rep) (.deref right rep)
  | field {left right : Place} (key : String) (rep : Rep) : Parallel left right →
    Parallel (.field left key rep) (.field right key rep)

section TwoSides

variable [OwnNames]

/-- Inline expressions that mean the same. -/
inductive Inline.Matches (facts : Facts) : Inline → Inline → Prop where
  | name {left right : String} : facts.Same left right → Matches facts (.name left) (.name right)
  | plain {expr : Inline} : expr.names = [] → Matches facts expr expr
  | field {left right : Inline} (key : String) : Matches facts left right →
    Matches facts (.field left key) (.field right key)
  | binary {left right first second : Inline} (op : Operator) : Matches facts left right →
    Matches facts first second → Matches facts (.binary op left first) (.binary op right second)
  | not {left right : Inline} : Matches facts left right → Matches facts (.not left) (.not right)

inductive Operand.Matches (facts : Facts) : Operand → Operand → Prop where
  | name {left right : String} (rep : Rep) : facts.Same left right →
    Matches facts (.name left rep) (.name right rep)
  | inline {left right : Inline} (rep : Rep) : left.Matches facts right →
    Matches facts (.inline left rep) (.inline right rep)

inductive Operand.MatchesAll (facts : Facts) : List Operand → List Operand → Prop where
  | nil : MatchesAll facts [] []
  | cons {left right : Operand} {lefts rights : List Operand} : left.Matches facts right →
    MatchesAll facts lefts rights → MatchesAll facts (left :: lefts) (right :: rights)

/-- Places that mean the same. -/
structure Place.Matches (facts : Facts) (left right : Place) : Prop where
  parallel : left.Parallel right
  root : facts.Same left.root right.root

end TwoSides

section PairedNames

variable {α : Type} {params twins : List (String × α)}

def pairedNames (params twins : List (String × α)) : List (String × String) :=
  (params.map Prod.fst).zip (twins.map Prod.fst)

@[simp] theorem pairedNames_cons (param twin : String × α) (params twins : List (String × α)) :
    pairedNames (param :: params) (twin :: twins) =
      (param.1, twin.1) :: pairedNames params twins := rfl

theorem mem_pairedNames {entry : String × String} (h : entry ∈ pairedNames params twins) :
    entry.1 ∈ params.map Prod.fst ∧ entry.2 ∈ twins.map Prod.fst :=
  List.of_mem_zip h

theorem Facts.hasLeft_pairedNames {name : String}
    (h : Facts.HasLeft { ties := pairedNames params twins } name) : name ∈ params.map Prod.fst := by
  obtain ⟨entry, he, rfl⟩ := List.mem_map.mp h
  exact (mem_pairedNames he).1

theorem Facts.hasRight_pairedNames {name : String}
    (h : Facts.HasRight { ties := pairedNames params twins } name) : name ∈ twins.map Prod.fst := by
  obtain ⟨entry, he, rfl⟩ := List.mem_map.mp h
  exact (mem_pairedNames he).2

end PairedNames

section TwoSides

variable [OwnNames]

/-- Instructions that introduce a local on each side, in the same way. -/
inductive Instr.Introduce (facts : Facts) (left right : String) : Instr → Instr → Prop where
  | decl (rep : Rep) : Introduce facts left right (.decl rep left) (.decl rep right)
  | alloc (rep : Rep) : Introduce facts left right (.alloc rep left) (.alloc rep right)
  | init {operand twin : Operand} (rep : Rep) : operand.Matches facts twin →
    Introduce facts left right (.init rep left operand) (.init rep right twin)

/-- Instructions that do the same to places that are there. -/
inductive Instr.Act (facts : Facts) : Instr → Instr → Prop where
  | move {instr twin : Instr} {dest twinDest : Place} {operand twinOperand : Operand} :
    instr.Moves dest operand → twin.Moves twinDest twinOperand → dest.Matches facts twinDest →
    operand.Matches facts twinOperand → Act facts instr twin
  | call {dest twinDest : Place} {args twinArgs : List Operand} (callee : String) :
    dest.Matches facts twinDest → Operand.MatchesAll facts args twinArgs →
    Act facts (.call dest callee args) (.call twinDest callee twinArgs)
  | comment (text twinText : String) : Act facts (.comment text) (.comment twinText)

/-- Code on two sides that does the same, from some facts to others. Where a loop is left, the facts
`exit` hold. What follows a return or the end of a loop is not looked at. -/
inductive Instr.Match : Facts → Facts → List Instr → List Instr → Facts → Prop where
  | nil (exit facts : Facts) : Match exit facts [] [] facts
  | weaken {exit facts less last : Facts} {code twin : List Instr} : less.Within facts →
    Match exit less code twin last → Match exit facts code twin last
  | introduce {exit facts last : Facts} {left right : String} {instr twinInstr : Instr}
    {code twin : List Instr} : instr.Introduce facts left right twinInstr →
    Facts.Alike left right → ¬facts.HasLeft left → ¬facts.HasRight right →
    Match exit (facts.tie left right) code twin last →
    Match exit facts (instr :: code) (twinInstr :: twin) last
  | act {exit facts last : Facts} {instr twinInstr : Instr} {code twin : List Instr} :
    instr.Act facts twinInstr → Match exit facts code twin last →
    Match exit facts (instr :: code) (twinInstr :: twin) last
  | release {exit facts less last : Facts} {left right : String} {code twin : List Instr}
    (rep twinRep : Rep) : facts.Same left right → less.Within facts → ¬less.HasLeft left →
    ¬less.HasRight right → Match exit less code twin last →
    Match exit facts (.release rep left :: code) (.release twinRep right :: twin) last
  | branch {exit facts middle last : Facts} {test twinTest : Operand}
    {onTrue onFalse twinTrue twinFalse code twin : List Instr} (rep twinRep : Rep) :
    test.Matches facts twinTest → Match exit facts onTrue twinTrue middle →
    Match exit facts onFalse twinFalse middle → Match exit middle code twin last →
    Match exit facts (.branch test onTrue onFalse rep :: code)
      (.branch twinTest twinTrue twinFalse twinRep :: twin) last
  | loop {exit facts last : Facts} {body twinBody code twin : List Instr} :
    body ≠ [] → twinBody ≠ [] → Match facts facts body twinBody facts →
    Match exit facts code twin last →
    Match exit facts (.loop body :: code) (.loop twinBody :: twin) last
  | ret {exit facts last : Facts} {operand twinOperand : Operand} (code twin : List Instr) :
    operand.Matches facts twinOperand →
    Match exit facts (.ret operand :: code) (.ret twinOperand :: twin) last
  | leave {exit facts last : Facts} (code twin : List Instr) : exit.Within facts →
    Match exit facts (.leave :: code) (.leave :: twin) last

namespace Instr.Match

variable {exit facts middle last : Facts} {code twin rest twinRest : List Instr}

theorem append (h : Match exit facts code twin middle)
    (hrest : Match exit middle rest twinRest last) :
    Match exit facts (code ++ rest) (twin ++ twinRest) last := by
  induction h with
  | nil exit facts => exact hrest
  | weaken hless _ ih => exact .weaken hless (ih hrest)
  | introduce hintro halike hleft hright _ ih =>
    exact .introduce hintro halike hleft hright (ih hrest)
  | act hact _ ih => exact .act hact (ih hrest)
  | release rep twinRep hsame hless hleft hright _ ih =>
    exact .release rep twinRep hsame hless hleft hright (ih hrest)
  | branch rep twinRep htest htrue hfalse _ _ _ ih =>
    exact .branch rep twinRep htest htrue hfalse (ih hrest)
  | loop hbody htwin hmatch _ _ ih => exact .loop hbody htwin hmatch (ih hrest)
  | ret code twin hoperand => exact .ret (code ++ rest) (twin ++ twinRest) hoperand
  | leave code twin hexit => exact .leave (code ++ rest) (twin ++ twinRest) hexit

theorem forget (h : Match exit facts code twin last) {less : Facts}
    (hless : less.Within last) : Match exit facts code twin less := by
  have hrest : Match exit last [] [] less := .weaken hless (.nil exit less)
  simpa using h.append hrest

end Instr.Match

namespace Facts

/-- Names of two sides that stand for each other: each of them for one other at most. -/
structure Pairing (pairs : List (String × String)) : Prop where
  alike : ∀ entry ∈ pairs, Alike entry.1 entry.2
  single : ∀ entry ∈ pairs, ∀ second ∈ pairs, entry.1 = second.1 ↔ entry.2 = second.2

theorem Pairing.mono {pairs more : List (String × String)} (h : Pairing more)
    (hsub : pairs ⊆ more) : Pairing pairs :=
  ⟨fun entry he => h.alike entry (hsub he),
    fun entry he second hs => h.single entry (hsub he) second (hsub hs)⟩

theorem Pairing.flip {pairs : List (String × String)} (h : Pairing pairs) :
    Pairing (pairs.map Prod.swap) := by
  refine ⟨fun entry he => ?_, fun entry he second hs => ?_⟩
  · obtain ⟨other, ho, rfl⟩ := List.mem_map.mp he
    exact (h.alike other ho).symm
  · obtain ⟨other, ho, rfl⟩ := List.mem_map.mp he
    obtain ⟨another, ha, rfl⟩ := List.mem_map.mp hs
    exact (h.single other ho another ha).symm

theorem Pairing.eq_iff {pairs : List (String × String)} (h : Pairing pairs)
    {entry : String × String} (he : entry ∈ pairs) {left right : String}
    (hsame : Same { ties := pairs } left right) : entry.1 = left ↔ entry.2 = right := by
  rcases hsame with hmem | ⟨rfl, hplain⟩
  · exact h.single entry he _ hmem
  · rcases h.alike entry he with ⟨heq, _⟩ | ⟨hleft, hright⟩
    · rw [heq]
    · exact iff_of_false (ne_of_own hplain hleft).symm (ne_of_own hplain hright).symm

theorem Pairing.mem_of_same {names twins : List String} (h : Pairing (names.zip twins))
    (hlength : names.length = twins.length) {left right : String}
    (hsame : Same { ties := names.zip twins } left right) (hmem : left ∈ names) :
    (left, right) ∈ names.zip twins := by
  rw [← List.map_fst_zip (Nat.le_of_eq hlength)] at hmem
  obtain ⟨entry, he, rfl⟩ := List.mem_map.mp hmem
  rw [← (h.eq_iff he hsame).mp rfl]
  exact he

theorem Pairing.mem_iff {names twins : List String} (h : Pairing (names.zip twins))
    (hlength : names.length = twins.length) {name : String} (hname : ¬Own name) :
    name ∈ names ↔ name ∈ twins := by
  have hsame : Same { ties := names.zip twins } name name := .inr ⟨rfl, hname⟩
  refine ⟨fun hmem => (List.of_mem_zip (h.mem_of_same hlength hsame hmem)).2, fun hmem => ?_⟩
  rw [← List.map_snd_zip (Nat.le_of_eq hlength.symm)] at hmem
  obtain ⟨entry, he, rfl⟩ := List.mem_map.mp hmem
  exact (h.eq_iff he hsame).mpr rfl ▸ (List.of_mem_zip he).1

theorem Pairing.self (names : List String) : Pairing (names.zip names) := by
  have heq : names.zip names = names.map fun name => (name, name) := by
    rw [List.zip_eq_zipWith, List.zipWith_self]
  rw [heq]
  refine ⟨fun entry he => ?_, fun entry he second hs => ?_⟩
  · obtain ⟨name, _, rfl⟩ := List.mem_map.mp he
    exact .refl name
  · obtain ⟨name, _, rfl⟩ := List.mem_map.mp he
    obtain ⟨other, _, rfl⟩ := List.mem_map.mp hs
    exact Iff.rfl

end Facts

/-- Routines that agree but for the names of their parameters and locals. -/
structure Routine.Matches (routine twin : Routine) : Prop where
  name : twin.name = routine.name
  reps : twin.params.map Prod.snd = routine.params.map Prod.snd
  pairing : Facts.Pairing (pairedNames routine.params twin.params)
  result : twin.result = routine.result
  reference : routine.returnsByReference = true → OwnNames.byReference
  body : ∃ last, Instr.Match {} { ties := pairedNames routine.params twin.params }
    routine.body twin.body last

end TwoSides

end IsaBackend
