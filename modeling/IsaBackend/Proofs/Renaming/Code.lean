import IsaBackend.CompileError
import IsaBackend.Lifetime.Check
import IsaBackend.Proofs.Effects
import IsaBackend.Proofs.Renaming.Names

/-!
# Renaming the locals of code

Code is renamed by changing the names of its locals. Callees, fields and the registers whose addresses
are taken keep theirs. The lifetime check compares names for equality only, so as long as no two names
become equal it finds in renamed code what it finds in the code, under the new names.
-/

namespace IsaBackend

namespace Inline

def rename (change : String → String) : Inline → Inline
  | name key => name (change key)
  | field record key => field (record.rename change) key
  | binary op left right => binary op (left.rename change) (right.rename change)
  | not operand => not (operand.rename change)
  | unit => unit
  | bool value => bool value
  | int value => int value
  | bits value width => bits value width
  | text content => text content
  | address key => address key

variable (change : String → String)

@[simp] theorem fitsMachineWord_rename (expr : Inline) :
    (expr.rename change).fitsMachineWord = expr.fitsMachineWord := by
  induction expr with
  | field record key ih => exact ih
  | binary op left right ihl ihr => simp only [rename, fitsMachineWord, ihl, ihr]
  | not operand ih => exact ih
  | _ => rfl

@[simp] theorem isLiteral_rename (expr : Inline) :
    (expr.rename change).isLiteral = expr.isLiteral := by
  induction expr with
  | binary op left right ihl ihr => simp only [rename, isLiteral, ihl, ihr]
  | not operand ih => exact ih
  | _ => rfl

@[simp] theorem root?_rename (expr : Inline) :
    (expr.rename change).root? = expr.root?.map change := by
  induction expr with
  | field record key ih => exact ih
  | _ => rfl

theorem rename_ofLiteral? (value : Literal) :
    (ofLiteral? value).map (rename change) = ofLiteral? value := by
  have hdigits : ∀ digits radix bitsPerDigit,
      (ofDigits? digits radix bitsPerDigit).map (rename change) =
        ofDigits? digits radix bitsPerDigit := by
    intro digits radix bitsPerDigit
    simp only [ofDigits?]
    split
    · rw [Option.map_map]
      rfl
    · rfl
  cases value with
  | hex digits => exact hdigits digits 16 4
  | bin digits => exact hdigits digits 2 1
  | _ => rfl

end Inline

namespace Operand

def rename (change : String → String) : Operand → Operand
  | name key rep => name (change key) rep
  | inline expr rep => inline (expr.rename change) rep

@[simp] theorem rep_rename (change : String → String) (operand : Operand) :
    (operand.rename change).rep = operand.rep := by
  cases operand <;> rfl

@[simp] theorem toInline_rename (change : String → String) (operand : Operand) :
    (operand.rename change).toInline = operand.toInline.rename change := by
  cases operand <;> rfl

end Operand

namespace Place

/-- The result parameter is renamed like any other name. -/
def rename (change : String → String) : Place → Place
  | name key rep => name (change key) rep
  | field base key rep => field (base.rename change) key rep
  | deref key rep => deref (change key) rep

@[simp] theorem rep_rename (change : String → String) (place : Place) :
    (place.rename change).rep = place.rep := by
  cases place <;> rfl

@[simp] theorem root_rename (change : String → String) (place : Place) :
    (place.rename change).root = change place.root := by
  induction place with
  | field base key rep ih => exact ih
  | _ => rfl

end Place

namespace Instr

mutual

def rename (change : String → String) : Instr → Instr
  | decl rep name => decl rep (change name)
  | alloc rep name => alloc rep (change name)
  | init rep name value => init rep (change name) (value.rename change)
  | branch test onTrue onFalse rep =>
    branch (test.rename change) (renameAll change onTrue) (renameAll change onFalse) rep
  | call dest callee args => call (dest.rename change) callee (args.map (Operand.rename change))
  | convert dest value => convert (dest.rename change) (value.rename change)
  | assign dest value => assign (dest.rename change) (value.rename change)
  | copy dest value => copy (dest.rename change) (value.rename change)
  | release rep name => release rep (change name)
  | ret value => ret (value.rename change)
  | comment text => comment text
  | loop body => loop (renameAll change body)
  | leave => leave

def renameAll (change : String → String) : List Instr → List Instr
  | [] => []
  | instr :: rest => instr.rename change :: renameAll change rest

end

@[simp] theorem renameAll_append (change : String → String) (code more : List Instr) :
    renameAll change (code ++ more) = renameAll change code ++ renameAll change more := by
  induction code with
  | nil => rfl
  | cons instr rest ih => simp only [List.cons_append, renameAll, ih]

end Instr

/-- Parameters are locals as well. -/
def Routine.rename (change : String → String) (routine : Routine) : Routine where
  name := routine.name
  params := routine.params.map fun param => (change param.1, param.2)
  result := routine.result
  body := Instr.renameAll change routine.body

/-- Only routines have locals. -/
def Item.rename (change : String → String) : Item → Item
  | register name rep => register name rep
  | routine definition => routine (definition.rename change)
  | layout rep => layout rep

def LifetimeError.rename (change : String → String) : LifetimeError → LifetimeError
  | doubleAlloc name => doubleAlloc (change name)
  | releaseUnallocated name => releaseUnallocated (change name)
  | doubleRelease name => doubleRelease (change name)
  | outOfOrder expected found => outOfOrder (change expected) (change found)
  | useAfterRelease name => useAfterRelease (change name)
  | leakAtReturn name => leakAtReturn (change name)
  | leakAtEnd name => leakAtEnd (change name)
  | unbalancedLoop => unbalancedLoop
  | breakOutsideLoop => breakOutsideLoop
  | wideConstant expr => wideConstant (expr.rename change)

section Both

variable {ε ε' α α' β β' : Type}

/-- Change the value of a success and the cause of a failure. -/
def mapBoth (value : α → α') (cause : ε → ε') : Except ε α → Except ε' α'
  | .ok given => .ok (value given)
  | .error given => .error (cause given)

private theorem mapBoth_bind {value : α → α'} {later : β → β'} {cause : ε → ε'} {first : Except ε α}
    {twin : Except ε' α'} {next : α → Except ε β} {twinNext : α' → Except ε' β'}
    (hfirst : twin = mapBoth value cause first)
    (hnext : ∀ given, twinNext (value given) = mapBoth later cause (next given)) :
    (twin >>= twinNext) = mapBoth later cause (first >>= next) := by
  subst hfirst
  cases first with
  | ok given => exact hnext given
  | error given => rfl

end Both

namespace PathState

def rename (change : String → String) (state : PathState) : PathState where
  live := state.live.map change
  released := state.released.map change

variable {change : String → String}

private theorem rename_injective (hinj : Function.Injective change) :
    Function.Injective (PathState.rename change) := by
  rintro ⟨live, released⟩ ⟨otherLive, otherReleased⟩ h
  simp only [rename, PathState.mk.injEq] at h
  obtain ⟨hlive, hreleased⟩ := h
  rw [List.map_injective_iff.mpr hinj hlive, NameSet.map_injective hinj hreleased]

variable (hinj : Function.Injective change) (state : PathState)

include hinj

private theorem contains_live_rename (name : String) :
    (state.rename change).live.contains (change name) = state.live.contains name := by
  rw [Bool.eq_iff_iff, List.contains_iff_mem, List.contains_iff_mem]
  exact List.mem_map_of_injective hinj

private theorem use_rename (name : String) :
    (state.rename change).use (change name) =
      mapBoth id (LifetimeError.rename change) (state.use name) := by
  simp only [use, rename, NameSet.contains_map_rename hinj]
  split <;> rfl

private theorem read_rename (operand : Operand) :
    (state.rename change).read (operand.rename change) =
      mapBoth id (LifetimeError.rename change) (state.read operand) := by
  cases operand with
  | name key rep => exact use_rename hinj state key
  | inline expr rep =>
    simp only [read, Operand.rename, Inline.fitsMachineWord_rename, Inline.root?_rename]
    split
    · cases expr.root? with
      | none => rfl
      | some key => exact use_rename hinj state key
    · rfl

private theorem readAll_rename (operands : List Operand) :
    (state.rename change).readAll (operands.map (Operand.rename change)) =
      mapBoth id (LifetimeError.rename change) (state.readAll operands) := by
  induction operands with
  | nil => rfl
  | cons operand rest ih => exact mapBoth_bind (read_rename hinj state operand) fun _ => ih

private theorem write_rename (dest : Place) :
    (state.rename change).write (dest.rename change) =
      mapBoth id (LifetimeError.rename change) (state.write dest) := by
  rw [write, write, Place.root_rename]
  exact use_rename hinj state dest.root

private theorem allocate_rename (name : String) :
    (state.rename change).allocate (change name) =
      mapBoth (rename change) (LifetimeError.rename change) (state.allocate name) := by
  simp only [allocate, contains_live_rename hinj]
  split
  · rfl
  · simp only [mapBoth, rename, List.map_cons, NameSet.map_erase hinj]

private theorem release_rename (name : String) :
    (state.rename change).release (change name) =
      mapBoth (rename change) (LifetimeError.rename change) (state.release name) := by
  obtain ⟨live, released⟩ := state
  cases live with
  | nil =>
    simp only [release, rename, List.map_nil, NameSet.contains_map_rename hinj]
    split <;> rfl
  | cons top rest =>
    have hrest := contains_live_rename hinj ⟨rest, released⟩ name
    simp only [rename] at hrest
    simp only [release, rename, List.map_cons, hinj.eq_iff, hrest,
      NameSet.contains_map_rename hinj]
    by_cases htop : top = name
    · simp only [htop, if_true, mapBoth, rename, NameSet.map_insert]
    · simp only [htop, if_false]
      split
      · rfl
      · split <;> rfl

private theorem balanced_rename (states : List PathState) :
    (state.rename change).balanced (states.map (rename change)) =
      mapBoth id (LifetimeError.rename change) (state.balanced states) := by
  have hall : (states.map (rename change)).all (fun other => other.live = (state.rename change).live) =
      states.all fun other => other.live = state.live := by
    rw [List.all_map]
    congr 1
    funext other
    simp only [Function.comp_apply, rename, (List.map_injective_iff.mpr hinj).eq_iff]
  simp only [balanced, hall]
  split <;> rfl

private theorem distinct_rename (states : List PathState) :
    distinct (states.map (rename change)) = (distinct states).map (rename change) := by
  have hinjective := rename_injective hinj
  have hfold : ∀ (states kept : List PathState),
      (states.map (rename change)).foldl
        (fun kept state => if state ∈ kept then kept else state :: kept) (kept.map (rename change)) =
      (states.foldl (fun kept state => if state ∈ kept then kept else state :: kept) kept).map
        (rename change) := by
    intro states
    induction states with
    | nil => exact fun kept => rfl
    | cons first rest ih =>
      intro kept
      simp only [List.map_cons, List.foldl_cons, List.mem_map_of_injective hinjective]
      by_cases hmem : first ∈ kept
      · simp only [hmem, if_true, ih]
      · simp only [hmem, if_false]
        exact ih (first :: kept)
  have hstates := hfold states []
  simp only [List.map_nil] at hstates
  rw [distinct, distinct, hstates, List.map_reverse]

omit hinj in
private theorem settled_rename (leak : String → LifetimeError)
    (hleak : ∀ name, leak (change name) = (leak name).rename change) :
    (state.rename change).settled leak =
      mapBoth id (LifetimeError.rename change) (state.settled leak) := by
  obtain ⟨live, released⟩ := state
  cases live with
  | nil => rfl
  | cons name rest => exact congrArg Except.error (hleak name)

end PathState

section Following

variable {change : String → String}

private theorem followEach_rename
    {step twinStep : PathState → Except LifetimeError (List PathState)}
    (hstep : ∀ state, twinStep (state.rename change) =
      mapBoth (List.map (PathState.rename change)) (LifetimeError.rename change) (step state))
    (states : List PathState) :
    followEach twinStep (states.map (PathState.rename change)) =
      mapBoth (List.map (PathState.rename change)) (LifetimeError.rename change)
        (followEach step states) := by
  induction states with
  | nil => rfl
  | cons state rest ih =>
    refine mapBoth_bind (hstep state) fun ends => mapBoth_bind ih fun more => ?_
    simp only [pure, Except.pure, mapBoth, List.map_append]

/-- States that meet after renaming are the renamed states that meet. -/
def Meeting.Renames (change : String → String) (meet : Meeting) : Prop :=
  ∀ states : List PathState,
    meet (states.map (PathState.rename change)) = (meet states).map (PathState.rename change)

mutual

theorem Instr.follow_rename (hinj : Function.Injective change) {meet : Meeting}
    (hmeet : meet.Renames change) (entry : Option PathState) :
    ∀ (state : PathState) (instr : Instr),
      (instr.rename change).follow meet (entry.map (PathState.rename change))
          (state.rename change) =
        mapBoth (List.map (PathState.rename change)) (LifetimeError.rename change)
          (instr.follow meet entry state)
  | state, .alloc rep name =>
    mapBoth_bind (state.allocate_rename hinj name) fun _ => rfl
  | state, .init rep name value =>
    mapBoth_bind (state.read_rename hinj value) fun _ =>
      mapBoth_bind (state.allocate_rename hinj name) fun _ => rfl
  | state, .release rep name =>
    mapBoth_bind (state.release_rename hinj name) fun _ => rfl
  | state, .branch test onTrue onFalse rep => by
    refine mapBoth_bind (state.read_rename hinj test) fun _ => ?_
    refine mapBoth_bind (Instr.followAll_rename hinj hmeet entry [state] onTrue) fun trueEnds => ?_
    refine mapBoth_bind (Instr.followAll_rename hinj hmeet entry [state] onFalse) fun falseEnds => ?_
    simp only [pure, Except.pure, mapBoth, List.map_append]
  | state, .loop body =>
    mapBoth_bind (Instr.followAll_rename hinj hmeet (some state) [state] body) fun ends =>
      mapBoth_bind (state.balanced_rename hinj ends) fun _ => rfl
  | state, .leave => by
    cases entry with
    | none => rfl
    | some entry =>
      simp only [Instr.rename, Instr.follow, Option.map_some, PathState.rename,
        (List.map_injective_iff.mpr hinj).eq_iff]
      split <;> rfl
  | state, .ret value =>
    mapBoth_bind (state.read_rename hinj value) fun _ =>
      mapBoth_bind (state.settled_rename .leakAtReturn fun _ => rfl) fun _ => rfl
  | state, .call dest callee args =>
    mapBoth_bind (state.readAll_rename hinj args) fun _ =>
      mapBoth_bind (state.write_rename hinj dest) fun _ => rfl
  | state, .convert dest value =>
    mapBoth_bind (state.read_rename hinj value) fun _ =>
      mapBoth_bind (state.write_rename hinj dest) fun _ => rfl
  | state, .assign dest value =>
    mapBoth_bind (state.read_rename hinj value) fun _ =>
      mapBoth_bind (state.write_rename hinj dest) fun _ => rfl
  | state, .copy dest value =>
    mapBoth_bind (state.read_rename hinj value) fun _ =>
      mapBoth_bind (state.write_rename hinj dest) fun _ => rfl
  | _, .decl _ _ => rfl
  | _, .comment _ => rfl

private theorem Instr.followAll_rename (hinj : Function.Injective change) {meet : Meeting}
    (hmeet : meet.Renames change) (entry : Option PathState) :
    ∀ (states : List PathState) (code : List Instr),
      Instr.followAll meet (entry.map (PathState.rename change))
        (states.map (PathState.rename change)) (Instr.renameAll change code) =
      mapBoth (List.map (PathState.rename change)) (LifetimeError.rename change)
        (Instr.followAll meet entry states code)
  | _, [] => rfl
  | states, instr :: rest => by
    simp only [Instr.renameAll, Instr.followAll, List.isEmpty_map]
    split
    · rfl
    · refine mapBoth_bind
        (followEach_rename (fun state => Instr.follow_rename hinj hmeet entry state instr) states)
        fun ends => ?_
      rw [hmeet ends]
      exact Instr.followAll_rename hinj hmeet entry (meet ends) rest

end

theorem Routine.checkLifetimes_rename (hinj : Function.Injective change) (routine : Routine) :
    (routine.rename change).checkLifetimes =
      mapBoth id (LifetimeError.rename change) routine.checkLifetimes := by
  have hfollow := Instr.followAll_rename hinj (PathState.distinct_rename hinj) none [{}] routine.body
  refine mapBoth_bind hfollow fun ends => ?_
  induction ends with
  | nil => rfl
  | cons state rest ih =>
    exact mapBoth_bind (state.settled_rename .leakAtEnd fun _ => rfl) fun _ => ih

end Following

end IsaBackend
