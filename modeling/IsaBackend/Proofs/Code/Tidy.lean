import IsaBackend.Code.Basic

/-!
# Tidy code

The lifetime discipline as a predicate transformer on the stack of live names: code is tidy from a
stack if every path allocates names that are not live, releases the name on top, and returns or
leaves a loop only with what it may leave behind. Staged code is tidy by construction, what the
lifetime check accepts is tidy, and tidy code runs without a breach.
-/

namespace IsaBackend

def Inline.names : Inline → List String
  | name key => [key]
  | field record _ => record.names
  | binary _ left right => left.names ++ right.names
  | not operand => operand.names
  | _ => []

namespace Operand

def names : Operand → List String
  | name key _ => [key]
  | inline expr _ => expr.names

def fitsMachineWord : Operand → Bool
  | name _ _ => true
  | inline expr _ => expr.fitsMachineWord

end Operand

/-- A division of the names of a routine: the ones that own storage at some time, and the rest,
which are never released. Uses of names may be watched or not. -/
structure Discipline where
  owns : String → Prop
  watches : Prop

namespace Discipline

/-- A watched name can be used while it is live, and at any time if it never owns storage. -/
def Usable (disc : Discipline) (live : List String) (name : String) : Prop :=
  disc.watches → name ∈ live ∨ ¬disc.owns name

/-- Every name that an operand reads can be used, and its integers fit machine words. -/
def Reads (disc : Discipline) (live : List String) (operand : Operand) : Prop :=
  operand.fitsMachineWord = true ∧ ∀ name ∈ operand.names, disc.Usable live name

theorem Usable.mono {disc : Discipline} {live more : List String} {name : String}
    (h : disc.Usable live name) (sub : ∀ other ∈ live, other ∈ more) : disc.Usable more name :=
  fun hw => (h hw).imp_left (sub name)

theorem Reads.mono {disc : Discipline} {live more : List String} {operand : Operand}
    (h : disc.Reads live operand) (sub : ∀ other ∈ live, other ∈ more) :
    disc.Reads more operand :=
  ⟨h.1, fun name hn => (h.2 name hn).mono sub⟩

theorem usable_of_not_owns {disc : Discipline} {name : String} (h : ¬disc.owns name)
    (live : List String) : disc.Usable live name := fun _ => .inr h

theorem usable_of_mem {disc : Discipline} {live : List String} {name : String}
    (h : name ∈ live) : disc.Usable live name := fun _ => .inl h

theorem reads_name {disc : Discipline} {live : List String} {name : String} {rep : Rep}
    (h : disc.Usable live name) : disc.Reads live (.name name rep) :=
  ⟨rfl, fun _ hn => List.mem_singleton.mp hn ▸ h⟩

theorem reads_inline {disc : Discipline} {live : List String} {expr : Inline} {rep : Rep}
    (hfits : expr.fitsMachineWord = true) (hnames : expr.names = []) :
    disc.Reads live (.inline expr rep) :=
  ⟨hfits, fun name hn => absurd (hnames ▸ hn : name ∈ []) List.not_mem_nil⟩

end Discipline

mutual

/-- Whether an instruction keeps to a discipline from a stack of live names on, so that a
condition holds of the stack when it falls through. Inside a loop, `entry` is the stack at its
start. -/
def Instr.Tidy (disc : Discipline) (entry : Option (List String)) (live : List String) :
    Instr → (List String → Prop) → Prop
  | .decl _ name, post => ¬disc.owns name ∧ post live
  | .alloc _ name, post => disc.owns name ∧ name ∉ live ∧ post (name :: live)
  | .init _ name value, post =>
    disc.Reads live value ∧ disc.owns name ∧ name ∉ live ∧ post (name :: live)
  | .branch test onTrue onFalse _, post =>
    disc.Reads live test ∧ Instr.TidyAll disc entry live onTrue post ∧
      Instr.TidyAll disc entry live onFalse post
  | .call dest _ args, post =>
    (∀ arg ∈ args, disc.Reads live arg) ∧ disc.Usable live dest.root ∧ post live
  | .convert dest value, post =>
    disc.Reads live value ∧ disc.Usable live dest.root ∧ post live
  | .assign dest value, post =>
    disc.Reads live value ∧ disc.Usable live dest.root ∧ post live
  | .copy dest value, post =>
    disc.Reads live value ∧ disc.Usable live dest.root ∧ post live
  | .release _ name, post => ∃ rest, live = name :: rest ∧ post rest
  | .ret value, _ => disc.Reads live value ∧ live = []
  | .comment _, post => post live
  | .loop body, post => Instr.TidyAll disc (some live) live body (· = live) ∧ post live
  | .leave, _ => entry = some live

/-- Whether a list of instructions keeps to a discipline. -/
def Instr.TidyAll (disc : Discipline) (entry : Option (List String)) (live : List String) :
    List Instr → (List String → Prop) → Prop
  | [], post => post live
  | instr :: rest, post =>
    instr.Tidy disc entry live fun live => Instr.TidyAll disc entry live rest post

end

namespace Instr

variable {disc : Discipline} {entry : Option (List String)} {live : List String}
  {post post' : List String → Prop}

mutual

theorem Tidy.mono {live : List String} {post post' : List String → Prop} :
    ∀ {instr : Instr}, instr.Tidy disc entry live post → (∀ l, post l → post' l) →
      instr.Tidy disc entry live post'
  | .decl _ _, h, imp => ⟨h.1, imp _ h.2⟩
  | .alloc _ _, h, imp => ⟨h.1, h.2.1, imp _ h.2.2⟩
  | .init _ _ _, h, imp => ⟨h.1, h.2.1, h.2.2.1, imp _ h.2.2.2⟩
  | .branch _ _ _ _, h, imp => ⟨h.1, TidyAll.mono h.2.1 imp, TidyAll.mono h.2.2 imp⟩
  | .call _ _ _, h, imp => ⟨h.1, h.2.1, imp _ h.2.2⟩
  | .convert _ _, h, imp => ⟨h.1, h.2.1, imp _ h.2.2⟩
  | .assign _ _, h, imp => ⟨h.1, h.2.1, imp _ h.2.2⟩
  | .copy _ _, h, imp => ⟨h.1, h.2.1, imp _ h.2.2⟩
  | .release _ _, ⟨rest, hl, h⟩, imp => ⟨rest, hl, imp _ h⟩
  | .ret _, h, _ => h
  | .comment _, h, imp => imp _ h
  | .loop _, h, imp => ⟨h.1, imp _ h.2⟩
  | .leave, h, _ => h

theorem TidyAll.mono {live : List String} {post post' : List String → Prop} :
    ∀ {code : List Instr}, TidyAll disc entry live code post → (∀ l, post l → post' l) →
      TidyAll disc entry live code post'
  | [], h, imp => imp _ h
  | _ :: _, h, imp => Tidy.mono h fun _ hl => TidyAll.mono hl imp

end

/-- Code in sequence is tidy if the first part is, up to where the second part takes over. -/
theorem tidyAll_append (code rest : List Instr) :
    TidyAll disc entry live (code ++ rest) post ↔
      TidyAll disc entry live code fun l => TidyAll disc entry l rest post := by
  induction code generalizing live with
  | nil => rfl
  | cons instr code ih =>
    simp only [List.cons_append, TidyAll]
    exact ⟨fun h => h.mono fun l => ih.mp, fun h => h.mono fun l => ih.mpr⟩

mutual

/-- The names that an instruction and those nested in it introduce, with a mark on those that own
storage. -/
def introduced : Instr → List (String × Bool)
  | .decl _ name => [(name, false)]
  | .alloc _ name => [(name, true)]
  | .init _ name _ => [(name, true)]
  | .branch _ onTrue onFalse _ => introducedAll onTrue ++ introducedAll onFalse
  | .loop body => introducedAll body
  | _ => []

def introducedAll : List Instr → List (String × Bool)
  | [] => []
  | instr :: rest => instr.introduced ++ introducedAll rest

end

@[simp] theorem introducedAll_append (code rest : List Instr) :
    introducedAll (code ++ rest) = introducedAll code ++ introducedAll rest := by
  induction code with
  | nil => rfl
  | cons instr code ih => simp [introducedAll, ih]

@[simp] theorem introducedAll_singleton (instr : Instr) :
    introducedAll [instr] = instr.introduced := by
  simp [introducedAll]

end Instr

def Discipline.Covers (disc : Discipline) (names : List (String × Bool)) : Prop :=
  ∀ entry ∈ names, disc.owns entry.1 ↔ entry.2 = true

theorem Discipline.covers_append {disc : Discipline} {names more : List (String × Bool)} :
    disc.Covers (names ++ more) ↔ disc.Covers names ∧ disc.Covers more := by
  simp only [Covers, List.forall_mem_append]

namespace Routine

/-- No name is declared without storage in one place and allocated in another. -/
def Separates (routine : Routine) : Prop :=
  ∀ name, (name, false) ∈ Instr.introducedAll routine.body →
    (name, true) ∉ Instr.introducedAll routine.body

instance (routine : Routine) : Decidable routine.Separates :=
  decidable_of_iff (∀ entry ∈ Instr.introducedAll routine.body, entry.2 = false →
      (entry.1, true) ∉ Instr.introducedAll routine.body)
    ⟨fun h name hn => h (name, false) hn rfl, fun h entry he hf => h entry.1 (hf ▸ he)⟩

/-- The names that own storage are those that the body allocates. -/
def discipline (routine : Routine) (watches : Prop) : Discipline where
  owns name := (name, true) ∈ Instr.introducedAll routine.body
  watches

theorem Separates.covers {routine : Routine} (h : routine.Separates) (watches : Prop) :
    (routine.discipline watches).Covers (Instr.introducedAll routine.body) := by
  rintro ⟨name, owned⟩ hm
  cases owned with
  | true => exact iff_of_true hm rfl
  | false => exact iff_of_false (h name hm) Bool.false_ne_true

end Routine

end IsaBackend
