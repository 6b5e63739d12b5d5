import IsaBackend.Proofs.Code.Scope
import IsaBackend.Proofs.Code.Tidy
import IsaBackend.Term.Basic

/-!
# The names of a term

The names that a term binds, and those that occur free in it. A source name is free unless a
binding around it has that name. The names in an inline expression stand in the code as they are,
so no binding captures them. The address of a register is no use of a local.
-/

namespace IsaBackend

/-- A use of a name. -/
inductive Mention where
  /-- A source name, which stands for what the scope says. -/
  | source (name : String)
  /-- A name that the code uses as it is. -/
  | verbatim (name : String)
  deriving DecidableEq

def Mention.name : Mention → String
  | source name => name
  | verbatim name => name

namespace Atom

mutual

/-- The names that an atom uses, with a reading for those in inline expressions. -/
def mentionsAs (read : String → Mention) : Atom → List Mention
  | lit _ _ => []
  | name key _ _ => [.source key]
  | refTo _ _ => []
  | tuple elems => mentionsAllAs read elems
  | list elems _ => mentionsAllAs read elems
  | vector elems _ => mentionsAllAs read elems
  | inline expr _ => expr.names.map read

def mentionsAllAs (read : String → Mention) : List Atom → List Mention
  | [] => []
  | atom :: rest => atom.mentionsAs read ++ mentionsAllAs read rest

end

def mentions : Atom → List Mention := mentionsAs .verbatim

def mentionsAll : List Atom → List Mention := mentionsAllAs .verbatim

mutual

/-- The names in an atom, with a reading for those in inline expressions. The address of a register
names the register. -/
def occurrencesAs (read : String → Mention) : Atom → List Mention
  | lit _ _ => []
  | name key _ _ => [.source key]
  | refTo key _ => [.verbatim key]
  | tuple elems => occurrencesAllAs read elems
  | list elems _ => occurrencesAllAs read elems
  | vector elems _ => occurrencesAllAs read elems
  | inline expr _ => expr.occurrences.map read

def occurrencesAllAs (read : String → Mention) : List Atom → List Mention
  | [] => []
  | atom :: rest => atom.occurrencesAs read ++ occurrencesAllAs read rest

end

end Atom

namespace Term

mutual

/-- The uses of names in a term that no binding of the term captures, with a reading for the names
in inline expressions. -/
def mentionsAs (read : String → Mention) : Term → List Mention
  | atom value => value.mentionsAs read
  | call _ args _ => Atom.mentionsAllAs read args
  | cast inner _ => inner.mentionsAs read
  | assign target _ value => .source target :: value.mentionsAs read
  | bind name _ init body _ =>
    init.mentionsAs read ++ (body.mentionsAs read).filter (· ≠ .source name)
  | block stmts last _ => mentionsAllAs read stmts ++ last.mentionsAs read
  | ret value _ => value.mentionsAs read
  | cond test onTrue onFalse _ =>
    test.mentionsAs read ++ onTrue.mentionsAs read ++ onFalse.mentionsAs read
  | field record _ _ => record.mentionsAs read
  | update record fields _ =>
    record.mentionsAs read ++ Atom.mentionsAllAs read (fields.map Prod.snd)
  | count var first last step _ body =>
    first.mentionsAs read ++ last.mentionsAs read ++ step.mentionsAs read ++
      (body.mentionsAs read).filter (· ≠ .source var)
  | loop _ test body => test.mentionsAs read ++ body.mentionsAs read

def mentionsAllAs (read : String → Mention) : List Term → List Mention
  | [] => []
  | term :: rest => term.mentionsAs read ++ mentionsAllAs read rest

end

def mentions : Term → List Mention := mentionsAs .verbatim

def mentionsAll : List Term → List Mention := mentionsAllAs .verbatim

/-- The names that occur free in a term. -/
def free (term : Term) : List String := term.mentions.map Mention.name

/-- The names that would occur free in a term if bindings captured inline expressions too. -/
def lexicallyFree (term : Term) : List String := (term.mentionsAs .source).map Mention.name

mutual

def bound : Term → List String
  | cast inner _ => inner.bound
  | assign _ _ value => value.bound
  | bind name _ init body _ => name :: init.bound ++ body.bound
  | block stmts last _ => boundAll stmts ++ last.bound
  | cond _ onTrue onFalse _ => onTrue.bound ++ onFalse.bound
  | count var _ _ _ _ body => var :: body.bound
  | loop _ test body => test.bound ++ body.bound
  | _ => []

def boundAll : List Term → List String
  | [] => []
  | term :: rest => term.bound ++ boundAll rest

end

mutual

def occurrencesAs (read : String → Mention) : Term → List Mention
  | atom value => value.occurrencesAs read
  | call _ args _ => Atom.occurrencesAllAs read args
  | cast inner _ => inner.occurrencesAs read
  | assign target _ value => .source target :: value.occurrencesAs read
  | bind name _ init body _ =>
    init.occurrencesAs read ++ (body.occurrencesAs read).filter (· ≠ .source name)
  | block stmts last _ => occurrencesAllAs read stmts ++ last.occurrencesAs read
  | ret value _ => value.occurrencesAs read
  | cond test onTrue onFalse _ =>
    test.occurrencesAs read ++ (onTrue.occurrencesAs read ++ onFalse.occurrencesAs read)
  | field record _ _ => record.occurrencesAs read
  | update record fields _ =>
    record.occurrencesAs read ++ Atom.occurrencesAllAs read (fields.map Prod.snd)
  | count var first last step _ body =>
    first.occurrencesAs read ++ (last.occurrencesAs read ++ (step.occurrencesAs read ++
      (body.occurrencesAs read).filter (· ≠ .source var)))
  | loop _ test body => test.occurrencesAs read ++ body.occurrencesAs read

def occurrencesAllAs (read : String → Mention) : List Term → List Mention
  | [] => []
  | term :: rest => term.occurrencesAs read ++ occurrencesAllAs read rest

end

/-- The names that occur free in a term, the names of inline expressions wherever they stand. -/
def freeNames (term : Term) : List String := (term.occurrencesAs .verbatim).map Mention.name

/-- The names that would occur free in a term if bindings captured inline expressions too. -/
def lexicallyFreeNames (term : Term) : List String :=
  (term.occurrencesAs .source).map Mention.name

mutual

/-- The variables that a term assigns and does not bind itself. -/
def targets : Term → List String
  | .atom _ => []
  | .call _ _ _ => []
  | .cast inner _ => inner.targets
  | .assign target _ value => target :: value.targets
  | .bind name _ init body _ => init.targets ++ body.targets.filter (· ≠ name)
  | .block stmts last _ => targetsAll stmts ++ last.targets
  | .ret _ _ => []
  | .cond _ onTrue onFalse _ => onTrue.targets ++ onFalse.targets
  | .field _ _ _ => []
  | .update _ _ _ => []
  | .count var _ _ _ _ body => body.targets.filter (· ≠ var)
  | .loop _ test body => test.targets ++ body.targets

def targetsAll : List Term → List String
  | [] => []
  | stmt :: rest => stmt.targets ++ targetsAll rest

end

mutual

theorem targets_subset : ∀ (term : Term) {target : String}, target ∈ term.targets →
    .source target ∈ term.occurrencesAs .verbatim
  | .cast inner _, _, h => inner.targets_subset h
  | .assign _ _ value, _, h => (List.mem_cons.mp h).elim (fun heq => heq ▸ List.mem_cons_self)
    fun h => List.mem_cons_of_mem _ (value.targets_subset h)
  | .bind _ _ init body _, _, h => by
    refine List.mem_append.mpr ((List.mem_append.mp h).imp init.targets_subset fun h => ?_)
    obtain ⟨h, hne⟩ := List.mem_filter.mp h
    exact List.mem_filter.mpr ⟨body.targets_subset h, by simpa using hne⟩
  | .block stmts last _, _, h =>
    List.mem_append.mpr ((List.mem_append.mp h).imp (targetsAll_subset stmts) last.targets_subset)
  | .cond _ onTrue onFalse _, _, h => List.mem_append_right _
    (List.mem_append.mpr ((List.mem_append.mp h).imp onTrue.targets_subset onFalse.targets_subset))
  | .count _ _ _ _ _ body, _, h => by
    obtain ⟨h, hne⟩ := List.mem_filter.mp h
    refine List.mem_append_right _ (List.mem_append_right _ (List.mem_append_right _ ?_))
    exact List.mem_filter.mpr ⟨body.targets_subset h, by simpa using hne⟩
  | .loop _ test body, _, h =>
    List.mem_append.mpr ((List.mem_append.mp h).imp test.targets_subset body.targets_subset)

theorem targetsAll_subset : ∀ (terms : List Term) {target : String}, target ∈ targetsAll terms →
    .source target ∈ occurrencesAllAs .verbatim terms
  | term :: rest, _, h => List.mem_append.mpr
    ((List.mem_append.mp h).imp term.targets_subset (targetsAll_subset rest))

end

end Term

/-- What code that is made of a term may do with names of the source. -/
structure Usage where
  /-- The names whose lifetimes matter. -/
  tracked : List Mention
  /-- The names that are read. -/
  read : List Mention
  /-- The variables that are assigned. -/
  written : List String

namespace Usage

/-- The usage outside a binding of a name. -/
def hide (usage : Usage) (name : String) : Usage where
  tracked := usage.tracked.filter (· ≠ .source name)
  read := usage.read.filter (· ≠ .source name)
  written := usage.written.filter (· ≠ name)

instance : Append Usage where
  append usage more :=
    ⟨usage.tracked ++ more.tracked, usage.read ++ more.read, usage.written ++ more.written⟩

instance : HasSubset Usage where
  Subset usage more := usage.tracked ⊆ more.tracked ∧ usage.read ⊆ more.read ∧
    usage.written ⊆ more.written

theorem subset_append_left (usage more : Usage) : usage ⊆ usage ++ more :=
  ⟨List.subset_append_left _ _, List.subset_append_left _ _, List.subset_append_left _ _⟩

theorem subset_append_right (usage more : Usage) : more ⊆ usage ++ more :=
  ⟨List.subset_append_right _ _, List.subset_append_right _ _, List.subset_append_right _ _⟩

end Usage

namespace Atom

def usage (atom : Atom) : Usage := ⟨atom.mentions, atom.occurrencesAs .verbatim, []⟩

def usageAll (atoms : List Atom) : Usage :=
  ⟨mentionsAll atoms, occurrencesAllAs .verbatim atoms, []⟩

end Atom

namespace Term

def usage (term : Term) : Usage := ⟨term.mentions, term.occurrencesAs .verbatim, term.targets⟩

def usageAll (terms : List Term) : Usage :=
  ⟨mentionsAll terms, occurrencesAllAs .verbatim terms, targetsAll terms⟩

theorem usage_assign (target : String) (ty : Ty) (value : Term) :
    value.usage ⊆ (assign target ty value).usage :=
  ⟨List.subset_cons_self _ _, List.subset_cons_self _ _, List.subset_cons_self _ _⟩

theorem usage_cond (test : Atom) (onTrue onFalse : Term) (ty : Ty) :
    test.usage ++ (onTrue.usage ++ onFalse.usage) ⊆ (cond test onTrue onFalse ty).usage := by
  refine ⟨?_, List.Subset.refl _, List.Subset.refl _⟩
  change _ ⊆ test.mentions ++ onTrue.mentions ++ onFalse.mentions
  rw [List.append_assoc]
  exact List.Subset.refl _

theorem usage_count (var : String) (first last step : Atom) (direction : Direction) (body : Term) :
    first.usage ++ last.usage ++ step.usage ++ body.usage.hide var ⊆
      (count var first last step direction body).usage := by
  refine ⟨List.Subset.refl _, ?_, List.Subset.refl _⟩
  change (_ ++ _ ++ _ ++ _ : List Mention) ⊆ _
  rw [List.append_assoc, List.append_assoc]
  exact List.Subset.refl _

end Term

end IsaBackend
