import IsaBackend.Code.Basic

/-!
# Well scoped code

A declaration makes a name visible to the instructions that follow it in the same block, and to the
arms and bodies nested in them. Code is well scoped if it uses visible names only. Rights tell apart
what may be read and what may be written, so that they can also say which names code leaves alone.
-/

namespace IsaBackend

/-- The names in an inline expression. The address of a register names the register. -/
def Inline.occurrences : Inline → List String
  | name key => [key]
  | address key => [key]
  | field record _ => record.occurrences
  | binary _ left right => left.occurrences ++ right.occurrences
  | not operand => operand.occurrences
  | _ => []

def Operand.occurrences : Operand → List String
  | name key _ => [key]
  | inline expr _ => expr.occurrences

@[simp] theorem Operand.occurrences_toInline (operand : Operand) :
    operand.toInline.occurrences = operand.occurrences := by
  cases operand <;> rfl

namespace Instr

/-- The name that an instruction makes visible to those that follow. -/
def exposed : Instr → List String
  | .decl _ name => [name]
  | .alloc _ name => [name]
  | .init _ name _ => [name]
  | _ => []

def exposedAll (code : List Instr) : List String := code.flatMap exposed

/-- The names that an instruction itself reads, writes or releases. -/
def used : Instr → List String
  | .init _ _ value => value.occurrences
  | .branch test _ _ _ => test.occurrences
  | .call dest _ args => dest.root :: args.flatMap Operand.occurrences
  | .convert dest value => dest.root :: value.occurrences
  | .assign dest value => dest.root :: value.occurrences
  | .copy dest value => dest.root :: value.occurrences
  | .release _ name => [name]
  | .ret value => value.occurrences
  | _ => []

mutual

/-- An instruction and those nested in it use visible names only. -/
def WellScoped : List String → Instr → Prop
  | visible, .branch test onTrue onFalse _ =>
    test.occurrences ⊆ visible ∧ WellScopedAll visible onTrue ∧ WellScopedAll visible onFalse
  | visible, .loop body => WellScopedAll visible body
  | visible, instr => instr.used ⊆ visible

def WellScopedAll : List String → List Instr → Prop
  | _, [] => True
  | visible, instr :: rest =>
    instr.WellScoped visible ∧ WellScopedAll (visible ++ instr.exposed) rest

end

@[simp] theorem exposedAll_nil : exposedAll [] = [] := rfl

@[simp] theorem exposedAll_cons (instr : Instr) (code : List Instr) :
    exposedAll (instr :: code) = instr.exposed ++ exposedAll code :=
  List.flatMap_cons

@[simp] theorem exposedAll_append (code rest : List Instr) :
    exposedAll (code ++ rest) = exposedAll code ++ exposedAll rest :=
  List.flatMap_append

end Instr

/-- The names that code may read, and those that it may write or release. -/
structure Rights where
  reads : String → Prop
  writes : String → Prop

namespace Rights

def ofNames (names : List String) : Rights := ⟨(· ∈ names), (· ∈ names)⟩

def add (rights : Rights) (names : List String) : Rights where
  reads name := rights.reads name ∨ name ∈ names
  writes name := rights.writes name ∨ name ∈ names

def Reads (rights : Rights) (operand : Operand) : Prop :=
  ∀ name ∈ operand.occurrences, rights.reads name

@[simp] theorem add_nil (rights : Rights) : rights.add [] = rights := by
  simp [add]

theorem add_append (rights : Rights) (names more : List String) :
    rights.add (names ++ more) = (rights.add names).add more := by
  simp [add, or_assoc]

private theorem ofNames_add (names more : List String) :
    (ofNames names).add more = ofNames (names ++ more) := by
  simp [add, ofNames]

end Rights

namespace Instr

mutual

/-- An instruction and those nested in it read and write only names that they have the rights to. -/
def Scoped : Rights → Instr → Prop
  | rights, .init _ _ value => rights.Reads value
  | rights, .branch test onTrue onFalse _ =>
    rights.Reads test ∧ ScopedAll rights onTrue ∧ ScopedAll rights onFalse
  | rights, .loop body => ScopedAll rights body
  | rights, .call dest _ args => (∀ arg ∈ args, rights.Reads arg) ∧ rights.writes dest.root
  | rights, .convert dest value => rights.Reads value ∧ rights.writes dest.root
  | rights, .assign dest value => rights.Reads value ∧ rights.writes dest.root
  | rights, .copy dest value => rights.Reads value ∧ rights.writes dest.root
  | rights, .release _ name => rights.writes name
  | rights, .ret value => rights.Reads value
  | _, .decl _ _ => True
  | _, .alloc _ _ => True
  | _, .comment _ => True
  | _, .leave => True

def ScopedAll : Rights → List Instr → Prop
  | _, [] => True
  | rights, instr :: rest => instr.Scoped rights ∧ ScopedAll (rights.add instr.exposed) rest

end

theorem scopedAll_append {rights : Rights} {code rest : List Instr} :
    ScopedAll rights (code ++ rest) ↔
      ScopedAll rights code ∧ ScopedAll (rights.add (exposedAll code)) rest := by
  induction code generalizing rights with
  | nil => simp [ScopedAll]
  | cons instr code ih =>
    simp only [List.cons_append, ScopedAll, ih, exposedAll_cons, Rights.add_append, and_assoc]

mutual

theorem Scoped.wellScoped : ∀ {instr : Instr} {visible : List String},
    instr.Scoped (.ofNames visible) → instr.WellScoped visible
  | .branch _ _ _ _, _, h => ⟨h.1, ScopedAll.wellScopedAll h.2.1, ScopedAll.wellScopedAll h.2.2⟩
  | .loop _, _, h => ScopedAll.wellScopedAll h
  | .call _ _ _, _, h => by
    refine List.cons_subset.mpr ⟨h.2, fun name hname => ?_⟩
    obtain ⟨arg, harg, hname⟩ := List.mem_flatMap.mp hname
    exact h.1 arg harg name hname
  | .convert _ _, _, h | .assign _ _, _, h | .copy _ _, _, h => List.cons_subset.mpr ⟨h.2, h.1⟩
  | .release _ _, _, h => List.cons_subset.mpr ⟨h, List.nil_subset _⟩
  | .init _ _ _, _, h | .ret _, _, h => h
  | .decl _ _, _, _ | .alloc _ _, _, _ | .comment _, _, _ | .leave, _, _ => List.nil_subset _

theorem ScopedAll.wellScopedAll : ∀ {code : List Instr} {visible : List String},
    ScopedAll (.ofNames visible) code → WellScopedAll visible code
  | [], _, _ => trivial
  | instr :: rest, visible, h => by
    refine ⟨Scoped.wellScoped h.1, ScopedAll.wellScopedAll ?_⟩
    rw [← Rights.ofNames_add]
    exact h.2

end

end Instr

end IsaBackend
