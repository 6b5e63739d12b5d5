import IsaBackend.CText.Layout

/-!
# The order of layouts

A layout is written when a visit meets its representation for the first time, behind the layouts
that the visit of its contents has written. What keeps suffixes apart along the way is size: with
one shape for each suffix, nothing contains a representation of its own suffix.
-/

namespace IsaBackend

namespace Rep

/-! ## Contents and shapes -/

/-- What an aggregate contains by value: its elements, fields or payloads. -/
def contents : Rep → List Rep
  | tuple elems => elems
  | struct _ fields => fields.map Prod.snd
  | union _ ctors => ctors.map Prod.snd
  | _ => []

def isTuple : Rep → Bool
  | tuple _ => true
  | _ => false

/-- Whether a representation has a layout of its own. -/
def isAggregate : Rep → Bool
  | struct _ _ => true
  | enum _ _ => true
  | union _ _ => true
  | rep => rep.isTuple

mutual

/-- A representation and all that it contains by value, at any depth. -/
def parts : Rep → List Rep
  | tuple elems => tuple elems :: partsAll elems
  | struct name fields => struct name fields :: partsFields fields
  | union name ctors => union name ctors :: partsFields ctors
  | rep => [rep]

def partsAll : List Rep → List Rep
  | [] => []
  | rep :: rest => rep.parts ++ partsAll rest

def partsFields : List (String × Rep) → List Rep
  | [] => []
  | (_, rep) :: rest => rep.parts ++ partsFields rest

end

mutual

/-- A representation up to the widths and the orders of bit-vectors. -/
def shape : Rep → Rep
  | wideBits _ => wideBits .dec
  | packedBits _ _ => packedBits 0 .dec
  | tuple elems => tuple (shapes elems)
  | struct name fields => struct name (fieldShapes fields)
  | union name ctors => union name (fieldShapes ctors)
  | ref inner => ref inner.shape
  | rep => rep

def shapes : List Rep → List Rep
  | [] => []
  | rep :: rest => rep.shape :: shapes rest

def fieldShapes : List (String × Rep) → List (String × Rep)
  | [] => []
  | (name, rep) :: rest => (name, rep.shape) :: fieldShapes rest

end

private theorem partsAll_eq (reps : List Rep) : partsAll reps = reps.flatMap parts := by
  induction reps with
  | nil => rfl
  | cons rep rest ih => rw [partsAll, ih, List.flatMap_cons]

private theorem partsFields_eq (fields : List (String × Rep)) :
    partsFields fields = (fields.map Prod.snd).flatMap parts := by
  induction fields with
  | nil => rfl
  | cons field rest ih => rw [partsFields, ih, List.map_cons, List.flatMap_cons]

private theorem parts_eq (rep : Rep) : rep.parts = rep :: rep.contents.flatMap parts := by
  cases rep <;> simp [parts, contents, partsAll_eq, partsFields_eq]

end Rep

/-- Representations of one suffix differ at most in the widths and orders of bit-vectors. -/
def OneShapeEach (reps : List Rep) : Prop :=
  ∀ left ∈ reps, ∀ right ∈ reps, left.suffix = right.suffix → left.shape = right.shape

instance (reps : List Rep) : Decidable (OneShapeEach reps) :=
  inferInstanceAs (Decidable (∀ left ∈ reps, ∀ right ∈ reps, _ → _))

private theorem OneShapeEach.mono {reps more : List Rep} (h : OneShapeEach more)
    (hsub : reps ⊆ more) : OneShapeEach reps :=
  fun left hleft right hright => h left (hsub hleft) right (hsub hright)

namespace Layout

/-- What is found when roots are searched for representations of some kind: all that was seen
before, every root of the kind up to its suffix, and nothing but parts of the roots. -/
structure Gathers (wanted : Rep → Bool) (seen roots next : List Rep) : Prop where
  kept : seen ⊆ next
  found : ∀ rep ∈ roots, wanted rep = true → rep.suffix ∈ next.map Rep.suffix
  source : ∀ rep ∈ next, rep ∈ seen ∨ wanted rep = true ∧ rep ∈ roots.flatMap Rep.parts

namespace Gathers

variable {wanted : Rep → Bool} {seen middle next roots more : List Rep} {rep : Rep}

private theorem nil : Gathers wanted seen [] seen :=
  ⟨List.Subset.refl seen, fun _ hrep => absurd hrep List.not_mem_nil, fun _ hrep => .inl hrep⟩

private theorem append (h : Gathers wanted seen roots middle)
    (hmore : Gathers wanted middle more next) : Gathers wanted seen (roots ++ more) next := by
  refine ⟨List.Subset.trans h.kept hmore.kept, fun rep hrep hwanted => ?_, fun rep hrep => ?_⟩
  · rcases List.mem_append.mp hrep with hrep | hrep
    · exact List.map_subset _ hmore.kept (h.found rep hrep hwanted)
    · exact hmore.found rep hrep hwanted
  · rw [List.flatMap_append]
    rcases hmore.source rep hrep with hrep | ⟨hwanted, hrep⟩
    · rcases h.source rep hrep with hrep | ⟨hwanted, hrep⟩
      · exact .inl hrep
      · exact .inr ⟨hwanted, List.mem_append_left _ hrep⟩
    · exact .inr ⟨hwanted, List.mem_append_right _ hrep⟩

/-- A root of another kind, or one that was seen before. -/
theorem skip (h : wanted rep = true → rep.suffix ∈ seen.map Rep.suffix) :
    Gathers wanted seen [rep] seen :=
  ⟨List.Subset.refl seen, by simpa using h, fun _ hrep => .inl hrep⟩

/-- A root behind its contents. -/
theorem add (h : Gathers wanted seen rep.contents middle) (hwanted : wanted rep = true) :
    Gathers wanted seen [rep] (middle ++ [rep]) := by
  refine ⟨fun other hother => List.mem_append_left _ (h.kept hother), ?_, fun other hother => ?_⟩
  · simp
  · rw [List.flatMap_singleton, Rep.parts_eq]
    rcases List.mem_append.mp hother with hother | hother
    · rcases h.source other hother with hother | ⟨hkind, hother⟩
      · exact .inl hother
      · exact .inr ⟨hkind, List.mem_cons_of_mem _ hother⟩
    · obtain rfl := List.mem_singleton.mp hother
      exact .inr ⟨hwanted, List.mem_cons_self⟩

private theorem foldl {act : List Rep → Rep → List Rep} (roots : List Rep)
    (h : ∀ rep ∈ roots, ∀ seen, Gathers wanted seen [rep] (act seen rep)) (seen : List Rep) :
    Gathers wanted seen roots (roots.foldl act seen) := by
  induction roots generalizing seen with
  | nil => exact .nil
  | cons rep rest ih =>
    exact (h rep List.mem_cons_self seen).append
      (ih (fun other hother => h other (List.mem_cons_of_mem rep hother)) (act seen rep))

end Gathers

/-! ## One visit -/

/-- Layouts in an order in which C accepts them: each suffix once, and contents first. -/
inductive Arranged : List Rep → Prop where
  | nil : Arranged []
  | snoc {done : List Rep} {rep : Rep} : Arranged done → rep.suffix ∉ done.map Rep.suffix →
      (∀ part ∈ rep.contents, part.isAggregate = true → part.suffix ∈ done.map Rep.suffix) →
      Arranged (done ++ [rep])

private theorem Arranged.nodup {layouts : List Rep} (h : Arranged layouts) :
    (layouts.map Rep.suffix).Nodup := by
  induction h with
  | nil => exact List.nodup_nil
  | snoc _ hnew _ ih =>
    rw [List.map_append, List.map_singleton]
    exact List.nodup_append.mpr ⟨ih, List.pairwise_singleton _ _, by
      rintro suffix hsuffix _ hlast rfl
      exact hnew (List.mem_singleton.mp hlast ▸ hsuffix)⟩

mutual

/-- The representations of the locals that an instruction and those nested in it introduce or
release, and of the results of conditionals. -/
def instrStorage : Instr → List Rep
  | .decl rep _ => [rep]
  | .alloc rep _ => [rep]
  | .init rep _ _ => [rep]
  | .release rep _ => [rep]
  | .branch _ onTrue onFalse rep => rep :: (bodyStorage onTrue ++ bodyStorage onFalse)
  | .loop body => bodyStorage body
  | _ => []

def bodyStorage : List Instr → List Rep
  | [] => []
  | instr :: rest => instrStorage instr ++ bodyStorage rest

end

def routineStorage (routine : Routine) : List Rep :=
  routine.result :: routine.params.map Prod.snd ++ bodyStorage routine.body

/-- The representations of registers, results, parameters, locals and conditionals. -/
def storage (program : Program) : List Rep :=
  program.registers.map Prod.snd ++ program.routines.flatMap routineStorage

mutual

theorem addInstrTuples_eq (seen : List Rep) : ∀ instr : Instr,
    addInstrTuples seen instr = (instrStorage instr).foldl addTuples seen
  | .branch _ onTrue onFalse rep => by
    rw [addInstrTuples, instrStorage, addBodyTuples_eq _ onTrue, addBodyTuples_eq _ onFalse,
      List.foldl_cons, List.foldl_append]
  | .loop body => addBodyTuples_eq seen body
  | .decl _ _ | .alloc _ _ | .init _ _ _ | .release _ _ | .call _ _ _ | .convert _ _
  | .assign _ _ | .copy _ _ | .ret _ | .comment _ | .leave => rfl

private theorem addBodyTuples_eq (seen : List Rep) : ∀ body : List Instr,
    addBodyTuples seen body = (bodyStorage body).foldl addTuples seen
  | [] => rfl
  | instr :: rest => by
    rw [addBodyTuples, bodyStorage, addInstrTuples_eq seen instr, addBodyTuples_eq _ rest,
      List.foldl_append]

end

/-- The representations that a program declares, with all that they contain. -/
def used (program : Program) : List Rep :=
  (program.layouts ++ storage program).flatMap Rep.parts

/-- A union whose payload is a tuple of an enumeration, a struct around the union, and storage for
nested tuples in a loop. -/
def nested : Program where
  items := [
    .layout (.struct "frame" [("top", sum), ("rest", .tuple [.machInt, .bigInt])]),
    .layout (.enum "mode" ["User", "Machine"]),
    .layout sum,
    .register "pc" (.packedBits 32 .dec),
    .routine {
      name := "step"
      params := [("pair", .tuple [.packedBits 8 .dec, .string])]
      result := .unit
      body := [.loop [.decl (.tuple [.packedBits 16 .inc, .string]) "x",
        .alloc (.tuple [sum, .tuple [.machInt, .bigInt]]) "y", .leave]] }]
where
  sum : Rep := .union "sum" [("Left", .tuple [.enum "mode" ["User", "Machine"], .bool])]

end Layout

end IsaBackend
