import IsaBackend.Proofs.Code.Scope
import IsaBackend.Proofs.Code.Tidy

/-!
# What code may do with names

Two things are asked of the names in a piece of code. The lifetime discipline follows the storage
that is live, and scoping follows the declarations. Both have the same rules for putting code
together, so that code can be built for both at once.
-/

namespace IsaBackend

open Instr

private theorem Inline.names_subset (expr : Inline) : expr.names ⊆ expr.occurrences := by
  induction expr with
  | name key => exact List.Subset.refl _
  | field record key ih => exact ih
  | not operand ih => exact ih
  | binary op left right ihLeft ihRight =>
    exact List.append_subset.mpr ⟨List.subset_append_of_subset_left _ ihLeft,
      List.subset_append_of_subset_right _ ihRight⟩
  | _ => exact List.nil_subset _

/-- What is asked of code. -/
inductive Access where
  | lifetime (disc : Discipline)
  | scope (rights : Rights)

namespace Access

/-- A condition that only the lifetime discipline asks for. -/
def IfLifetime : Access → Prop → Prop
  | lifetime _, condition => condition
  | scope _, _ => True

/-- A name may be read while some storage is live. -/
def MayRead : Access → List String → String → Prop
  | lifetime disc, live, name => disc.Usable live name
  | scope rights, _, name => rights.reads name

/-- A name may be written or released while some storage is live. -/
def MayWrite : Access → List String → String → Prop
  | lifetime disc, live, name => disc.Usable live name
  | scope rights, _, name => rights.writes name

def MayUse (acc : Access) (live : List String) (name : String) : Prop :=
  acc.MayRead live name ∧ acc.MayWrite live name

/-- A name may be used whatever is live. -/
def Keeps (acc : Access) (name : String) : Prop := ∀ live, acc.MayUse live name

/-- Every name that an operand reads may be read. -/
def Reads : Access → List String → Operand → Prop
  | lifetime disc, live, operand => disc.Reads live operand
  | scope rights, _, operand => rights.Reads operand

/-- A discipline divides the introduced names the way the code does. -/
def Covers : Access → List (String × Bool) → Prop
  | lifetime disc, names => disc.Covers names
  | scope _, _ => True

/-- What may be done after some code. -/
def after : Access → List Instr → Access
  | lifetime disc, _ => lifetime disc
  | scope rights, code => scope (rights.add (exposedAll code))

/-- Code is accepted from a stack of live names on, so that a condition holds of the stack when it
falls through. -/
def Accepts : Access → Option (List String) → List String → List Instr →
    (List String → Prop) → Prop
  | lifetime disc, entry, live, code, post => TidyAll disc entry live code post
  | scope rights, _, _, code, _ => ScopedAll rights code

/-- One may do more, under the same rules. -/
inductive Le : Access → Access → Prop
  | lifetime (disc : Discipline) : Le (.lifetime disc) (.lifetime disc)
  | scope {less more : Rights} (hreads : ∀ name, less.reads name → more.reads name)
    (hwrites : ∀ name, less.writes name → more.writes name) : Le (.scope less) (.scope more)

variable {acc more : Access} {live wider : List String} {name : String}

theorem ifLifetime {condition : Prop} (h : condition) : acc.IfLifetime condition := by
  cases acc with
  | lifetime disc => exact h
  | scope rights => trivial

theorem IfLifetime.imp {condition other : Prop} (h : acc.IfLifetime condition)
    (himp : condition → other) : acc.IfLifetime other := by
  cases acc with
  | lifetime disc => exact himp h
  | scope rights => trivial

theorem ifLifetime_after {condition : Prop} (code : List Instr) :
    (acc.after code).IfLifetime condition ↔ acc.IfLifetime condition := by
  cases acc <;> rfl

theorem covers_after {names : List (String × Bool)} (code : List Instr) :
    (acc.after code).Covers names ↔ acc.Covers names := by
  cases acc <;> rfl

theorem covers_append {names others : List (String × Bool)} :
    acc.Covers (names ++ others) ↔ acc.Covers names ∧ acc.Covers others := by
  cases acc with
  | lifetime disc => exact Discipline.covers_append
  | scope rights => exact (and_self_iff).symm

theorem after_append (code rest : List Instr) :
    acc.after (code ++ rest) = (acc.after code).after rest := by
  cases acc with
  | lifetime disc => rfl
  | scope rights => simp only [after, exposedAll_append, Rights.add_append]

theorem after_of_exposes_nil {code : List Instr} (h : exposedAll code = []) :
    acc.after code = acc := by
  cases acc with
  | lifetime disc => rfl
  | scope rights => simp only [after, h, Rights.add_nil]

theorem Le.refl (acc : Access) : acc.Le acc := by
  cases acc with
  | lifetime disc => exact .lifetime disc
  | scope rights => exact .scope (fun _ h => h) fun _ h => h

theorem Le.trans {last : Access} (h : acc.Le more) (hnext : more.Le last) : acc.Le last := by
  cases h with
  | lifetime disc => exact hnext
  | scope hreads hwrites =>
    cases hnext with
    | scope hmore hothers =>
      exact .scope (fun _ h => hmore _ (hreads _ h)) fun _ h => hothers _ (hwrites _ h)

theorem le_after (acc : Access) (code : List Instr) : acc.Le (acc.after code) := by
  cases acc with
  | lifetime disc => exact .lifetime disc
  | scope rights => exact .scope (fun _ => .inl) fun _ => .inl

private theorem MayRead.mono (h : acc.MayRead live name) (hle : acc.Le more)
    (hsub : ∀ other ∈ live, other ∈ wider) : more.MayRead wider name := by
  cases hle with
  | lifetime disc => exact Discipline.Usable.mono h hsub
  | scope hreads _ => exact hreads _ h

theorem MayWrite.mono (h : acc.MayWrite live name) (hle : acc.Le more)
    (hsub : ∀ other ∈ live, other ∈ wider) : more.MayWrite wider name := by
  cases hle with
  | lifetime disc => exact Discipline.Usable.mono h hsub
  | scope _ hwrites => exact hwrites _ h

theorem MayUse.mono (h : acc.MayUse live name) (hle : acc.Le more)
    (hsub : ∀ other ∈ live, other ∈ wider) : more.MayUse wider name :=
  ⟨h.1.mono hle hsub, h.2.mono hle hsub⟩

theorem Keeps.mono (h : acc.Keeps name) (hle : acc.Le more) : more.Keeps name :=
  fun live => (h live).mono hle fun _ hn => hn

theorem Reads.mono {operand : Operand} (h : acc.Reads live operand) (hle : acc.Le more)
    (hsub : ∀ other ∈ live, other ∈ wider) : more.Reads wider operand := by
  cases hle with
  | lifetime disc => exact Discipline.Reads.mono h hsub
  | scope hreads _ => exact fun other ho => hreads _ (h other ho)

theorem mayWrite_exposed {code : List Instr} (hexposed : name ∈ exposedAll code)
    (hlive : name ∈ live) : (acc.after code).MayWrite live name := by
  cases acc with
  | lifetime disc => exact Discipline.usable_of_mem hlive
  | scope rights => exact .inr hexposed

theorem mayRead_exposed {code : List Instr} (hexposed : name ∈ exposedAll code)
    (hlive : name ∈ live) : (acc.after code).MayRead live name := by
  cases acc with
  | lifetime disc => exact Discipline.usable_of_mem hlive
  | scope rights => exact .inr hexposed

/-- A local without storage is never released. -/
theorem keeps_declared {code : List Instr} (rep : Rep) (hmem : .decl rep name ∈ code)
    (hcov : acc.Covers (introducedAll code)) : (acc.after code).Keeps name := by
  intro live
  cases acc with
  | lifetime disc =>
    obtain ⟨before, rest, rfl⟩ := List.append_of_mem hmem
    have hintroduced : (name, false) ∈ introducedAll (before ++ .decl rep name :: rest) := by
      simp [introducedAll, introduced]
    have hunowned : ¬disc.owns name := fun howns => by
      simpa using (hcov _ hintroduced).mp howns
    exact ⟨Discipline.usable_of_not_owns hunowned live, Discipline.usable_of_not_owns hunowned live⟩
  | scope rights =>
    have hexposed : name ∈ exposedAll code :=
      List.mem_flatMap.mpr ⟨_, hmem, List.mem_singleton_self name⟩
    exact ⟨.inr hexposed, .inr hexposed⟩

theorem reads_name (h : acc.MayRead live name) (rep : Rep) : acc.Reads live (.name name rep) := by
  cases acc with
  | lifetime disc => exact Discipline.reads_name h
  | scope rights => exact fun _ hn => List.mem_singleton.mp hn ▸ h

theorem reads_inline {expr : Inline} (hfits : expr.fitsMachineWord = true)
    (h : ∀ other ∈ expr.occurrences, acc.MayRead live other) (rep : Rep) :
    acc.Reads live (.inline expr rep) := by
  cases acc with
  | lifetime disc => exact ⟨hfits, fun other ho => h other (expr.names_subset ho)⟩
  | scope rights => exact h

theorem reads_constant {expr : Inline} (hfits : expr.fitsMachineWord = true)
    (hnone : expr.occurrences = []) (rep : Rep) : acc.Reads live (.inline expr rep) :=
  reads_inline hfits (fun other ho => absurd (hnone ▸ ho : other ∈ []) List.not_mem_nil) rep

/-! ## What is accepted -/

section Accepts

variable {entry : Option (List String)} {post : List String → Prop} {rep : Rep} {value : Operand}

theorem accepts_nil (hpost : post live) : acc.Accepts entry live [] post := by
  cases acc with
  | lifetime disc => exact hpost
  | scope rights => trivial

/-- Code after code that falls through with some stack. -/
theorem Accepts.append {code rest : List Instr} {middle : List String}
    (h : ∀ next : List String → Prop, next middle → acc.Accepts entry live code next)
    (hrest : (acc.after code).Accepts entry middle rest post) :
    acc.Accepts entry live (code ++ rest) post := by
  cases acc with
  | lifetime disc => exact (tidyAll_append code rest).mpr (h _ hrest)
  | scope rights => exact scopedAll_append.mpr ⟨h (fun _ => True) trivial, hrest⟩

theorem accepts_decl (hcov : acc.Covers [(name, false)]) (hpost : post live) :
    acc.Accepts entry live [.decl rep name] post := by
  cases acc with
  | lifetime disc =>
    refine ⟨fun howns => ?_, hpost⟩
    simpa using (hcov (name, false) List.mem_cons_self).mp howns
  | scope rights => exact ⟨trivial, trivial⟩

theorem accepts_alloc (hcov : acc.Covers [(name, true)]) (hnew : acc.IfLifetime (name ∉ live))
    (hpost : post (name :: live)) : acc.Accepts entry live [.alloc rep name] post := by
  cases acc with
  | lifetime disc => exact ⟨(hcov (name, true) List.mem_cons_self).mpr rfl, hnew, hpost⟩
  | scope rights => exact ⟨trivial, trivial⟩

theorem accepts_init (hreads : acc.Reads live value) (hcov : acc.Covers [(name, true)])
    (hnew : acc.IfLifetime (name ∉ live)) (hpost : post (name :: live)) :
    acc.Accepts entry live [.init rep name value] post := by
  cases acc with
  | lifetime disc => exact ⟨hreads, (hcov (name, true) List.mem_cons_self).mpr rfl, hnew, hpost⟩
  | scope rights => exact ⟨hreads, trivial⟩

/-- An instruction that reads a value and writes a place. -/
theorem accepts_move {instr : Instr} {dest : Place}
    (hinstr : instr = .assign dest value ∨ instr = .copy dest value ∨ instr = .convert dest value)
    (hreads : acc.Reads live value) (hdest : acc.MayWrite live dest.root) (hpost : post live) :
    acc.Accepts entry live [instr] post := by
  rcases hinstr with rfl | rfl | rfl <;> cases acc with
  | lifetime disc => exact ⟨hreads, hdest, hpost⟩
  | scope rights => exact ⟨⟨hreads, hdest⟩, trivial⟩

theorem accepts_call {dest : Place} {callee : String} {args : List Operand}
    (hreads : ∀ arg ∈ args, acc.Reads live arg) (hdest : acc.MayWrite live dest.root)
    (hpost : post live) : acc.Accepts entry live [.call dest callee args] post := by
  cases acc with
  | lifetime disc => exact ⟨hreads, hdest, hpost⟩
  | scope rights => exact ⟨⟨hreads, hdest⟩, trivial⟩

theorem accepts_comment (text : String) (hpost : post live) :
    acc.Accepts entry live [.comment text] post := by
  cases acc with
  | lifetime disc => exact hpost
  | scope rights => exact ⟨trivial, trivial⟩

theorem accepts_ret (hreads : acc.Reads [] value) : acc.Accepts entry [] [.ret value] post := by
  cases acc with
  | lifetime disc => exact ⟨hreads, rfl⟩
  | scope rights => exact ⟨hreads, trivial⟩

theorem accepts_branch {test : Operand} {onTrue onFalse : List Instr} (hreads : acc.Reads live test)
    (htrue : acc.Accepts entry live onTrue post) (hfalse : acc.Accepts entry live onFalse post) :
    acc.Accepts entry live [.branch test onTrue onFalse rep] post := by
  cases acc with
  | lifetime disc => exact ⟨hreads, htrue, hfalse⟩
  | scope rights => exact ⟨⟨hreads, htrue, hfalse⟩, trivial⟩

theorem accepts_loop {body : List Instr} (h : acc.Accepts (some live) live body (· = live))
    (hpost : post live) : acc.Accepts entry live [.loop body] post := by
  cases acc with
  | lifetime disc => exact ⟨h, hpost⟩
  | scope rights => exact ⟨h, trivial⟩

theorem accepts_leave : acc.Accepts (some live) live [.leave] post := by
  cases acc with
  | lifetime disc => rfl
  | scope rights => exact ⟨trivial, trivial⟩

end Accepts

end Access

end IsaBackend
