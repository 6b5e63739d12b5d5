import IsaBackend.Proofs.Code.Access
import IsaBackend.Proofs.Effects
import IsaBackend.Proofs.Names
import IsaBackend.Proofs.Staging.Emission
import IsaBackend.Proofs.Term.Mentions

/-!
# Code between two states of staging

While a function is staged, the state knows which storage the code so far leaves live. A piece of
code belongs to the states before and after it: it introduces names that were not taken before,
and moves the stack of live names from the one state to the other. What it leaves live is declared
by it, and a cleanup goes with it that releases this storage, last one first. Its instructions are
of the kinds that staging emits, as long as live storage has a heap representation. Such pieces can
be put one after the other.
-/

namespace IsaBackend

def Surroundings.bare : Surroundings := ⟨{}, ({} : Declarations).interface⟩

/-- The names that the code of a function may introduce: generated ones from a number on, and
names that its source binds. -/
structure Naming where
  base : Nat
  bound : List String

/-- Where the code of a function is staged, with the names that it may introduce and the sites of
its source. -/
structure Plan extends Naming where
  around : Surroundings
  sites : List Site

instance : Coe Plan Naming := ⟨Plan.toNaming⟩

namespace StagingState

/-- The names of the live storage. -/
def stack (state : StagingState) : List String := state.live.map Prod.fst

/-- The code of the function has introduced a name already. -/
def Taken (naming : Naming) (state : StagingState) (name : String) : Prop :=
  (∃ number, naming.base ≤ number ∧ number < state.names.next ∧
    name = FreshNames.name number) ∨
  name ∈ state.declared ∧ name ∈ naming.bound

/-- The names that the source binds are not generated from the base on, and all live names were
introduced by the code. -/
structure Ready (naming : Naming) (state : StagingState) : Prop where
  below : ∀ name ∈ naming.bound, ∀ number, name = FreshNames.name number → number < naming.base
  base_le : naming.base ≤ state.names.next
  taken : ∀ name ∈ state.stack, state.Taken naming name

/-- All storage that is live has a heap representation. -/
def LiveOnHeap (state : StagingState) : Prop := ∀ entry ∈ state.live, entry.2.isStack = false

def SameScope (before after : StagingState) : Prop :=
  ∀ name, after.locals.get? name = before.locals.get? name

theorem SameScope.trans {before middle after : StagingState} (h : before.SameScope middle)
    (hnext : middle.SameScope after) : before.SameScope after :=
  fun name => (hnext name).trans (h name)

/-- From one state to another, names are only added and the scope stays the same. -/
structure Leads (before after : StagingState) : Prop where
  next : before.names.next ≤ after.names.next
  declared : ∀ name ∈ before.declared, name ∈ after.declared
  locals : ∀ name, after.locals.get? name = before.locals.get? name

variable {naming : Naming} {before middle after : StagingState}

theorem Leads.refl (state : StagingState) : state.Leads state :=
  ⟨Nat.le_refl _, fun _ h => h, fun _ => rfl⟩

theorem Leads.trans (h : before.Leads middle) (hnext : middle.Leads after) :
    before.Leads after where
  next := Nat.le_trans h.next hnext.next
  declared := fun name hn => hnext.declared name (h.declared name hn)
  locals := fun name => (hnext.locals name).trans (h.locals name)

theorem Taken.mono {name : String} (h : before.Taken naming name) (hleads : before.Leads after) :
    after.Taken naming name := by
  rcases h with ⟨number, hbase, hlt, hname⟩ | ⟨hdeclared, hbound⟩
  · exact .inl ⟨number, hbase, Nat.lt_of_lt_of_le hlt hleads.next, hname⟩
  · exact .inr ⟨hleads.declared name hdeclared, hbound⟩

theorem Ready.not_taken_next (h : before.Ready naming) :
    ¬before.Taken naming (FreshNames.name before.names.next) := by
  rintro (⟨number, _, hlt, hname⟩ | ⟨_, hbound⟩)
  · rw [FreshNames.name_inj] at hname
    omega
  · have := h.below _ hbound _ rfl
    have := h.base_le
    omega

/-- Names that were not taken before and are taken afterwards, all of them distinct. -/
def Introduces (naming : Naming) (before after : StagingState) (names : List (String × Bool)) :
    Prop :=
  (names.map Prod.fst).Nodup ∧
    ∀ entry ∈ names, ¬before.Taken naming entry.1 ∧ after.Taken naming entry.1

theorem Introduces.nil : Introduces naming before after [] :=
  ⟨List.nodup_nil, by simp⟩

theorem Introduces.append {names more : List (String × Bool)}
    (h : Introduces naming before middle names) (hmore : Introduces naming middle after more)
    (hleads : before.Leads middle) (hnext : middle.Leads after) :
    Introduces naming before after (names ++ more) := by
  refine ⟨?_, ?_⟩
  · rw [List.map_append, List.nodup_append]
    refine ⟨h.1, hmore.1, ?_⟩
    intro name hn other ho heq
    obtain ⟨entry, he, rfl⟩ := List.mem_map.mp hn
    obtain ⟨later, hl, rfl⟩ := List.mem_map.mp ho
    exact (hmore.2 later hl).1 (heq ▸ (h.2 entry he).2)
  · intro entry he
    rcases List.mem_append.mp he with he | he
    · exact ⟨(h.2 entry he).1, (h.2 entry he).2.mono hnext⟩
    · exact ⟨fun ht => (hmore.2 entry he).1 (ht.mono hleads), (hmore.2 entry he).2⟩

theorem Introduces.perm {names others : List (String × Bool)}
    (h : Introduces naming before after names) (hperm : others.Perm names) :
    Introduces naming before after others :=
  ⟨(hperm.map Prod.fst).nodup_iff.mpr h.1, fun entry he => h.2 entry (hperm.mem_iff.mp he)⟩

/-- The code of the function cannot have introduced a name yet. -/
def Unclaimed (state : StagingState) (name : String) : Prop :=
  name ∉ state.declared ∨ ∃ number, state.names.next ≤ number ∧ name = FreshNames.name number

theorem Unclaimed.earlier {name : String} (h : after.Unclaimed name) (hleads : before.Leads after) :
    before.Unclaimed name := by
  rcases h with hnot | ⟨number, hle, hname⟩
  · exact .inl fun hmem => hnot (hleads.declared name hmem)
  · exact .inr ⟨number, Nat.le_trans hleads.next hle, hname⟩

/-- What the code calls a name that is used in the source. -/
def codeName (state : StagingState) : Mention → String
  | .source name =>
    match state.locals.get? name with
    | some entry => entry.name
    | none => name
  | .verbatim name => name

theorem Leads.codeName (h : before.Leads after) (use : Mention) :
    after.codeName use = before.codeName use := by
  cases use with
  | source name => simp only [StagingState.codeName, h.locals]
  | verbatim name => rfl

def Permits (state : StagingState) (usage : Usage) : Access → Prop
  | .lifetime disc => ∀ use ∈ usage.tracked, disc.Usable state.stack (state.codeName use)
  | .scope rights => (∀ use ∈ usage.read, rights.reads (state.codeName use)) ∧
    ∀ target ∈ usage.written, rights.writes (state.codeName (.source target))

/-- The code may use every name that is used in the source, and all that a return writes and
releases. -/
structure Allows (acc : Access) (state : StagingState) (usage : Usage) : Prop where
  uses : state.Permits usage acc
  live : ∀ entry ∈ state.live, acc.MayWrite state.stack entry.1
  result : acc.MayWrite state.stack Routine.resultParam

namespace Allows

variable {acc more : Access} {state : StagingState} {usage fewer : Usage}

theorem subset (h : state.Allows acc usage) (hsub : fewer ⊆ usage) : state.Allows acc fewer := by
  refine ⟨?_, h.live, h.result⟩
  have huses := h.uses
  cases acc with
  | lifetime disc => exact fun use hu => huses use (hsub.1 hu)
  | scope rights =>
    exact ⟨fun use hu => huses.1 use (hsub.2.1 hu), fun target ht => huses.2 target (hsub.2.2 ht)⟩

theorem left (h : state.Allows acc (usage ++ fewer)) : state.Allows acc usage :=
  h.subset (usage.subset_append_left fewer)

theorem right (h : state.Allows acc (usage ++ fewer)) : state.Allows acc fewer :=
  h.subset (usage.subset_append_right fewer)

theorem mayRead_name {name : String} {cls : NameClass} {ty : Ty}
    (h : state.Allows acc (Atom.name name cls ty).usage) :
    acc.MayRead state.stack (state.codeName (.source name)) := by
  have huses := h.uses
  cases acc with
  | lifetime disc => exact huses _ List.mem_cons_self
  | scope rights => exact huses.1 _ List.mem_cons_self

private theorem mono (h : before.Allows acc usage) (hleads : before.Leads after) (hle : acc.Le more)
    (hstack : ∀ name ∈ before.stack, name ∈ after.stack)
    (hlive : ∀ entry ∈ after.live, more.MayWrite after.stack entry.1) :
    after.Allows more usage := by
  refine ⟨?_, hlive, h.result.mono hle hstack⟩
  have huses := h.uses
  cases hle with
  | lifetime disc =>
    intro use hu
    rw [hleads.codeName]
    exact (huses use hu).mono hstack
  | scope hreads hwrites =>
    refine ⟨fun use hu => ?_, fun target ht => ?_⟩
    · rw [hleads.codeName]
      exact hreads _ (huses.1 use hu)
    · rw [hleads.codeName]
      exact hwrites _ (huses.2 target ht)

theorem later (h : state.Allows acc usage) (hle : acc.Le more) : state.Allows more usage :=
  h.mono (.refl state) hle (fun _ hn => hn) fun entry he =>
    (h.live entry he).mono hle fun _ hn => hn

theorem mayWrite_target {target : String} {ty : Ty} {value : Term}
    (h : state.Allows acc (Term.assign target ty value).usage) :
    acc.MayWrite state.stack (state.codeName (.source target)) := by
  have huses := h.uses
  cases acc with
  | lifetime disc => exact huses _ List.mem_cons_self
  | scope rights => exact huses.2 _ List.mem_cons_self

end Allows

end StagingState

def releases (entries : List (String × Rep)) : List Instr :=
  entries.map fun (name, rep) => .release rep name

theorem releases_append (entries more : List (String × Rep)) :
    releases (entries ++ more) = releases entries ++ releases more := List.map_append

theorem emittedAll_releases {around : Surroundings} {sites : List Site}
    {entries : List (String × Rep)} (h : ∀ entry ∈ entries, entry.2.isStack = false) :
    Instr.EmittedAll around sites (releases entries) := by
  induction entries with
  | nil => trivial
  | cons entry rest ih =>
    obtain ⟨hentry, hrest⟩ := List.forall_mem_cons.mp h
    exact ⟨Instr.Emitted.release hentry, ih hrest⟩

theorem introducedAll_releases (entries : List (String × Rep)) :
    Instr.introducedAll (releases entries) = [] := by
  induction entries with
  | nil => rfl
  | cons entry rest ih =>
    change [] ++ Instr.introducedAll (releases rest) = []
    rw [List.nil_append, ih]

/-- Releasing storage from the top of the stack down leaves the rest of the stack. -/
theorem Access.accepts_releases {acc : Access} {entry : Option (List String)}
    {post : List String → Prop} (live : List String) {rest : List String} (hpost : post rest)
    {entries : List (String × Rep)} (h : ∀ entry ∈ entries, acc.MayWrite live entry.1) :
    acc.Accepts entry (entries.map Prod.fst ++ rest) (releases entries) post := by
  induction entries with
  | nil => exact accepts_nil hpost
  | cons first entries ih =>
    obtain ⟨hfirst, hentries⟩ := List.forall_mem_cons.mp h
    have hrest := ih hentries
    cases acc with
    | lifetime disc => exact ⟨_, rfl, hrest⟩
    | scope rights =>
      refine ⟨hfirst, ?_⟩
      rw [show (Instr.release first.2 first.1).exposed = [] from rfl, Rights.add_nil]
      exact hrest

namespace StagingState

def withLive (state : StagingState) (live : List (String × Rep)) : StagingState :=
  { state with live }

theorem leads_withLive (state : StagingState) (live : List (String × Rep)) :
    state.Leads (state.withLive live) :=
  ⟨Nat.le_refl _, fun _ h => h, fun _ => rfl⟩

theorem Ready.withLive {naming : Naming} {state : StagingState} (h : state.Ready naming)
    {live : List (String × Rep)} (hlive : ∀ entry ∈ live, state.Taken naming entry.1) :
    (state.withLive live).Ready naming where
  below := h.below
  base_le := h.base_le
  taken := by
    intro name hn
    obtain ⟨entry, he, rfl⟩ := List.mem_map.mp hn
    exact (hlive entry he).mono (state.leads_withLive live)

private theorem stack_subset {before after : StagingState} {entries : List (String × Rep)}
    (h : after.live = entries ++ before.live) : ∀ name ∈ before.stack, name ∈ after.stack := by
  intro name hn
  rw [stack, h, List.map_append]
  exact List.mem_append_right _ hn

end StagingState

open StagingState

/-- A piece of code between two states, and the cleanup that goes with it. The code is accepted
where it introduces names the way it is expected to, as far as its needs are met. -/
structure Piece (plan : Plan) (needs : Access → Prop) (before after : StagingState)
    (setup cleanup : List Instr) : Prop where
  leads : before.Leads after
  ready : before.Ready plan → after.Ready plan
  introduces : before.Ready plan → Introduces plan before after (Instr.introducedAll setup)
  news : ∀ entry ∈ Instr.introducedAll setup, before.Unclaimed entry.1
  accepts : ∀ acc : Access, acc.IfLifetime (before.Ready plan) →
    acc.Covers (Instr.introducedAll setup) → needs acc → ∀ entry post, post after.stack →
      acc.Accepts entry before.stack setup post
  emitted : before.LiveOnHeap → Instr.EmittedAll plan.around plan.sites setup
  storage : ∃ entries, after.live = entries ++ before.live ∧ cleanup = releases entries ∧
    ∀ entry ∈ entries, entry.1 ∈ Instr.exposedAll setup ∧ entry.2.isStack = false

namespace Piece

variable {plan : Plan} {needs more : Access → Prop} {before middle after : StagingState}
  {code setup cleanup rest others : List Instr}

theorem nil (state : StagingState) : Piece plan needs state state [] [] where
  leads := .refl state
  ready := id
  introduces := fun _ => .nil
  news := nofun
  accepts := fun _ _ _ _ _ _ hpost => Access.accepts_nil hpost
  emitted := fun _ => trivial
  storage := ⟨[], rfl, rfl, nofun⟩

/-- What a piece leaves live has a heap representation too. -/
theorem liveOnHeap (h : Piece plan needs before after setup cleanup) (hheap : before.LiveOnHeap) :
    after.LiveOnHeap := by
  obtain ⟨entries, hlive, _, hentries⟩ := h.storage
  rw [LiveOnHeap, hlive]
  exact List.forall_mem_append.mpr ⟨fun entry he => (hentries entry he).2, hheap⟩

theorem weaken (h : Piece plan more before after setup cleanup)
    (himp : ∀ acc, needs acc → more acc) : Piece plan needs before after setup cleanup where
  leads := h.leads
  ready := h.ready
  introduces := h.introduces
  news := h.news
  accepts := fun acc hready hcov hneeds => h.accepts acc hready hcov (himp acc hneeds)
  emitted := h.emitted
  storage := h.storage

/-- Code one after the other. What the second part needs may rest on what the first part has
introduced. -/
theorem append (h : Piece plan needs before middle setup cleanup)
    (hrest : Piece plan more middle after rest others)
    (himp : ∀ acc : Access, acc.Covers (Instr.introducedAll setup) → needs acc →
      more (acc.after setup)) :
    Piece plan needs before after (setup ++ rest) (others ++ cleanup) where
  leads := h.leads.trans hrest.leads
  ready := fun hready => hrest.ready (h.ready hready)
  introduces := by
    intro hready
    rw [Instr.introducedAll_append]
    exact (h.introduces hready).append (hrest.introduces (h.ready hready)) h.leads hrest.leads
  news := by
    rw [Instr.introducedAll_append]
    exact List.forall_mem_append.mpr ⟨h.news, fun entry he => (hrest.news entry he).earlier h.leads⟩
  accepts := by
    intro acc hready hcov hneeds entry post hpost
    rw [Instr.introducedAll_append, Access.covers_append] at hcov
    refine .append (h.accepts acc hready hcov.1 hneeds entry) (hrest.accepts _ ?_ ?_
      (himp acc hcov.1 hneeds) entry post hpost)
    · exact (Access.ifLifetime_after setup).mpr (hready.imp h.ready)
    · exact (Access.covers_after setup).mpr hcov.2
  emitted := fun hheap =>
    Instr.emittedAll_append.mpr ⟨h.emitted hheap, hrest.emitted (h.liveOnHeap hheap)⟩
  storage := by
    obtain ⟨entries, hlive, rfl, hentries⟩ := h.storage
    obtain ⟨later, hlater, rfl, hexposed⟩ := hrest.storage
    refine ⟨later ++ entries, ?_, (releases_append _ _).symm, ?_⟩
    · rw [hlater, hlive, List.append_assoc]
    · rw [Instr.exposedAll_append]
      exact List.forall_mem_append.mpr
        ⟨fun entry he => (hexposed entry he).imp_left (List.mem_append_right _),
          fun entry he => (hentries entry he).imp_left (List.mem_append_left _)⟩

/-- Code that leaves nothing live, and then more code. -/
theorem followed (h : Piece plan needs before middle code [])
    (hrest : Piece plan more middle after rest cleanup)
    (himp : ∀ acc : Access, acc.Covers (Instr.introducedAll code) → needs acc →
      more (acc.after code)) : Piece plan needs before after (code ++ rest) cleanup := by
  simpa using h.append hrest himp

/-- Code, and then more code that leaves nothing live. -/
theorem extended (h : Piece plan needs before middle setup cleanup)
    (hrest : Piece plan more middle after rest [])
    (himp : ∀ acc : Access, acc.Covers (Instr.introducedAll setup) → needs acc →
      more (acc.after setup)) : Piece plan needs before after (setup ++ rest) cleanup :=
  h.append hrest himp

theorem step {state : StagingState} {instr : Instr} (hnames : instr.introduced = [])
    (hemitted : instr.Everywhere (Instr.Emitted plan.around plan.sites))
    (h : ∀ acc, needs acc → ∀ entry post, post state.stack →
      acc.Accepts entry state.stack [instr] post) :
    Piece plan needs state state [instr] [] where
  leads := .refl state
  ready := id
  introduces := fun _ => by simpa [hnames] using Introduces.nil
  news := by simp [hnames]
  accepts := fun acc _ _ => h acc
  emitted := fun _ => ⟨hemitted, trivial⟩
  storage := ⟨[], rfl, rfl, nofun⟩

theorem live_eq (h : Piece plan needs before after code []) : after.live = before.live := by
  obtain ⟨entries, hlive, hnil, _⟩ := h.storage
  obtain rfl : entries = [] := List.map_eq_nil_iff.mp hnil.symm
  exact hlive

theorem stack_eq (h : Piece plan needs before after code []) : after.stack = before.stack := by
  rw [stack, stack, h.live_eq]

theorem stack_subset (h : Piece plan needs before after setup cleanup) :
    ∀ name ∈ before.stack, name ∈ after.stack := by
  obtain ⟨entries, hlive, _⟩ := h.storage
  exact StagingState.stack_subset hlive

theorem mayWrite {acc : Access} {root : String} (h : Piece plan needs before after setup cleanup)
    (hroot : acc.MayWrite before.stack root) : (acc.after setup).MayWrite after.stack root :=
  hroot.mono (acc.le_after setup) h.stack_subset

/-- What was allowed before a piece is allowed after it, and so is the release of what it leaves
live. -/
theorem allows {acc : Access} {usage : Usage} (h : Piece plan needs before after setup cleanup)
    (hallows : before.Allows acc usage) : after.Allows (acc.after setup) usage := by
  obtain ⟨entries, hlive, _, hentries⟩ := h.storage
  refine hallows.mono h.leads (acc.le_after setup) h.stack_subset fun entry hentry => ?_
  have hmem : entry.1 ∈ after.stack := List.mem_map_of_mem hentry
  rw [hlive] at hentry
  rcases List.mem_append.mp hentry with hnew | hold
  · exact Access.mayWrite_exposed (hentries entry hnew).1 hmem
  · exact (hallows.live entry hold).mono (acc.le_after setup) h.stack_subset

/-- Code that leaves nothing live, and then more code that uses other names. -/
theorem joined {usage others : Usage}
    (h : Piece plan (fun acc => before.Allows acc usage) before middle code [])
    (hrest : Piece plan (fun acc => middle.Allows acc others) middle after rest cleanup) :
    Piece plan (fun acc => before.Allows acc (usage ++ others)) before after (code ++ rest)
      cleanup :=
  (h.weaken fun _ hallows => hallows.left).followed hrest fun _ _ hallows => h.allows hallows.right

/-- Code that leaves nothing live can be put into an arm, where what it declares is hidden. -/
theorem hidden {acc : Access} {usage : Usage} (h : Piece plan needs before after code [])
    (hallows : before.Allows acc usage) : after.Allows acc usage := by
  refine hallows.mono h.leads (.refl acc) h.stack_subset ?_
  rw [h.live_eq, h.stack_eq]
  exact hallows.live

/-- The cleanup ends a piece. -/
theorem settled (h : Piece plan needs before after setup cleanup) :
    Piece plan needs before (after.withLive before.live) (setup ++ cleanup) [] := by
  obtain ⟨entries, hlive, rfl, hentries⟩ := h.storage
  have hnames : Instr.introducedAll (setup ++ releases entries) = Instr.introducedAll setup := by
    rw [Instr.introducedAll_append, introducedAll_releases, List.append_nil]
  have hlater := h.leads.trans (after.leads_withLive before.live)
  refine ⟨hlater, fun hready => ?_, fun hready => ?_, ?_, ?_, fun hheap => ?_, [], rfl, rfl, nofun⟩
  · refine (h.ready hready).withLive fun entry he => ?_
    exact (hready.taken entry.1 (List.mem_map_of_mem he)).mono h.leads
  · rw [hnames]
    have hintroduces := h.introduces hready
    exact ⟨hintroduces.1, fun entry he =>
      ⟨(hintroduces.2 entry he).1, (hintroduces.2 entry he).2.mono (after.leads_withLive _)⟩⟩
  · rw [hnames]
    exact h.news
  · intro acc hready hcov hneeds entry post hpost
    rw [hnames] at hcov
    refine .append (h.accepts acc hready hcov hneeds entry) ?_
    rw [stack, hlive, List.map_append]
    refine Access.accepts_releases after.stack hpost fun entry he => ?_
    refine Access.mayWrite_exposed (hentries entry he).1 (List.mem_map_of_mem ?_)
    exact hlive ▸ List.mem_append_left _ he
  · exact Instr.emittedAll_append.mpr
      ⟨h.emitted hheap, emittedAll_releases fun entry he => (hentries entry he).2⟩

end Piece

end IsaBackend
