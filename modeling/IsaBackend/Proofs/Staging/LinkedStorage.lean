import IsaBackend.Proofs.Staging.Links

/-!
# Locals and storage of two sides

Two stagings that introduce a local at the same time take a name each, and storage if the local needs
any. The instructions that introduce the two match from all facts that know nothing of the names, and
the locals are tied from there on.
-/

namespace IsaBackend

open StagingState

namespace Staging

theorem settle_mirrors {before after : Sides} {pairs : List (String × String)}
    {cleanup twinCleanup : List Instr} (h : before.Above after pairs cleanup twinCleanup) :
    Mirrors (settle cleanup) (settle twinCleanup) after fun _ _ last =>
      last = after.withLive before.left.live before.right.live := by
  obtain ⟨entries, twins, hlive, htwin, rfl, rfl, _⟩ := h
  intro value last hok
  rw [settle_ok hlive] at hok
  cases hok
  exact ⟨(), _, settle_ok htwin, rfl⟩

end Staging

theorem Place.Parallel.rep_eq {dest twin : Place} (h : dest.Parallel twin) :
    dest.rep = twin.rep := by
  cases h <;> rfl

section Places

variable [OwnNames] {facts more : Facts}

theorem Place.matches_name {name twin : String} (h : (name, twin) ∈ facts.ties) (rep : Rep) :
    (Place.name name rep).Matches facts (.name twin rep) :=
  ⟨.name name twin rep, .inl h⟩

theorem Place.Matches.field {dest twin : Place} (h : dest.Matches facts twin) (key : String)
    (rep : Rep) : (Place.field dest key rep).Matches facts (.field twin key rep) :=
  ⟨.field key rep h.parallel, h.root⟩

theorem Place.Matches.mono {dest twin : Place} (h : dest.Matches facts twin)
    (hmore : facts.Within more) : dest.Matches more twin :=
  ⟨h.parallel, h.root.mono hmore⟩

private theorem Inline.Matches.mono {expr twin : Inline} (h : expr.Matches facts twin)
    (hmore : facts.Within more) : expr.Matches more twin := by
  induction h with
  | name hsame => exact .name (hsame.mono hmore)
  | plain hplain => exact .plain hplain
  | field key _ ih => exact .field key ih
  | binary op _ _ ihLeft ihRight => exact .binary op ihLeft ihRight
  | not _ ih => exact .not ih

theorem Operand.Matches.mono {operand twin : Operand} (h : operand.Matches facts twin)
    (hmore : facts.Within more) : operand.Matches more twin := by
  cases h with
  | name rep hsame => exact .name rep (hsame.mono hmore)
  | inline rep hexpr => exact .inline rep (hexpr.mono hmore)

theorem Operand.Matches.toInline {operand twin : Operand} (h : operand.Matches facts twin) :
    operand.toInline.Matches facts twin.toInline := by
  cases h with
  | name rep hsame => exact .name hsame
  | inline rep hexpr => exact hexpr

end Places

namespace Sides

variable [OwnNames]

/-- A local that comes into use on each side, with storage if it needs any. The instructions that
introduce it match from facts that have what they need. -/
structure Declares (before : Sides) (needs : Facts → Prop) (name twin : String) (rep : Rep)
    (decl twinDecl : Instr) (after : Sides) : Prop where
  leads : before.Leads after
  level : after.Level
  news : before.News after [(name, twin)]
  alike : Facts.Alike name twin
  above : before.Above after [(name, twin)] (Instr.releaseOf name rep) (Instr.releaseOf twin rep)
  introduce : ∀ facts, needs facts → decl.Introduce facts name twin twinDecl

variable {before after : Sides} {needs : Facts → Prop} {name twin : String} {rep : Rep}
  {decl twinDecl : Instr}

theorem Declares.weaken {more : Facts → Prop}
    (h : before.Declares more name twin rep decl twinDecl after)
    (himp : ∀ facts, needs facts → more facts) :
    before.Declares needs name twin rep decl twinDecl after :=
  ⟨h.leads, h.level, h.news, h.alike, h.above, fun facts hneeds =>
    h.introduce facts (himp facts hneeds)⟩

theorem Declares.match {exit facts last : Facts} {code twinCode : List Instr}
    (h : before.Declares needs name twin rep decl twinDecl after) (hneeds : needs facts)
    (hclear : facts.Clear before after)
    (hrest : Instr.Match exit (facts.tie name twin) code twinCode last) :
    Instr.Match exit facts (decl :: code) (twinDecl :: twinCode) last :=
  have hnot := hclear.not_has h.news (name, twin) List.mem_cons_self
  .introduce (h.introduce facts hneeds) h.alike hnot.1 hnot.2 hrest

theorem Declares.live_eq (h : before.Declares needs name twin rep decl twinDecl after)
    (hstack : rep.isStack = true) :
    after.left.live = before.left.live ∧ after.right.live = before.right.live := by
  obtain ⟨entries, twins, hlive, htwin, hclean, htwinClean, _⟩ := h.above
  simp only [Instr.releaseOf, hstack, if_true] at hclean htwinClean
  rw [List.map_eq_nil_iff.mp hclean.symm] at hlive
  rw [List.map_eq_nil_iff.mp htwinClean.symm] at htwin
  exact ⟨hlive, htwin⟩

private theorem Claims.declares {middle : Sides} (h : before.Claims name twin middle)
    (hlevel : before.Level) (hheap : rep.isStack = false)
    (hintroduce : ∀ facts, needs facts → decl.Introduce facts name twin twinDecl) :
    before.Declares needs name twin rep decl twinDecl
      (middle.withLive ((name, rep) :: middle.left.live) ((twin, rep) :: middle.right.live)) where
  leads := h.leads.trans (middle.leads_withLive _ _)
  level := h.push hlevel rep rep
  news := h.news.mono (middle.leads_withLive _ _)
  alike := h.alike
  above := by
    simp only [Instr.releaseOf, hheap, Bool.false_eq_true, if_false]
    refine ⟨[(name, rep)], [(twin, rep)], ?_, ?_, rfl, rfl, rfl, fun pair hp => hp⟩
    · exact congrArg ((name, rep) :: ·) h.live
    · exact congrArg ((twin, rep) :: ·) h.twinLive
  introduce := hintroduce

end Sides

namespace Staging

variable [OwnNames] {before middle sides : Sides} {name twin : String}

theorem declare_mirrors (h : before.Claims name twin middle) (hlevel : before.Level) (rep : Rep) :
    Mirrors (declare name rep) (declare twin rep) middle fun decl twinDecl after =>
      before.Declares (fun _ => True) name twin rep decl twinDecl after := by
  unfold declare
  cases hstack : rep.isStack with
  | true =>
    simp only [if_true]
    refine .pure ⟨h.leads, h.level, h.news, h.alike, ?_, fun _ _ => .decl rep⟩
    simp only [Instr.releaseOf, hstack, if_true]
    exact .nil h.live h.twinLive
  | false =>
    simp only [Bool.false_eq_true, if_false]
    have hdeclares := h.declares hlevel hstack fun _ (_ : True) => .alloc rep
    exact (Mirrors.pure hdeclares).step rfl rfl

theorem temp_mirrors (hlevel : sides.Level) (rep : Rep) :
    Mirrors (temp rep) (temp rep) sides fun result twinResult after =>
      sides.Declares (fun _ => True) result.1 twinResult.1 rep result.2 twinResult.2 after := by
  have hdeclare : Mirrors
      (do return (FreshNames.name sides.left.names.next,
        ← declare (FreshNames.name sides.left.names.next) rep))
      (do return (FreshNames.name sides.right.names.next,
        ← declare (FreshNames.name sides.right.names.next) rep))
      ⟨sides.left.claimNext, sides.right.claimNext⟩ fun result twinResult after =>
        sides.Declares (fun _ => True) result.1 twinResult.1 rep result.2 twinResult.2 after :=
    (declare_mirrors hlevel.claimNext hlevel rep).bind fun _ _ _ h => .pure h
  exact hdeclare.step rfl rfl

theorem tempFrom_mirrors (hlevel : sides.Level) {rep : Rep} (hheap : rep.isStack = false)
    (value twinValue : Operand) :
    Mirrors (tempFrom rep value) (tempFrom rep twinValue) sides fun result twinResult after =>
      sides.Declares (fun facts => value.Matches facts twinValue) result.1 twinResult.1 rep
        result.2 twinResult.2 after := by
  have hdeclares := hlevel.claimNext.declares hlevel hheap
    fun facts (hvalue : value.Matches facts twinValue) => .init rep hvalue
  intro result after hok
  cases hok
  exact ⟨_, _, rfl, hdeclares⟩

/-- A local of each side gets its own name, or a generated one if that is in use. -/
theorem localName_mirrors (hlevel : sides.Level) (hfit : Facts.Fit name twin)
    (hleft : ∀ number, name = FreshNames.name number → number < sides.left.names.next)
    (hright : ∀ number, twin = FreshNames.name number → number < sides.right.names.next) :
    Mirrors (localName name) (localName twin) sides fun codeName twinCode after =>
      sides.Claims codeName twinCode after := by
  intro codeName after hok
  obtain ⟨_, _, hok', hgains, hkept, hrenamed⟩ := localName_gains hlevel.left hleft
  rw [hok] at hok'
  cases hok'
  obtain ⟨twinCode, twinAfter, htwin, htwinGains, htwinKept, htwinRenamed⟩ :=
    localName_gains hlevel.right hright
  have hown : name ∈ sides.left.declared → Own codeName := by
    intro hdeclared
    obtain ⟨number, rfl⟩ := hrenamed hdeclared
    exact own_name number
  have htwinOwn : twin ∈ sides.right.declared → Own twinCode := by
    intro hdeclared
    obtain ⟨number, rfl⟩ := htwinRenamed hdeclared
    exact own_name number
  -- The name of the result parameter is in use, so the local gets a generated one.
  have hfree : Own name ∨ name = Routine.resultParam → Own codeName := by
    intro hname
    by_cases hdeclared : name ∈ sides.left.declared
    · exact hown hdeclared
    · exact hkept hdeclared ▸ hname.resolve_right fun heq => hdeclared (heq ▸ hlevel.taken)
  have htwinFree : Own twin ∨ twin = Routine.resultParam → Own twinCode := by
    intro hname
    by_cases hdeclared : twin ∈ sides.right.declared
    · exact htwinOwn hdeclared
    · exact htwinKept hdeclared ▸ hname.resolve_right fun heq => hdeclared (heq ▸ hlevel.twinTaken)
  refine ⟨twinCode, twinAfter, htwin, hlevel.gain hgains htwinGains ?_⟩
  rcases hfit with rfl | ⟨hname, htwinName⟩
  · by_cases hname : Own name
    · exact .inr ⟨hfree (.inl hname), htwinFree (.inl hname)⟩
    · by_cases hdeclared : name ∈ sides.left.declared
      · exact .inr ⟨hown hdeclared, htwinOwn ((hlevel.shared name hname).mp hdeclared)⟩
      · rw [hkept hdeclared, htwinKept fun hm => hdeclared ((hlevel.shared name hname).mpr hm)]
        exact .inl ⟨rfl, hname⟩
  · exact .inr ⟨hfree hname, htwinFree htwinName⟩

end Staging

end IsaBackend
