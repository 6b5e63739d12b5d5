import IsaBackend.Proofs.Code.Match
import IsaBackend.Proofs.Lifetime.Acceptance

/-!
# Matching code passes the lifetime check alike

The check of the left side follows the check of the right side: what it accepts on the left it
accepts on the right, if the right side is tidy. A tie means that the locals were not released.
-/

namespace IsaBackend

private theorem Inline.root?_of_plain : ∀ expr : Inline, expr.names = [] → expr.root? = none
  | .name _, h => by cases h
  | .field record _, h => root?_of_plain record h
  | .unit, _ => rfl
  | .bool _, _ => rfl
  | .int _, _ => rfl
  | .bits _ _, _ => rfl
  | .text _, _ => rfl
  | .binary _ _ _, _ => rfl
  | .not _, _ => rfl
  | .address _, _ => rfl

section Paths

variable {disc : Discipline} {meet : Meeting} {entry : Option PathState}
  {post : List String → Prop} {instr : Instr}

private theorem followAll_nil (code : List Instr) :
    Instr.followAll meet entry [] code = .ok [] := by
  cases code <;> rfl

private theorem followEach_ok {step : PathState → Except LifetimeError (List PathState)}
    {states : List PathState} {good : PathState → Prop}
    (h : ∀ state ∈ states, ∃ ends, step state = .ok ends ∧ ∀ last ∈ ends, good last) :
    ∃ ends, followEach step states = .ok ends ∧ ∀ last ∈ ends, good last := by
  induction states with
  | nil => exact ⟨[], rfl, fun _ hn => absurd hn List.not_mem_nil⟩
  | cons state rest ih =>
    obtain ⟨⟨ends, hstep, hends⟩, hrest⟩ := List.forall_mem_cons.mp h
    obtain ⟨more, hmore, hgood⟩ := ih hrest
    refine ⟨ends ++ more, ?_, fun last hl => ?_⟩
    · simp only [followEach, hstep, hmore, except_ok_bind]
      rfl
    · rcases List.mem_append.mp hl with hl | hl
      · exact hends last hl
      · exact hgood last hl

/-- States on the right that the check can follow. -/
def Tame (disc : Discipline) (entry : Option PathState) (code : List Instr)
    (post : List String → Prop) (states : List PathState) : Prop :=
  ∀ state ∈ states, Instr.TidyAll disc (entry.map PathState.live) state.live code post ∧
    state.Fits disc

private theorem Passes.post_of_ok {α : Type} {result : Except LifetimeError α} {good : α → Prop}
    {value : α} (h : Passes disc result good) (hok : result = .ok value) : good value := by
  subst hok
  rcases h with ⟨_, hok, hgood⟩ | ⟨_, _, herror⟩
  · cases hok
    exact hgood
  · cases herror

/-- Where a step of the check on tidy code succeeds, the states after it can be followed on. -/
private theorem tame_of_step (hmeet : ∀ states state, state ∈ meet states ↔ state ∈ states)
    {twin : PathState} (htidy : instr.Tidy disc (entry.map PathState.live) twin.live post)
    (hfits : twin.Fits disc) {twinEnds : List PathState}
    (hstep : instr.follow meet entry twin = .ok twinEnds) : Reach disc post twinEnds :=
  (Instr.Tidy.follow_passes (fun states state => (hmeet states state).mp) hfits htidy).post_of_ok
    hstep

private theorem fits_decl {twin : PathState} (hfits : twin.Fits disc) {name : String}
    (hunowned : ¬disc.owns name) : twin.released.contains name = false := by
  cases hreleased : twin.released.contains name with
  | false => rfl
  | true => exact absurd (hfits.released name hreleased).1 hunowned

private theorem allocate_of_tidy {twin : PathState} {name : String} (hfresh : name ∉ twin.live) :
    twin.allocate name = .ok ⟨name :: twin.live, twin.released.erase name⟩ := by
  have hcontains : ¬twin.live.contains name = true := by simpa using hfresh
  simp only [PathState.allocate, if_neg hcontains]

private theorem release_of_tidy {twin : PathState} {name : String} {rest : List String}
    (hlive : twin.live = name :: rest) :
    twin.release name = .ok ⟨rest, twin.released.insert name⟩ := by
  simp only [PathState.release, hlive, if_true]

private theorem follow_moves {instr : Instr} {dest : Place} {operand : Operand}
    (hmoves : instr.Moves dest operand) (entry : Option PathState) (state : PathState) :
    instr.follow meet entry state =
      (do state.read operand; state.write dest; return [state]) := by
  rcases hmoves with rfl | rfl | rfl <;> rfl

end Paths

namespace Facts

variable [OwnNames]

/-- What facts say of the states of a path on the left and on the right. -/
structure Along (facts : Facts) (state twin : PathState) : Prop where
  shared : ∀ name, ¬Own name → twin.released.contains name = state.released.contains name
  tied : ∀ entry ∈ facts.ties, twin.released.contains entry.2 = false
  alike : ∀ entry ∈ facts.ties, Alike entry.1 entry.2

/-- Every state on the right goes along with one on the left. -/
def Cover (facts : Facts) (states twins : List PathState) : Prop :=
  ∀ twin ∈ twins, ∃ state ∈ states, facts.Along state twin

variable {facts less : Facts} {state twin : PathState} {left right : String}

private theorem Along.mono (h : facts.Along state twin) (hless : less.Within facts) :
    less.Along state twin :=
  ⟨h.shared, fun entry he => h.tied entry (hless he), fun entry he => h.alike entry (hless he)⟩

private theorem Along.use (h : facts.Along state twin) (hsame : facts.Same left right)
    (huse : state.use left = .ok ()) : twin.use right = .ok () := by
  unfold PathState.use at huse ⊢
  rcases hsame with hmem | ⟨rfl, hplain⟩
  · rw [h.tied _ hmem]
    rfl
  · rw [h.shared left hplain]
    exact huse

end Facts

section Operands

variable [OwnNames] {facts : Facts} {state twin : PathState}

private theorem Inline.Matches.fits {left right : Inline} (h : left.Matches facts right) :
    right.fitsMachineWord = left.fitsMachineWord := by
  induction h with
  | name _ => rfl
  | plain _ => rfl
  | field key _ ih => exact ih
  | binary op _ _ ihLeft ihRight => simp only [Inline.fitsMachineWord, ihLeft, ihRight]
  | not _ ih => exact ih

private theorem Inline.Matches.root? {left right : Inline} (h : left.Matches facts right) :
    left.root? = none ∧ right.root? = none ∨
      ∃ key twinKey, left.root? = some key ∧ right.root? = some twinKey ∧
        facts.Same key twinKey := by
  induction h with
  | name hsame => exact .inr ⟨_, _, rfl, rfl, hsame⟩
  | plain hnames =>
    exact .inl ⟨Inline.root?_of_plain _ hnames, Inline.root?_of_plain _ hnames⟩
  | field key _ ih => exact ih
  | binary op _ _ _ _ => exact .inl ⟨rfl, rfl⟩
  | not _ _ => exact .inl ⟨rfl, rfl⟩

private theorem Operand.Matches.read {left right : Operand} (hmatch : left.Matches facts right)
    (h : facts.Along state twin) (hread : state.read left = .ok ()) : twin.read right = .ok () := by
  cases hmatch with
  | name rep hsame => exact h.use hsame hread
  | inline rep hinline =>
    simp only [PathState.read, hinline.fits] at hread ⊢
    split at hread
    · rename_i hfits
      rw [if_pos hfits]
      rcases hinline.root? with ⟨hleft, hright⟩ | ⟨key, twinKey, hleft, hright, hsame⟩
      · rw [hright]
      · rw [hright]
        rw [hleft] at hread
        exact h.use hsame hread
    · cases hread

private theorem Operand.MatchesAll.readAll {lefts rights : List Operand}
    (hmatch : Operand.MatchesAll facts lefts rights) (h : facts.Along state twin)
    (hread : state.readAll lefts = .ok ()) : twin.readAll rights = .ok () := by
  induction hmatch with
  | nil => rfl
  | cons hhead _ ih =>
    obtain ⟨_, hfirst, hrest⟩ := except_bind_eq_ok.mp hread
    exact except_bind_eq_ok.mpr ⟨(), hhead.read h hfirst, ih hrest⟩

end Operands

namespace Facts

variable [OwnNames] {facts less : Facts} {state twin next twinNext : PathState} {left right : String}

private theorem Along.alike_of_same (h : facts.Along state twin) (hsame : facts.Same left right) :
    Alike left right := by
  rcases hsame with hmem | hplain
  · exact h.alike _ hmem
  · exact .inl hplain

private theorem shared_change (change : Bool → Bool → Bool) (h : ∀ name, ¬Own name →
      twin.released.contains name = state.released.contains name) (halike : Alike left right)
    {released twinReleased : NameSet}
    (hreleased : ∀ name, released.contains name =
      change (name == left) (state.released.contains name))
    (htwin : ∀ name, twinReleased.contains name =
      change (name == right) (twin.released.contains name)) :
    ∀ name, ¬Own name → twinReleased.contains name = released.contains name := by
  intro name hname
  rw [hreleased, htwin, h name hname]
  rcases halike with ⟨rfl, _⟩ | ⟨hleft, hright⟩
  · rfl
  · have hneLeft : (name == left) = false := beq_false_of_ne (ne_of_own hname hleft)
    have hneRight : (name == right) = false := beq_false_of_ne (ne_of_own hname hright)
    rw [hneLeft, hneRight]

private theorem Along.tie (h : facts.Along state twin) (halike : Alike left right)
    (hright : twin.released.contains right = false) : (facts.tie left right).Along state twin where
  shared := h.shared
  tied := List.forall_mem_cons.mpr ⟨hright, h.tied⟩
  alike := List.forall_mem_cons.mpr ⟨halike, h.alike⟩

private theorem Along.allocate (h : facts.Along state twin) (halike : Alike left right)
    (hnext : next.released = state.released.erase left)
    (htwin : twinNext.released = twin.released.erase right) :
    (facts.tie left right).Along next twinNext := by
  have hkept : facts.Along next twinNext := by
    refine ⟨shared_change (fun here before => !here && before) h.shared halike ?_ ?_, ?_, h.alike⟩
    · simp [hnext, bne]
    · simp [htwin, bne]
    · intro entry he
      simp [htwin, h.tied entry he]
  refine hkept.tie halike ?_
  simp [htwin]

private theorem Along.release (h : facts.Along state twin) (hsame : facts.Same left right)
    (hless : less.Within facts) (hright : ¬less.HasRight right)
    (hnext : next.released = state.released.insert left)
    (htwin : twinNext.released = twin.released.insert right) : less.Along next twinNext := by
  refine ⟨shared_change (fun here before => here || before) h.shared (h.alike_of_same hsame) ?_ ?_,
    ?_, (h.mono hless).alike⟩
  · simp [hnext]
  · simp [htwin]
  · intro entry he
    have hne := ne_right_of_tie hright he
    simp [htwin, (h.mono hless).tied entry he, hne]

end Facts

section Follow

variable [OwnNames] {disc : Discipline} {meet : Meeting} {entry twinEntry : Option PathState}
  {facts : Facts}
  {post : List String → Prop}

/-- The check follows code on the right wherever it can follow code on the left. -/
def Follows (disc : Discipline) (meet : Meeting) (start : PathState → PathState → Prop)
    (code twinCode : List Instr) (last : Facts) : Prop :=
  ∀ entry twinEntry post states twins ends, Tame disc twinEntry twinCode post twins →
    (∀ twin ∈ twins, ∃ state ∈ states, start state twin) →
    Instr.followAll meet entry states code = .ok ends →
    ∃ twinEnds, Instr.followAll meet twinEntry twins twinCode = .ok twinEnds ∧
      last.Cover ends twinEnds

def FollowsStep (disc : Discipline) (meet : Meeting) (start next : PathState → PathState → Prop)
    (instr twinInstr : Instr) : Prop :=
  ∀ entry twinEntry post state twin ends,
    twinInstr.Tidy disc (twinEntry.map PathState.live) twin.live post → twin.Fits disc →
    start state twin → instr.follow meet entry state = .ok ends →
    ∃ twinEnds, twinInstr.follow meet twinEntry twin = .ok twinEnds ∧
      ∀ twinLast ∈ twinEnds, ∃ last ∈ ends, next last twinLast

variable {start next : PathState → PathState → Prop} {instr twinInstr : Instr}
  {code twinCode : List Instr} {last : Facts}

private theorem Follows.never (code twinCode : List Instr) (last : Facts) :
    Follows disc meet (fun _ _ => False) code twinCode last := by
  intro entry twinEntry post states twins ends _ hcover _
  cases twins with
  | nil => exact ⟨[], followAll_nil _, fun _ hn => absurd hn List.not_mem_nil⟩
  | cons twin _ =>
    obtain ⟨_, _, hfalse⟩ := hcover twin List.mem_cons_self
    exact hfalse.elim

private theorem Follows.cons (hmeet : ∀ states state, state ∈ meet states ↔ state ∈ states)
    (h : FollowsStep disc meet start next instr twinInstr)
    (hrest : Follows disc meet next code twinCode last) :
    Follows disc meet start (instr :: code) (twinInstr :: twinCode) last := by
  intro entry twinEntry post states twins ends htame hcover hfollow
  by_cases hempty : twins = []
  · subst hempty
    exact ⟨[], followAll_nil _, fun _ hn => absurd hn List.not_mem_nil⟩
  · have hstates : ¬states.isEmpty = true := by
      obtain ⟨twin, htwin⟩ := List.exists_mem_of_ne_nil twins hempty
      obtain ⟨state, hstate, _⟩ := hcover twin htwin
      exact fun hnil => List.not_mem_nil (List.isEmpty_iff.mp hnil ▸ hstate)
    rw [Instr.followAll, if_neg hstates] at hfollow
    obtain ⟨middles, hmiddles, hleft⟩ := except_bind_eq_ok.mp hfollow
    have hsteps : ∀ twin ∈ twins, ∃ twinEnds, twinInstr.follow meet twinEntry twin = .ok twinEnds ∧
        ∀ twinLast ∈ twinEnds, (Instr.TidyAll disc (twinEntry.map PathState.live) twinLast.live
          twinCode post ∧ twinLast.Fits disc) ∧ ∃ state ∈ meet middles, next state twinLast := by
      intro twin htwin
      obtain ⟨state, hstate, hstart⟩ := hcover twin htwin
      obtain ⟨succ, hstep, hsub⟩ := mem_of_followEach hmiddles hstate
      obtain ⟨htidy, hfits⟩ := htame twin htwin
      obtain ⟨twinEnds, htwinStep, hnext⟩ := h entry twinEntry _ state twin succ htidy hfits hstart
        hstep
      refine ⟨twinEnds, htwinStep, fun twinLast hl => ?_⟩
      obtain ⟨final, hfinal, hpair⟩ := hnext twinLast hl
      exact ⟨tame_of_step hmeet htidy hfits htwinStep twinLast hl, final,
        (hmeet _ _).mpr (hsub final hfinal), hpair⟩
    obtain ⟨twinMiddles, hright, hgood⟩ := followEach_ok hsteps
    rw [Instr.followAll, if_neg (fun hnil => hempty (List.isEmpty_iff.mp hnil)), hright]
    exact hrest entry twinEntry post (meet middles) (meet twinMiddles) ends
      (fun twin htwin => (hgood twin ((hmeet _ _).mp htwin)).1)
      (fun twin htwin => (hgood twin ((hmeet _ _).mp htwin)).2) hleft

end Follow

section Steps

variable [OwnNames] {disc : Discipline} {meet : Meeting} {facts : Facts}

private theorem Instr.Introduce.follows {left right : String} {instr twinInstr : Instr}
    (hintro : instr.Introduce facts left right twinInstr) (halike : Facts.Alike left right) :
    FollowsStep disc meet facts.Along (facts.tie left right).Along instr twinInstr := by
  intro entry twinEntry post state twin ends htidy hfits h hstep
  cases hintro with
  | decl rep =>
    cases hstep
    refine ⟨[twin], rfl, ?_⟩
    rintro _ hl
    rw [List.mem_singleton.mp hl]
    exact ⟨state, List.mem_singleton_self _, h.tie halike (fits_decl hfits htidy.1)⟩
  | alloc rep =>
    obtain ⟨next, hnext, hpure⟩ := except_bind_eq_ok.mp hstep
    cases hpure
    refine ⟨[_], by rw [Instr.follow, allocate_of_tidy htidy.2.1]; rfl, ?_⟩
    rintro _ hl
    rw [List.mem_singleton.mp hl]
    obtain ⟨_, rfl⟩ := PathState.allocate_eq_ok hnext
    exact ⟨_, List.mem_singleton_self _, h.allocate halike rfl rfl⟩
  | init rep hoperand =>
    obtain ⟨_, hread, hstep⟩ := except_bind_eq_ok.mp hstep
    obtain ⟨next, hnext, hpure⟩ := except_bind_eq_ok.mp hstep
    cases hpure
    refine ⟨[_], by
      rw [Instr.follow, hoperand.read h hread, except_ok_bind, allocate_of_tidy htidy.2.2.1]
      rfl, ?_⟩
    rintro _ hl
    rw [List.mem_singleton.mp hl]
    obtain ⟨_, rfl⟩ := PathState.allocate_eq_ok hnext
    exact ⟨_, List.mem_singleton_self _, h.allocate halike rfl rfl⟩

private theorem Instr.Act.follows {instr twinInstr : Instr} (hact : instr.Act facts twinInstr) :
    FollowsStep disc meet facts.Along facts.Along instr twinInstr := by
  intro entry twinEntry post state twin ends htidy hfits h hstep
  have hkept : ∀ other ∈ [twin], ∃ last ∈ [state], facts.Along last other := by simpa using h
  cases hact with
  | move hmoves htwinMoves hdest hoperand =>
    rw [follow_moves hmoves] at hstep
    obtain ⟨_, hread, hstep⟩ := except_bind_eq_ok.mp hstep
    obtain ⟨_, hwrite, hpure⟩ := except_bind_eq_ok.mp hstep
    cases hpure
    refine ⟨[twin], ?_, hkept⟩
    rw [follow_moves htwinMoves, hoperand.read h hread, except_ok_bind, PathState.write,
      h.use hdest.root hwrite]
    rfl
  | call callee hdest hargs =>
    obtain ⟨_, hread, hstep⟩ := except_bind_eq_ok.mp hstep
    obtain ⟨_, hwrite, hpure⟩ := except_bind_eq_ok.mp hstep
    cases hpure
    refine ⟨[twin], ?_, hkept⟩
    rw [Instr.follow, hargs.readAll h hread, except_ok_bind, PathState.write,
      h.use hdest.root hwrite]
    rfl
  | comment text twinText =>
    cases hstep
    exact ⟨[twin], rfl, hkept⟩

/-- The check follows code that matches. -/
theorem Instr.Match.follows (hmeet : ∀ states state, state ∈ meet states ↔ state ∈ states)
    {exit last : Facts} {code twinCode : List Instr}
    (hmatch : Instr.Match exit facts code twinCode last) :
    Follows disc meet facts.Along code twinCode last := by
  induction hmatch with
  | nil exit facts =>
    intro entry twinEntry post states twins ends _ hcover hfollow
    cases hfollow
    exact ⟨twins, rfl, hcover⟩
  | weaken hless _ ih =>
    intro entry twinEntry post states twins ends htame hcover hfollow
    refine ih entry twinEntry post states twins ends htame (fun twin htwin => ?_) hfollow
    obtain ⟨state, hstate, h⟩ := hcover twin htwin
    exact ⟨state, hstate, h.mono hless⟩
  | introduce hintro halike _ _ _ ih => exact .cons hmeet (hintro.follows halike) ih
  | act hact _ ih => exact .cons hmeet hact.follows ih
  | release rep twinRep hsame hless hleft hright _ ih =>
    refine .cons hmeet ?_ ih
    intro entry twinEntry post state twin ends htidy hfits h hstep
    obtain ⟨next, hnext, hpure⟩ := except_bind_eq_ok.mp hstep
    cases hpure
    obtain ⟨rest, hlive, _⟩ := htidy
    refine ⟨[_], by rw [Instr.follow, release_of_tidy hlive]; rfl, ?_⟩
    simpa using h.release hsame hless hright (PathState.release_eq_ok hnext).2 rfl
  | @branch exit facts middle last test twinTest onTrue onFalse twinTrue twinFalse code twinCode
      rep twinRep htest _ _ _ ihTrue ihFalse ih =>
    refine .cons hmeet ?_ ih
    intro entry twinEntry post state twin ends htidy hfits h hstep
    obtain ⟨_, hread, hstep⟩ := except_bind_eq_ok.mp hstep
    obtain ⟨trueEnds, htrue, hstep⟩ := except_bind_eq_ok.mp hstep
    obtain ⟨falseEnds, hfalse, hpure⟩ := except_bind_eq_ok.mp hstep
    cases hpure
    obtain ⟨twinTrueEnds, htwinTrue, hcoverTrue⟩ := ihTrue entry twinEntry post [state] [twin]
      trueEnds (by simpa [Tame] using ⟨htidy.2.1, hfits⟩) (by simpa using h) htrue
    obtain ⟨twinFalseEnds, htwinFalse, hcoverFalse⟩ := ihFalse entry twinEntry post [state] [twin]
      falseEnds (by simpa [Tame] using ⟨htidy.2.2, hfits⟩) (by simpa using h) hfalse
    refine ⟨twinTrueEnds ++ twinFalseEnds, ?_, fun twinLast hl => ?_⟩
    · rw [Instr.follow, htest.read h hread, except_ok_bind, htwinTrue, except_ok_bind, htwinFalse]
      rfl
    · rcases List.mem_append.mp hl with hl | hl
      · obtain ⟨final, hfinal, hpair⟩ := hcoverTrue twinLast hl
        exact ⟨final, List.mem_append_left _ hfinal, hpair⟩
      · obtain ⟨final, hfinal, hpair⟩ := hcoverFalse twinLast hl
        exact ⟨final, List.mem_append_right _ hfinal, hpair⟩
  | @loop exit facts last body twinBody code twinCode _ _ _ _ ihBody ih =>
    refine .cons hmeet ?_ ih
    intro entry twinEntry post state twin ends htidy hfits h hstep
    obtain ⟨bodyEnds, hbody, hstep⟩ := except_bind_eq_ok.mp hstep
    obtain ⟨_, _, hpure⟩ := except_bind_eq_ok.mp hstep
    cases hpure
    have htame : Tame disc (some twin) twinBody (· = twin.live) [twin] := by
      simpa [Tame] using ⟨htidy.1, hfits⟩
    obtain ⟨twinEnds, htwinBody, _⟩ := ihBody (some state) (some twin) (· = twin.live) [state]
      [twin] bodyEnds htame (by simpa using h) hbody
    refine ⟨[twin], ?_, by simpa using h⟩
    -- tidy code comes back to the stack at the start of the loop
    have hreach : Reach disc (· = twin.live) twinEnds :=
      (Instr.TidyAll.followAll_passes (fun states state => (hmeet states state).mp) htame).post_of_ok
        htwinBody
    have hall : twinEnds.all (fun last => last.live = twin.live) = true := by
      simpa using fun last hl => (hreach last hl).1
    rw [Instr.follow, htwinBody, except_ok_bind, PathState.balanced, if_pos hall]
    rfl
  | ret code twin hoperand =>
    refine .cons hmeet ?_ (.never code twin _)
    intro entry twinEntry post state twin ends htidy hfits h hstep
    obtain ⟨_, hread, hstep⟩ := except_bind_eq_ok.mp hstep
    refine ⟨[], ?_, fun _ hn => absurd hn List.not_mem_nil⟩
    rw [Instr.follow, hoperand.read h hread, except_ok_bind, PathState.settled, htidy.2]
    rfl
  | leave code twin hexit =>
    refine .cons hmeet ?_ (.never code twin _)
    intro entry twinEntry post state twin ends htidy hfits h hstep
    refine ⟨[], ?_, fun _ hn => absurd hn List.not_mem_nil⟩
    cases twinEntry with
    | none => cases htidy
    | some start =>
      have hlive : twin.live = start.live := (Option.some.inj htidy).symm
      rw [Instr.follow, if_pos hlive]

end Steps

/-- If a routine passes the check, then so does one that matches it and always returns. -/
theorem Routine.Matches.checkLifetimes [OwnNames] {disc : Discipline}
    {routine twin : Routine} (h : routine.Matches twin)
    (htidy : Instr.TidyAll disc none [] twin.body fun _ => False)
    (hok : routine.checkLifetimes = .ok ()) : twin.checkLifetimes = .ok () := by
  obtain ⟨last, hmatch⟩ := h.body
  have hmeet : ∀ states state, state ∈ PathState.distinct states ↔ state ∈ states :=
    fun _ _ => PathState.mem_distinct
  have hfits : PathState.Fits disc {} :=
    ⟨List.nodup_nil, fun _ hn => absurd hn List.not_mem_nil, fun _ hn => by cases hn⟩
  have htame : Tame disc none twin.body (fun _ => False) [{}] := by
    simpa [Tame] using ⟨htidy, hfits⟩
  have hstart : Facts.Along { ties := pairedNames routine.params twin.params } {} {} :=
    ⟨fun _ _ => rfl, fun _ _ => rfl, h.pairing.alike⟩
  obtain ⟨ends, hfollow, _⟩ := except_bind_eq_ok.mp hok
  obtain ⟨twinEnds, htwin, _⟩ := hmatch.follows hmeet none none _ [{}] [{}] ends htame
    (by simpa using hstart) hfollow
  have hreach : Reach disc (fun _ => False) twinEnds :=
    (Instr.TidyAll.followAll_passes (fun states state => (hmeet states state).mp) htame).post_of_ok
      htwin
  have hnone : twinEnds = [] := List.eq_nil_iff_forall_not_mem.mpr fun state hs => (hreach state hs).1
  rw [Routine.checkLifetimes, Routine.checkLifetimesWith, htwin, hnone]
  rfl

end IsaBackend
