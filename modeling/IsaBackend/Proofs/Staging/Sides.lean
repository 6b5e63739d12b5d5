import IsaBackend.Proofs.Code.Match
import IsaBackend.Proofs.Staging.Storage

/-!
# Two stagings side by side

Two stagings that take the same steps have states that differ in the generated names only. Where one
succeeds, the other does, and the names and the storage that they take correspond. What they emit
matches from all facts that know nothing of the names taken on the way.
-/

namespace IsaBackend

/-- The states of two stagings. -/
structure Sides where
  left : StagingState
  right : StagingState

namespace Staging

variable {α β γ δ : Type} {sides : Sides}

/-- Where one staging succeeds so does another, with a condition on what they give. -/
def Mirrors (act : Staging α) (twin : Staging β) (sides : Sides) (good : α → β → Sides → Prop) :
    Prop :=
  IsaBackend.Mirrors act twin sides.left sides.right fun value twinValue after twinAfter =>
    good value twinValue ⟨after, twinAfter⟩

theorem Mirrors.pure {value : α} {twinValue : β} {good : α → β → Sides → Prop}
    (h : good value twinValue sides) :
    Mirrors (Pure.pure value : Staging α) (Pure.pure twinValue : Staging β) sides good :=
  IsaBackend.Mirrors.pure h

theorem Mirrors.throw {cause : CompileError} {twin : Staging β} {good : α → β → Sides → Prop} :
    Mirrors (throw cause : Staging α) twin sides good :=
  IsaBackend.Mirrors.throw

theorem Mirrors.bind {act : Staging α} {twin : Staging β} {next : α → Staging γ}
    {twinNext : β → Staging δ} {middle : α → β → Sides → Prop} {good : γ → δ → Sides → Prop}
    (h : Mirrors act twin sides middle)
    (hnext : ∀ value twinValue after, middle value twinValue after →
      Mirrors (next value) (twinNext twinValue) after good) :
    Mirrors (act >>= next) (twin >>= twinNext) sides good :=
  IsaBackend.Mirrors.bind h fun value twinValue after twinAfter =>
    hnext value twinValue ⟨after, twinAfter⟩

theorem Mirrors.step {act act' : Staging α} {twin twin' : Staging β} {later : Sides}
    {good : α → β → Sides → Prop} (h : Mirrors act' twin' later good)
    (hact : act sides.left = act' later.left) (htwin : twin sides.right = twin' later.right) :
    Mirrors act twin sides good := by
  unfold Mirrors IsaBackend.Mirrors
  rw [hact, htwin]
  exact h

theorem Mirrors.mono {act : Staging α} {twin : Staging β} {good better : α → β → Sides → Prop}
    (h : Mirrors act twin sides better)
    (himp : ∀ value twinValue after, better value twinValue after → good value twinValue after) :
    Mirrors act twin sides good :=
  IsaBackend.Mirrors.mono h fun value twinValue after twinAfter =>
    himp value twinValue ⟨after, twinAfter⟩

theorem Mirrors.get : Mirrors get get sides fun state twinState after =>
    sides.left = state ∧ sides.right = twinState ∧ sides = after := by
  intro state after hok
  cases hok
  exact ⟨sides.right, sides.right, rfl, rfl, rfl, rfl⟩

theorem Mirrors.lift {result : Except CompileError α} {twinResult : Except CompileError β}
    {good : α → β → Prop}
    (h : ∀ value, result = .ok value → ∃ twinValue, twinResult = .ok twinValue ∧
      good value twinValue) :
    Mirrors (lift result) (lift twinResult) sides fun value twinValue after =>
      good value twinValue ∧ sides = after :=
  (IsaBackend.Mirrors.lift h).mono fun _ _ _ _ ⟨hgood, hleft, hright⟩ =>
    ⟨hgood, by rw [← hleft, ← hright]⟩

theorem Mirrors.ensuring {act : Staging α} {twin : Staging β}
    {after twinAfter : StagingState → StagingState} {good : α → β → Sides → Prop}
    (h : Mirrors act twin sides good) :
    Mirrors (ensuring act after) (ensuring twin twinAfter) sides fun value twinValue final =>
      ∃ inner, good value twinValue inner ∧ final = ⟨after inner.left, twinAfter inner.right⟩ :=
  (IsaBackend.Mirrors.ensuring h).mono fun _ _ _ _ ⟨inner, twinInner, hgood, hleft, hright⟩ =>
    ⟨⟨inner, twinInner⟩, hgood, by rw [hleft, hright]⟩

theorem repOf_mirrors (around : Surroundings) (ty : Ty) :
    Mirrors (repOf around ty) (repOf around ty) sides fun rep twinRep after =>
      (rep = twinRep ∧ Rep.ofTy around .generated ty = .ok rep) ∧ sides = after :=
  Mirrors.lift fun rep hrep => ⟨rep, hrep, rfl, hrep⟩

end Staging

namespace StagingState

/-- Generated names that are in use are below the next one, and live storage is in use, each of it
once. -/
structure Tallied (state : StagingState) : Prop where
  below : ∀ number, FreshNames.name number ∈ state.declared → number < state.names.next
  live : ∀ entry ∈ state.live, entry.1 ∈ state.declared
  distinct : (state.live.map Prod.fst).Nodup

/-- A name comes into use that was not before, and nothing else changes. -/
structure Gains (before : StagingState) (name : String) (after : StagingState) : Prop where
  leads : before.Leads after
  new : name ∉ before.declared
  declared : ∀ other, other ∈ after.declared ↔ other = name ∨ other ∈ before.declared
  live : after.live = before.live
  result : after.result = before.result
  tallied : after.Tallied

variable {state : StagingState} {name : String}

private theorem gains_claim (h : state.Tallied) (hnew : name ∉ state.declared) {next : Nat}
    (hnext : state.names.next ≤ next)
    (hname : ∀ number, name = FreshNames.name number → number < next) :
    state.Gains name { state with names := ⟨next⟩, declared := state.declared.insert name } where
  leads := ⟨hnext, fun _ hn => List.mem_insert_iff.mpr (.inr hn), fun _ => rfl⟩
  new := hnew
  declared := fun _ => List.mem_insert_iff
  live := rfl
  result := rfl
  tallied := by
    refine ⟨fun number hm => ?_, fun entry he => ?_, h.distinct⟩
    · rcases List.mem_insert_iff.mp hm with heq | hm
      · exact hname number heq.symm
      · exact Nat.lt_of_lt_of_le (h.below number hm) hnext
    · exact List.mem_insert_iff.mpr (.inr (h.live entry he))

def claimNext (state : StagingState) : StagingState :=
  { state with
    names := ⟨state.names.next + 1⟩
    declared := state.declared.insert (FreshNames.name state.names.next) }

private theorem gains_claimNext (h : state.Tallied) :
    state.Gains (FreshNames.name state.names.next) state.claimNext := by
  refine gains_claim h (fun hm => ?_) (Nat.le_succ _) fun number heq => ?_
  · exact Nat.lt_irrefl _ (h.below _ hm)
  · rw [FreshNames.name_inj] at heq
    omega

theorem localName_gains (h : state.Tallied)
    (hbelow : ∀ number, name = FreshNames.name number → number < state.names.next) :
    ∃ codeName after, Staging.localName name state = .ok codeName after ∧
      state.Gains codeName after ∧ (name ∉ state.declared → codeName = name) ∧
      (name ∈ state.declared → ∃ number, codeName = FreshNames.name number) := by
  unfold Staging.localName
  rw [bind_of_ok (get_apply state)]
  by_cases hdeclared : name ∈ state.declared
  · have hcontains : state.declared.contains name = true := by simpa using hdeclared
    simp only [hcontains, if_true]
    exact ⟨_, _, rfl, gains_claimNext h, fun hn => absurd hdeclared hn, fun _ => ⟨_, rfl⟩⟩
  · have hcontains : state.declared.contains name = false := by simpa using hdeclared
    simp only [hcontains, Bool.false_eq_true, if_false]
    exact ⟨_, _, rfl, gains_claim h hdeclared (Nat.le_refl _) hbelow, fun _ => rfl,
      fun hn => absurd hn hdeclared⟩

private theorem Tallied.push (h : state.Tallied) (hname : name ∈ state.declared)
    (hnew : name ∉ state.live.map Prod.fst) (rep : Rep) :
    (state.withLive ((name, rep) :: state.live)).Tallied where
  below := h.below
  live := List.forall_mem_cons.mpr ⟨hname, h.live⟩
  distinct := List.nodup_cons.mpr ⟨hnew, h.distinct⟩

private theorem Tallied.withLive (h : state.Tallied) {entries live : List (String × Rep)}
    (hlive : state.live = entries ++ live) : (state.withLive live).Tallied where
  below := h.below
  live := fun entry he => h.live entry (hlive ▸ List.mem_append_right entries he)
  distinct := by
    have hdistinct := h.distinct
    rw [hlive, List.map_append] at hdistinct
    exact (List.nodup_append.mp hdistinct).2.1

end StagingState

open StagingState

def tiesOf (entries twins : List (String × Rep)) : List (String × String) :=
  (entries.zip twins).map fun pair => (pair.1.1, pair.2.1)

@[simp] theorem tiesOf_nil : tiesOf [] [] = [] := rfl

@[simp] theorem tiesOf_cons (entry twin : String × Rep) (entries twins : List (String × Rep)) :
    tiesOf (entry :: entries) (twin :: twins) = (entry.1, twin.1) :: tiesOf entries twins := rfl

theorem tiesOf_append {entries twins more twinMore : List (String × Rep)}
    (h : entries.length = twins.length) :
    tiesOf (entries ++ more) (twins ++ twinMore) = tiesOf entries twins ++ tiesOf more twinMore := by
  rw [tiesOf, List.zip_append h, List.map_append]
  rfl

private theorem mem_of_mem_tiesOf {entries twins : List (String × Rep)} {pair : String × String}
    (h : pair ∈ tiesOf entries twins) :
    pair.1 ∈ entries.map Prod.fst ∧ pair.2 ∈ twins.map Prod.fst := by
  obtain ⟨⟨entry, twin⟩, hmem, rfl⟩ := List.mem_map.mp h
  have hzip := List.of_mem_zip hmem
  exact ⟨List.mem_map_of_mem hzip.1, List.mem_map_of_mem hzip.2⟩

private theorem exists_mem_tiesOf_left {entries twins : List (String × Rep)}
    (hlength : entries.length = twins.length) {entry : String × Rep} (h : entry ∈ entries) :
    ∃ pair ∈ tiesOf entries twins, pair.1 = entry.1 := by
  rw [← List.map_fst_zip (Nat.le_of_eq hlength)] at h
  obtain ⟨both, hboth, rfl⟩ := List.mem_map.mp h
  exact ⟨_, List.mem_map_of_mem hboth, rfl⟩

private theorem exists_mem_tiesOf_right {entries twins : List (String × Rep)}
    (hlength : entries.length = twins.length) {entry : String × Rep} (h : entry ∈ twins) :
    ∃ pair ∈ tiesOf entries twins, pair.2 = entry.1 := by
  rw [← List.map_snd_zip (Nat.le_of_eq hlength.symm)] at h
  obtain ⟨both, hboth, rfl⟩ := List.mem_map.mp h
  exact ⟨_, List.mem_map_of_mem hboth, rfl⟩

namespace Sides

structure Leads (before after : Sides) : Prop where
  left : before.left.Leads after.left
  right : before.right.Leads after.right

/-- Names of each side that come into use between two states. -/
structure News (before after : Sides) (pairs : List (String × String)) : Prop where
  left : ∀ pair ∈ pairs, pair.1 ∉ before.left.declared ∧ pair.1 ∈ after.left.declared
  right : ∀ pair ∈ pairs, pair.2 ∉ before.right.declared ∧ pair.2 ∈ after.right.declared

variable {before middle after sides : Sides} {pairs more : List (String × String)}

theorem Leads.refl (sides : Sides) : sides.Leads sides := ⟨.refl _, .refl _⟩

theorem Leads.trans (h : before.Leads middle) (hnext : middle.Leads after) : before.Leads after :=
  ⟨h.left.trans hnext.left, h.right.trans hnext.right⟩

theorem News.nil : before.News after [] :=
  ⟨fun _ h => absurd h List.not_mem_nil, fun _ h => absurd h List.not_mem_nil⟩

theorem News.mono (h : before.News middle pairs) (hleads : middle.Leads after) :
    before.News after pairs where
  left := fun pair hp => ⟨(h.left pair hp).1, hleads.left.declared _ (h.left pair hp).2⟩
  right := fun pair hp => ⟨(h.right pair hp).1, hleads.right.declared _ (h.right pair hp).2⟩

theorem News.append (h : before.News middle pairs) (hmore : middle.News after more)
    (hleads : before.Leads middle) (hnext : middle.Leads after) :
    before.News after (more ++ pairs) := by
  refine ⟨fun pair hp => ?_, fun pair hp => ?_⟩
  · rcases List.mem_append.mp hp with hp | hp
    · exact ⟨fun hm => (hmore.left pair hp).1 (hleads.left.declared _ hm), (hmore.left pair hp).2⟩
    · exact (h.mono hnext).left pair hp
  · rcases List.mem_append.mp hp with hp | hp
    · exact ⟨fun hm => (hmore.right pair hp).1 (hleads.right.declared _ hm),
        (hmore.right pair hp).2⟩
    · exact (h.mono hnext).right pair hp

def withLive (sides : Sides) (live twinLive : List (String × Rep)) : Sides :=
  ⟨sides.left.withLive live, sides.right.withLive twinLive⟩

theorem leads_withLive (sides : Sides) (live twinLive : List (String × Rep)) :
    sides.Leads (sides.withLive live twinLive) :=
  ⟨sides.left.leads_withLive live, sides.right.leads_withLive twinLive⟩

/-- Storage of each side that is live above what was live before, under names that correspond. The
cleanups release it. -/
def Above (before after : Sides) (pairs : List (String × String))
    (cleanup twinCleanup : List Instr) : Prop :=
  ∃ entries twins, after.left.live = entries ++ before.left.live ∧
    after.right.live = twins ++ before.right.live ∧ cleanup = releases entries ∧
    twinCleanup = releases twins ∧ entries.length = twins.length ∧
    ∀ pair ∈ tiesOf entries twins, pair ∈ pairs

theorem Above.nil (hlive : after.left.live = before.left.live)
    (htwin : after.right.live = before.right.live) : before.Above after pairs [] [] :=
  ⟨[], [], hlive, htwin, rfl, rfl, rfl, fun _ h => absurd h List.not_mem_nil⟩

theorem Above.append {cleanup twinCleanup last twinLast : List Instr}
    (h : before.Above middle pairs cleanup twinCleanup)
    (hmore : middle.Above after more last twinLast) :
    before.Above after (more ++ pairs) (last ++ cleanup) (twinLast ++ twinCleanup) := by
  obtain ⟨entries, twins, hlive, htwin, rfl, rfl, hlength, hties⟩ := h
  obtain ⟨others, twinOthers, hothers, htwinOthers, rfl, rfl, hsame, hmoreTies⟩ := hmore
  refine ⟨others ++ entries, twinOthers ++ twins, ?_, ?_, (releases_append _ _).symm,
    (releases_append _ _).symm, ?_, ?_⟩
  · rw [hothers, hlive, List.append_assoc]
  · rw [htwinOthers, htwin, List.append_assoc]
  · rw [List.length_append, List.length_append, hsame, hlength]
  · intro pair hp
    rw [tiesOf_append hsame] at hp
    rcases List.mem_append.mp hp with hp | hp
    · exact List.mem_append_left _ (hmoreTies pair hp)
    · exact List.mem_append_right _ (hties pair hp)

theorem Above.length_eq {cleanup twinCleanup : List Instr}
    (h : before.Above after pairs cleanup twinCleanup)
    (hlength : before.left.live.length = before.right.live.length) :
    after.left.live.length = after.right.live.length := by
  obtain ⟨entries, twins, hlive, htwin, _, _, hentries, _⟩ := h
  rw [hlive, htwin, List.length_append, List.length_append, hentries, hlength]

theorem Above.live_eq {cleanup twinCleanup : List Instr}
    (h : before.Above middle pairs cleanup twinCleanup)
    (hlive : after.left.live = middle.left.live) (htwin : after.right.live = middle.right.live) :
    before.Above after pairs cleanup twinCleanup := by
  unfold Above
  rw [hlive, htwin]
  exact h

section Level

variable [OwnNames]

/-- States that differ in the names that each side has for itself, at most. -/
structure Level (sides : Sides) : Prop where
  left : sides.left.Tallied
  right : sides.right.Tallied
  shared : ∀ name, ¬Own name → (name ∈ sides.left.declared ↔ name ∈ sides.right.declared)
  taken : Routine.resultParam ∈ sides.left.declared
  twinTaken : Routine.resultParam ∈ sides.right.declared
  result : sides.left.result = sides.right.result
  reference : ∀ rep, sides.left.result = some rep → rep.isStack = false → OwnNames.byReference

structure Claims (before : Sides) (name twin : String) (after : Sides) : Prop where
  leads : before.Leads after
  level : after.Level
  news : before.News after [(name, twin)]
  alike : Facts.Alike name twin
  live : after.left.live = before.left.live
  twinLive : after.right.live = before.right.live

theorem Level.gain {name twin : String} (h : sides.Level) (hleft : sides.left.Gains name after.left)
    (hright : sides.right.Gains twin after.right) (halike : Facts.Alike name twin) :
    sides.Claims name twin after where
  leads := ⟨hleft.leads, hright.leads⟩
  level := by
    refine ⟨hleft.tallied, hright.tallied, fun other hother => ?_, ?_, ?_, ?_, ?_⟩
    · rw [hleft.declared, hright.declared, h.shared other hother]
      rcases halike with ⟨rfl, _⟩ | ⟨hname, htwin⟩
      · rfl
      · have hne : other ≠ name := ne_of_own hother hname
        have hneTwin : other ≠ twin := ne_of_own hother htwin
        simp [hne, hneTwin]
    · exact (hleft.declared _).mpr (.inr h.taken)
    · exact (hright.declared _).mpr (.inr h.twinTaken)
    · rw [hleft.result, hright.result, h.result]
    · rw [hleft.result]
      exact h.reference
  news := by
    refine ⟨fun pair hp => ?_, fun pair hp => ?_⟩
    · rw [List.mem_singleton.mp hp]
      exact ⟨hleft.new, (hleft.declared name).mpr (.inl rfl)⟩
    · rw [List.mem_singleton.mp hp]
      exact ⟨hright.new, (hright.declared twin).mpr (.inl rfl)⟩
  alike := halike
  live := hleft.live
  twinLive := hright.live

theorem Level.claimNext (h : sides.Level) :
    sides.Claims (FreshNames.name sides.left.names.next) (FreshNames.name sides.right.names.next)
      ⟨sides.left.claimNext, sides.right.claimNext⟩ :=
  h.gain (gains_claimNext h.left) (gains_claimNext h.right) (.inr ⟨own_name _, own_name _⟩)

theorem Claims.push {name twin : String} (h : before.Claims name twin after)
    (hlevel : before.Level) (rep twinRep : Rep) :
    (after.withLive ((name, rep) :: after.left.live) ((twin, twinRep) :: after.right.live)).Level
    where
  left := by
    refine h.level.left.push (h.news.left _ List.mem_cons_self).2 (fun hm => ?_) rep
    obtain ⟨entry, he, heq⟩ := List.mem_map.mp hm
    rw [h.live] at he
    exact (h.news.left _ List.mem_cons_self).1 (heq ▸ hlevel.left.live entry he)
  right := by
    refine h.level.right.push (h.news.right _ List.mem_cons_self).2 (fun hm => ?_) twinRep
    obtain ⟨entry, he, heq⟩ := List.mem_map.mp hm
    rw [h.twinLive] at he
    exact (h.news.right _ List.mem_cons_self).1 (heq ▸ hlevel.right.live entry he)
  shared := h.level.shared
  taken := h.level.taken
  twinTaken := h.level.twinTaken
  result := h.level.result
  reference := h.level.reference

private theorem Level.withLive (h : sides.Level) {entries twins live twinLive : List (String × Rep)}
    (hlive : sides.left.live = entries ++ live) (htwin : sides.right.live = twins ++ twinLive) :
    (sides.withLive live twinLive).Level :=
  ⟨h.left.withLive hlive, h.right.withLive htwin, h.shared, h.taken, h.twinTaken, h.result,
    h.reference⟩

/-- The states are level when what was taken is released. -/
theorem Above.settled {cleanup twinCleanup : List Instr}
    (h : before.Above after pairs cleanup twinCleanup) (hlevel : after.Level) :
    (after.withLive before.left.live before.right.live).Level := by
  obtain ⟨entries, twins, hlive, htwin, _⟩ := h
  exact hlevel.withLive hlive htwin

end Level

end Sides

namespace Facts

/-- Facts that know nothing of the names that come into use between two states. -/
structure Clear (facts : Facts) (before after : Sides) : Prop where
  left : ∀ name, facts.HasLeft name → name ∈ after.left.declared → name ∈ before.left.declared
  right : ∀ name, facts.HasRight name → name ∈ after.right.declared →
    name ∈ before.right.declared

variable {facts : Facts} {before middle after : Sides} {pairs : List (String × String)}

theorem Clear.first (h : facts.Clear before after) (hleads : middle.Leads after) :
    facts.Clear before middle where
  left := fun name hn hm => h.left name hn (hleads.left.declared name hm)
  right := fun name hn hm => h.right name hn (hleads.right.declared name hm)

theorem Clear.last (h : facts.Clear before after) (hleads : before.Leads middle) :
    facts.Clear middle after where
  left := fun name hn hm => hleads.left.declared name (h.left name hn hm)
  right := fun name hn hm => hleads.right.declared name (h.right name hn hm)

private theorem hasLeft_join {name : String} :
    (facts.join pairs).HasLeft name ↔ name ∈ pairs.map Prod.fst ∨ facts.HasLeft name := by
  simp only [HasLeft, join, List.map_append, List.mem_append]

private theorem hasRight_join {name : String} :
    (facts.join pairs).HasRight name ↔ name ∈ pairs.map Prod.snd ∨ facts.HasRight name := by
  simp only [HasRight, join, List.map_append, List.mem_append]

theorem not_hasLeft_empty (name : String) : ¬({} : Facts).HasLeft name := by
  simp [HasLeft]

theorem not_hasRight_empty (name : String) : ¬({} : Facts).HasRight name := by
  simp [HasRight]

theorem hasLeft_tie {name left right : String} :
    (facts.tie left right).HasLeft name ↔ name = left ∨ facts.HasLeft name := by
  simp only [HasLeft, tie, List.map_cons, List.mem_cons]

theorem hasRight_tie {name left right : String} :
    (facts.tie left right).HasRight name ↔ name = right ∨ facts.HasRight name := by
  simp only [HasRight, tie, List.map_cons, List.mem_cons]

theorem join_join (facts : Facts) (pairs others : List (String × String)) :
    (facts.join pairs).join others = facts.join (others ++ pairs) := by
  simp only [Facts.join, List.append_assoc]

theorem Clear.join (h : facts.Clear before after) (hleads : before.Leads middle)
    (hnews : before.News middle pairs) : (facts.join pairs).Clear middle after := by
  refine ⟨fun name hn hm => ?_, fun name hn hm => ?_⟩
  · rcases hasLeft_join.mp hn with hn | hn
    · obtain ⟨pair, hp, rfl⟩ := List.mem_map.mp hn
      exact (hnews.left pair hp).2
    · exact (h.last hleads).left name hn hm
  · rcases hasRight_join.mp hn with hn | hn
    · obtain ⟨pair, hp, rfl⟩ := List.mem_map.mp hn
      exact (hnews.right pair hp).2
    · exact (h.last hleads).right name hn hm

/-- Nothing is known of a name that comes into use. -/
theorem Clear.not_has (h : facts.Clear before after) (hnews : before.News after pairs) :
    ∀ pair ∈ pairs, ¬facts.HasLeft pair.1 ∧ ¬facts.HasRight pair.2 := fun pair hp =>
  ⟨fun hn => (hnews.left pair hp).1 (h.left _ hn (hnews.left pair hp).2),
    fun hn => (hnews.right pair hp).1 (h.right _ hn (hnews.right pair hp).2)⟩

end Facts

section Releases

variable [OwnNames] {exit facts less : Facts}

theorem Instr.Match.releases {entries twins : List (String × Rep)}
    (hlength : entries.length = twins.length)
    (hties : ∀ pair ∈ tiesOf entries twins, pair ∈ facts.ties)
    (hdistinct : (entries.map Prod.fst).Nodup) (htwinDistinct : (twins.map Prod.fst).Nodup)
    (hless : less.Within facts) (hgone : ∀ entry ∈ entries, ¬less.HasLeft entry.1)
    (htwinGone : ∀ entry ∈ twins, ¬less.HasRight entry.1) :
    Instr.Match exit facts (releases entries) (releases twins) less := by
  have hmain : ∀ entries twins : List (String × Rep), entries.length = twins.length →
      (entries.map Prod.fst).Nodup → (twins.map Prod.fst).Nodup →
      (∀ entry ∈ entries, ¬less.HasLeft entry.1) → (∀ entry ∈ twins, ¬less.HasRight entry.1) →
      Instr.Match exit (less.join (tiesOf entries twins)) (IsaBackend.releases entries)
        (IsaBackend.releases twins) less := by
    intro entries
    induction entries with
    | nil =>
      intro twins hlength _ _ _ _
      rw [List.length_eq_zero_iff.mp hlength.symm]
      exact .nil exit less
    | cons entry entries ih =>
      intro twins hlength hdistinct htwinDistinct hgone htwinGone
      cases twins with
      | nil => cases hlength
      | cons twin twins =>
        obtain ⟨hentry, hrest⟩ := List.nodup_cons.mp hdistinct
        obtain ⟨htwin, htwinRest⟩ := List.nodup_cons.mp htwinDistinct
        obtain ⟨hgoneEntry, hgoneRest⟩ := List.forall_mem_cons.mp hgone
        obtain ⟨hgoneTwin, hgoneTwins⟩ := List.forall_mem_cons.mp htwinGone
        have hmatch := ih twins (Nat.succ.inj hlength) hrest htwinRest hgoneRest hgoneTwins
        have hwithin : (less.join (tiesOf entries twins)).Within
            (less.join (tiesOf (entry :: entries) (twin :: twins))) :=
          fun _ h => List.mem_cons_of_mem _ h
        refine .release entry.2 twin.2 (.inl List.mem_cons_self) hwithin ?_ ?_ hmatch
        · intro hn
          rcases Facts.hasLeft_join.mp hn with hn | hn
          · obtain ⟨pair, hp, heq⟩ := List.mem_map.mp hn
            exact hentry (heq ▸ (mem_of_mem_tiesOf hp).1)
          · exact hgoneEntry hn
        · intro hn
          rcases Facts.hasRight_join.mp hn with hn | hn
          · obtain ⟨pair, hp, heq⟩ := List.mem_map.mp hn
            exact htwin (heq ▸ (mem_of_mem_tiesOf hp).2)
          · exact hgoneTwin hn
  have hwithin : (less.join (tiesOf entries twins)).Within facts := by
    intro pair hp
    rcases List.mem_append.mp hp with hp | hp
    · exact hties pair hp
    · exact hless hp
  exact .weaken hwithin (hmain entries twins hlength hdistinct htwinDistinct hgone htwinGone)

theorem Sides.Above.cleanup {before after : Sides} {pairs : List (String × String)}
    {cleanup twinCleanup : List Instr} (h : before.Above after pairs cleanup twinCleanup)
    (hlevel : after.Level) (hties : ∀ pair ∈ pairs, pair ∈ facts.ties) (hless : less.Within facts)
    (hgone : ∀ pair ∈ pairs, ¬less.HasLeft pair.1 ∧ ¬less.HasRight pair.2) :
    Instr.Match exit facts cleanup twinCleanup less := by
  obtain ⟨entries, twins, hlive, htwin, rfl, rfl, hlength, hsub⟩ := h
  have hdistinct := hlevel.left.distinct
  have htwinDistinct := hlevel.right.distinct
  rw [hlive, List.map_append, List.nodup_append] at hdistinct
  rw [htwin, List.map_append, List.nodup_append] at htwinDistinct
  refine .releases hlength (fun pair hp => hties pair (hsub pair hp)) hdistinct.1 htwinDistinct.1
    hless (fun entry he => ?_) (fun entry he => ?_)
  · obtain ⟨pair, hp, hpair⟩ := exists_mem_tiesOf_left hlength he
    exact hpair ▸ (hgone pair (hsub pair hp)).1
  · obtain ⟨pair, hp, hpair⟩ := exists_mem_tiesOf_right hlength he
    exact hpair ▸ (hgone pair (hsub pair hp)).2

end Releases

end IsaBackend
