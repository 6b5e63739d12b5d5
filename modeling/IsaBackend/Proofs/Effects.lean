import IsaBackend.Ensuring

/-!
# Computations with state and errors

A sequence of two computations succeeds exactly when both do, and fails with the first failure.
Proofs take computations apart with these facts, from left to right.
-/

namespace IsaBackend

variable {ε σ α β : Type}

theorem bind_eq_ok {act : EStateM ε σ α} {next : α → EStateM ε σ β} {start final : σ}
    {value : β} :
    (act >>= next) start = .ok value final ↔
      ∃ first middle, act start = .ok first middle ∧ next first middle = .ok value final := by
  change EStateM.bind act next start = _ ↔ _
  unfold EStateM.bind
  cases act start <;> simp [and_assoc]

theorem bind_of_ok {act : EStateM ε σ α} {next : α → EStateM ε σ β} {start middle : σ}
    {first : α} (h : act start = .ok first middle) :
    (act >>= next) start = next first middle := by
  change EStateM.bind act next start = _
  simp [EStateM.bind, h]

theorem bind_of_error {act : EStateM ε σ α} {next : α → EStateM ε σ β} {start final : σ}
    {cause : ε} (h : act start = .error cause final) :
    (act >>= next) start = .error cause final := by
  change EStateM.bind act next start = _
  simp [EStateM.bind, h]

@[simp] theorem get_apply (state : σ) : (get : EStateM ε σ σ) state = .ok state state := rfl

@[simp] theorem lift_apply_ok (value : α) (state : σ) :
    (lift (.ok value) : EStateM ε σ α) state = .ok value state := rfl

@[simp] theorem lift_apply_error (cause : ε) (state : σ) :
    (lift (.error cause) : EStateM ε σ α) state = .error cause state := rfl

theorem lift_eq_ok {result : Except ε α} {start final : σ} {value : α} :
    (lift result : EStateM ε σ α) start = .ok value final ↔
      result = .ok value ∧ final = start := by
  cases result <;> simp [eq_comm]

theorem lift_eq_error {result : Except ε α} {start final : σ} {cause : ε} :
    (lift result : EStateM ε σ α) start = .error cause final ↔
      result = .error cause ∧ final = start := by
  cases result <;> simp [eq_comm]

theorem lift_bind_eq_ok {result : Except ε α} {next : α → EStateM ε σ β} {start final : σ}
    {value : β} :
    (lift result >>= next) start = .ok value final ↔
      ∃ first, result = .ok first ∧ next first start = .ok value final := by
  cases result with
  | ok first => simp [bind_of_ok (lift_apply_ok first start)]
  | error cause => simp [bind_of_error (lift_apply_error cause start)]

theorem ensuring_eq_ok {act : EStateM ε σ α} {after : σ → σ} {start final : σ} {value : α} :
    ensuring act after start = .ok value final ↔
      ∃ middle, act start = .ok value middle ∧ final = after middle := by
  unfold ensuring
  cases act start <;> simp [eq_comm, and_assoc]

/-- A computation succeeds with a value and a state of some kind. -/
def Gives (act : EStateM ε σ α) (state : σ) (good : α → σ → Prop) : Prop :=
  ∃ value after, act state = .ok value after ∧ good value after

namespace Gives

variable {state : σ} {good : α → σ → Prop}

protected theorem pure {value : α} (h : good value state) :
    Gives (pure value : EStateM ε σ α) state good :=
  ⟨value, state, rfl, h⟩

protected theorem bind {act : EStateM ε σ α} {next : α → EStateM ε σ β} {better : β → σ → Prop}
    (h : Gives act state good)
    (hnext : ∀ value after, good value after → Gives (next value) after better) :
    Gives (act >>= next) state better := by
  obtain ⟨value, after, hact, hgood⟩ := h
  obtain ⟨result, last, hresult, hbetter⟩ := hnext value after hgood
  exact ⟨result, last, (bind_of_ok hact).trans hresult, hbetter⟩

theorem mono {act : EStateM ε σ α} {better : α → σ → Prop} (h : Gives act state better)
    (himp : ∀ value after, better value after → good value after) : Gives act state good := by
  obtain ⟨value, after, hact, hbetter⟩ := h
  exact ⟨value, after, hact, himp value after hbetter⟩

protected theorem get :
    Gives (get : EStateM ε σ σ) state fun value after => state = value ∧ state = after :=
  ⟨state, state, rfl, rfl, rfl⟩

protected theorem lift {result : Except ε α} {value : α} (h : result = .ok value) :
    Gives (lift result : EStateM ε σ α) state fun given after => value = given ∧ state = after := by
  subst h
  exact ⟨value, state, rfl, rfl, rfl⟩

theorem ensuring {act : EStateM ε σ α} {after : σ → σ} (h : Gives act state good) :
    Gives (IsaBackend.ensuring act after) state fun value final =>
      ∃ inner, good value inner ∧ after inner = final := by
  obtain ⟨value, inner, hact, hgood⟩ := h
  exact ⟨value, after inner, ensuring_eq_ok.mpr ⟨inner, hact, rfl⟩, inner, hgood, rfl⟩

end Gives

/-- Where one computation succeeds so does another, with a condition on what they give. -/
def Mirrors {τ : Type} (act : EStateM ε σ α) (twin : EStateM ε τ β) (state : σ) (other : τ)
    (good : α → β → σ → τ → Prop) : Prop :=
  ∀ value after, act state = .ok value after → ∃ twinValue twinAfter,
    twin other = .ok twinValue twinAfter ∧ good value twinValue after twinAfter

namespace Mirrors

variable {τ γ δ : Type} {state : σ} {other : τ}

protected theorem pure {value : α} {twinValue : β} {good : α → β → σ → τ → Prop}
    (h : good value twinValue state other) :
    Mirrors (pure value : EStateM ε σ α) (pure twinValue : EStateM ε τ β) state other good := by
  intro given after hgiven
  cases hgiven
  exact ⟨twinValue, other, rfl, h⟩

theorem of_ok {act : EStateM ε σ α} {twin : EStateM ε τ β} {value : α} {twinValue : β} {after : σ}
    {twinAfter : τ} {good : α → β → σ → τ → Prop} (hact : act state = .ok value after)
    (htwin : twin other = .ok twinValue twinAfter) (h : good value twinValue after twinAfter) :
    Mirrors act twin state other good := by
  intro given final hgiven
  rw [hact] at hgiven
  cases hgiven
  exact ⟨twinValue, twinAfter, htwin, h⟩

protected theorem throw {cause : ε} {twin : EStateM ε τ β} {good : α → β → σ → τ → Prop} :
    Mirrors (throw cause : EStateM ε σ α) twin state other good := by
  intro value after h
  cases h

protected theorem bind {act : EStateM ε σ α} {twin : EStateM ε τ β} {next : α → EStateM ε σ γ}
    {twinNext : β → EStateM ε τ δ} {middle : α → β → σ → τ → Prop} {good : γ → δ → σ → τ → Prop}
    (h : Mirrors act twin state other middle)
    (hnext : ∀ value twinValue after twinAfter, middle value twinValue after twinAfter →
      Mirrors (next value) (twinNext twinValue) after twinAfter good) :
    Mirrors (act >>= next) (twin >>= twinNext) state other good := by
  intro value after hok
  obtain ⟨first, between, hact, hrest⟩ := bind_eq_ok.mp hok
  obtain ⟨twinFirst, twinBetween, htwin, hmiddle⟩ := h first between hact
  obtain ⟨twinValue, twinAfter, htwinRest, hgood⟩ := hnext _ _ _ _ hmiddle value after hrest
  exact ⟨twinValue, twinAfter, (bind_of_ok htwin).trans htwinRest, hgood⟩

theorem mono {act : EStateM ε σ α} {twin : EStateM ε τ β} {good better : α → β → σ → τ → Prop}
    (h : Mirrors act twin state other better)
    (himp : ∀ value twinValue after twinAfter, better value twinValue after twinAfter →
      good value twinValue after twinAfter) : Mirrors act twin state other good := by
  intro value after hok
  obtain ⟨twinValue, twinAfter, htwin, hbetter⟩ := h value after hok
  exact ⟨twinValue, twinAfter, htwin, himp _ _ _ _ hbetter⟩

protected theorem lift {result : Except ε α} {twinResult : Except ε β} {good : α → β → Prop}
    (h : ∀ value, result = .ok value → ∃ twinValue, twinResult = .ok twinValue ∧
      good value twinValue) :
    Mirrors (lift result) (lift twinResult) state other fun value twinValue after twinAfter =>
      good value twinValue ∧ state = after ∧ other = twinAfter := by
  intro value after hok
  obtain ⟨hresult, rfl⟩ := lift_eq_ok.mp hok
  obtain ⟨twinValue, htwin, hgood⟩ := h value hresult
  exact ⟨twinValue, other, lift_eq_ok.mpr ⟨htwin, rfl⟩, hgood, rfl, rfl⟩

theorem ensuring {act : EStateM ε σ α} {twin : EStateM ε τ β} {after : σ → σ} {twinAfter : τ → τ}
    {good : α → β → σ → τ → Prop} (h : Mirrors act twin state other good) :
    Mirrors (ensuring act after) (ensuring twin twinAfter) state other
      fun value twinValue final twinFinal => ∃ inner twinInner,
        good value twinValue inner twinInner ∧ final = after inner ∧
          twinFinal = twinAfter twinInner := by
  intro value final hok
  obtain ⟨middle, hact, rfl⟩ := ensuring_eq_ok.mp hok
  obtain ⟨twinValue, twinMiddle, htwin, hgood⟩ := h value middle hact
  exact ⟨twinValue, _, ensuring_eq_ok.mpr ⟨twinMiddle, htwin, rfl⟩, _, _, hgood, rfl, rfl⟩

end Mirrors

@[simp] theorem except_ok_bind (value : α) (next : α → Except ε β) :
    (Except.ok value >>= next) = next value := rfl

@[simp] theorem except_error_bind (cause : ε) (next : α → Except ε β) :
    (Except.error cause >>= next) = .error cause := rfl

theorem except_bind_eq_ok {first : Except ε α} {next : α → Except ε β} {value : β} :
    (first >>= next) = .ok value ↔ ∃ middle, first = .ok middle ∧ next middle = .ok value := by
  cases first <;> simp [bind, Except.bind]

theorem except_bind_eq_error {first : Except ε α} {next : α → Except ε β} {cause : ε} :
    (first >>= next) = .error cause ↔
      first = .error cause ∨ ∃ middle, first = .ok middle ∧ next middle = .error cause := by
  cases first <;> simp [bind, Except.bind]

end IsaBackend
