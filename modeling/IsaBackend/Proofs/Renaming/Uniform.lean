import IsaBackend.Proofs.Renaming.Code

/-!
# Runs for every start of the supply

A computation is looked at for all numbers at which the supply of fresh names can start, at once. It is
uniform if it succeeds for all of them or fails for all of them, and if all that changes with the start
are the numbers of generated names: in the state it leaves, in what it gives, and in the texts of its
errors.
-/

namespace IsaBackend

open FreshNames (shift)

/-- Texts for every start of the supply that differ in the numbers of generated names only. -/
inductive TextMoves : (Nat → String) → Prop where
  | same (text : String) : TextMoves fun _ => text
  | generated (number : Nat) : TextMoves fun offset => FreshNames.name (number + offset)
  | append {first second : Nat → String} : TextMoves first → TextMoves second →
      TextMoves fun offset => first offset ++ second offset

inductive ErrorMoves : (Nat → CompileError) → Prop where
  | same (cause : CompileError) : ErrorMoves fun _ => cause
  | unsupported {construct : Nat → String} (pos : Position) : TextMoves construct →
      ErrorMoves fun offset => .unsupported (construct offset) pos
  | mismatch (source target : Rep) {context : Nat → String} : TextMoves context →
      ErrorMoves fun offset => .mismatch source target (context offset)
  | neverReleased (name function : String) :
      ErrorMoves fun offset => .neverReleased (shift offset name) function
  | lifetime (function : String) (cause : LifetimeError) :
      ErrorMoves fun offset => .lifetime function (cause.rename (shift offset))

namespace TextMoves

theorem shift (text : String) : TextMoves fun offset => FreshNames.shift offset text := by
  by_cases h : FreshNames.IsGenerated text
  · obtain ⟨number, rfl⟩ := h
    simp only [FreshNames.shift_name]
    exact generated number
  · simp only [FreshNames.shift_of_not_generated h]
    exact same text

theorem between {middle : Nat → String} (h : TextMoves middle) (before after : String) :
    TextMoves fun offset => before ++ middle offset ++ after :=
  ((same before).append h).append (same after)

theorem intercalate (separator : String) : ∀ {texts : List (Nat → String)},
    (∀ text ∈ texts, TextMoves text) →
    TextMoves fun offset => String.intercalate separator (texts.map fun text => text offset)
  | [], _ => same ""
  | [text], h => by
    simp only [List.map_cons, List.map_nil, String.intercalate_singleton]
    exact h text List.mem_cons_self
  | first :: second :: rest, h => by
    obtain ⟨hfirst, hrest⟩ := List.forall_mem_cons.mp h
    simp only [List.map_cons, String.intercalate_cons_cons]
    exact (hfirst.append (same separator)).append (intercalate separator hrest)

end TextMoves

/-- States that hold a supply of fresh names and names that it has given. -/
class Movable (σ : Type) where
  /-- The state that takes the place of a state when the supply starts at a later number. -/
  move : Nat → σ → σ

open Movable (move)

/-- From a state, computations for every start of the supply all succeed, with a condition on what
they give, or all fail, with causes that move along. -/
def Uniform {σ α : Type} [Movable σ] (acts : Nat → EStateM CompileError σ α) (state : σ)
    (good : (Nat → α) → σ → Prop) : Prop :=
  (∃ values after, (∀ offset, acts offset (move offset state) =
      .ok (values offset) (move offset after)) ∧ good values after) ∨
    ∃ causes after, (∀ offset, acts offset (move offset state) =
      .error (causes offset) (move offset after)) ∧ ErrorMoves causes

namespace Uniform

variable {σ α β : Type} [Movable σ] {state : σ} {good : (Nat → α) → σ → Prop}

protected theorem pure {values : Nat → α} (h : good values state) :
    Uniform (fun offset => pure (values offset)) state good :=
  .inl ⟨values, state, fun _ => rfl, h⟩

protected theorem throw {causes : Nat → CompileError} (h : ErrorMoves causes) :
    Uniform (fun offset => throw (causes offset)) state good :=
  .inr ⟨causes, state, fun _ => rfl, h⟩

protected theorem bind {acts : Nat → EStateM CompileError σ α}
    {nexts : Nat → α → EStateM CompileError σ β} {better : (Nat → β) → σ → Prop}
    (h : Uniform acts state good)
    (hnext : ∀ values after, good values after →
      Uniform (fun offset => nexts offset (values offset)) after better) :
    Uniform (fun offset => acts offset >>= nexts offset) state better := by
  rcases h with ⟨values, after, hacts, hgood⟩ | ⟨causes, after, hacts, hcauses⟩
  · rcases hnext values after hgood with ⟨results, final, hnexts, hbetter⟩ | ⟨causes, final, hnexts, hc⟩
    · exact .inl ⟨results, final, fun offset => (bind_of_ok (hacts offset)).trans (hnexts offset),
        hbetter⟩
    · exact .inr ⟨causes, final, fun offset => (bind_of_ok (hacts offset)).trans (hnexts offset), hc⟩
  · exact .inr ⟨causes, after, fun offset => bind_of_error (hacts offset), hcauses⟩

theorem mono {acts : Nat → EStateM CompileError σ α} {better : (Nat → α) → σ → Prop}
    (h : Uniform acts state good) (himp : ∀ values after, good values after → better values after) :
    Uniform acts state better :=
  h.imp (fun ⟨values, after, hacts, hgood⟩ => ⟨values, after, hacts, himp values after hgood⟩) id

protected theorem get : Uniform (fun _ => (get : EStateM CompileError σ σ)) state
    fun values after => values = (fun offset => move offset state) ∧ after = state :=
  .inl ⟨_, state, fun _ => rfl, rfl, rfl⟩

protected theorem modify {changes : Nat → σ → σ} (after : σ)
    (h : ∀ offset, changes offset (move offset state) = move offset after) :
    Uniform (fun offset => (modify (changes offset) : EStateM CompileError σ Unit)) state
      fun _ final => final = after :=
  .inl ⟨fun _ => (), after, fun offset => congrArg (EStateM.Result.ok ()) (h offset), rfl⟩

protected theorem lift (result : Except CompileError α) :
    Uniform (fun _ => (lift result : EStateM CompileError σ α)) state fun values after =>
      (∃ value, result = .ok value ∧ values = fun _ => value) ∧ after = state := by
  cases result with
  | ok value => exact .inl ⟨fun _ => value, state, fun _ => rfl, ⟨value, rfl, rfl⟩, rfl⟩
  | error cause => exact .inr ⟨fun _ => cause, state, fun _ => rfl, .same cause⟩

protected theorem liftEach {results : Nat → Except CompileError α} {good : (Nat → α) → Prop}
    (h : (∃ values, (∀ offset, results offset = .ok (values offset)) ∧ good values) ∨
      ∃ causes, (∀ offset, results offset = .error (causes offset)) ∧ ErrorMoves causes) :
    Uniform (fun offset => (lift (results offset) : EStateM CompileError σ α)) state
      fun values after => good values ∧ after = state := by
  rcases h with ⟨values, hresults, hgood⟩ | ⟨causes, hresults, hcauses⟩
  · exact .inl ⟨values, state, fun offset => lift_eq_ok.mpr ⟨hresults offset, rfl⟩, hgood, rfl⟩
  · exact .inr ⟨causes, state, fun offset => lift_eq_error.mpr ⟨hresults offset, rfl⟩, hcauses⟩

protected theorem ensuring {acts : Nat → EStateM CompileError σ α} {changes : Nat → σ → σ}
    (h : Uniform acts state good) (after : σ → σ)
    (hchanges : ∀ offset inner, changes offset (move offset inner) = move offset (after inner)) :
    Uniform (fun offset => ensuring (acts offset) (changes offset)) state fun values final =>
      ∃ inner, good values inner ∧ final = after inner := by
  rcases h with ⟨values, inner, hacts, hgood⟩ | ⟨causes, inner, hacts, hcauses⟩
  · refine .inl ⟨values, after inner, fun offset => ?_, inner, hgood, rfl⟩
    simp only [IsaBackend.ensuring, hacts offset, hchanges offset inner]
  · refine .inr ⟨causes, after inner, fun offset => ?_, hcauses⟩
    simp only [IsaBackend.ensuring, hacts offset, hchanges offset inner]

/-- A computation that runs another one on a state of its own, made from the one given. -/
protected theorem embed {τ : Type} [Movable τ] {acts : Nat → EStateM CompileError τ α} {inner : τ}
    {good : (Nat → α) → Prop} (h : Uniform acts inner fun values _ => good values)
    {wraps : Nat → EStateM CompileError σ α} (out : τ → σ)
    (hout : ∀ offset after, out (move offset after) = move offset (out after))
    (hok : ∀ offset value after, acts offset (move offset inner) = .ok value after →
      wraps offset (move offset state) = .ok value (out after))
    (herror : ∀ offset cause after, acts offset (move offset inner) = .error cause after →
      wraps offset (move offset state) = .error cause (out after)) :
    Uniform wraps state fun values _ => good values := by
  rcases h with ⟨values, after, hacts, hgood⟩ | ⟨causes, after, hacts, hcauses⟩
  · refine .inl ⟨values, out after, fun offset => ?_, hgood⟩
    rw [hok offset _ _ (hacts offset), hout]
  · refine .inr ⟨causes, out after, fun offset => ?_, hcauses⟩
    rw [herror offset _ _ (hacts offset), hout]

end Uniform

instance : Movable FreshNames where
  move offset names := ⟨names.next + offset⟩

end IsaBackend
