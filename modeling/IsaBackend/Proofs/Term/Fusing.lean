import IsaBackend.Proofs.Names
import IsaBackend.Proofs.Term.Mentions
import IsaBackend.Term.Fuse

/-!
# The names of a fused term

Fusing keeps what a term binds and adds no use of a name: constants that are known by a name have
no names themselves, and those that stand in the operands were uses before.
-/

namespace IsaBackend

namespace Inline

private theorem names_of_isLiteral {expr : Inline} (h : expr.isLiteral = true) : expr.names =
    [] := by
  induction expr with
  | name _ => cases h
  | field _ _ _ => cases h
  | address _ => cases h
  | binary op left right ihleft ihright =>
    obtain ⟨hleft, hright⟩ := Bool.and_eq_true_iff.mp h
    simp only [names, ihleft hleft, ihright hright, List.append_nil]
  | not operand ih => exact ih h
  | _ => rfl

private theorem names_ofLiteral? {value : Literal} {expr : Inline}
    (h : ofLiteral? value = some expr) : expr.names = [] := by
  have hdigits : ∀ digits radix bitsPerDigit,
      ofDigits? digits radix bitsPerDigit = some expr → expr.names = [] := by
    intro digits radix bitsPerDigit h
    simp only [ofDigits?] at h
    split at h
    · obtain ⟨_, _, rfl⟩ := Option.map_eq_some_iff.mp h
      rfl
    · cases h
  cases value with
  | hex digits => exact hdigits _ _ _ h
  | bin digits => exact hdigits _ _ _ h
  | undefined => cases h
  | _ =>
    cases h
    rfl

end Inline

/-- No known constant has names in it. -/
def KnownConstants.Closed (known : KnownConstants) : Prop :=
  ∀ name expr, known.get? name = some expr → expr.names = []

namespace Term

variable {known : KnownConstants}

theorem closed_empty : KnownConstants.Closed ∅ := by
  intro name expr h
  cases h

private theorem closed_erase (h : known.Closed) (name : String) :
    KnownConstants.Closed (known.erase name) := by
  intro other expr hother
  rw [NameTable.get?_erase] at hother
  split at hother
  · cases hother
  · exact h other expr hother

theorem closed_put (h : known.Closed) (name : String) {value : Option Inline}
    (hvalue : ∀ expr, value = some expr → expr.names = []) :
    KnownConstants.Closed (known.put name value) := by
  intro other expr hother
  rw [NameTable.get?_put] at hother
  split at hother
  · exact hvalue expr hother
  · exact h other expr hother

private theorem wordConstant?_names (h : known.Closed) {operand : Atom} {expr : Inline}
    (hexpr : wordConstant? known operand = some expr) :
    ∀ name ∈ expr.names, .verbatim name ∈ operand.mentions := by
  obtain ⟨hexpr, _⟩ := Option.filter_eq_some_iff.mp hexpr
  have hnone : expr.names = [] → ∀ name ∈ expr.names, .verbatim name ∈ operand.mentions := by
    intro hnil name hn
    rw [hnil] at hn
    cases hn
  unfold constant? at hexpr
  split at hexpr
  · cases hexpr
    exact fun name hn => List.mem_map.mpr ⟨name, hn, rfl⟩
  · exact hnone (h _ _ hexpr)
  · exact hnone (Inline.names_ofLiteral? hexpr)
  · cases hexpr

theorem boundConstant?_names {ty : Ty} {term : Term} {expr : Inline}
    (h : boundConstant? ty term = some expr) : expr.names = [] := by
  unfold boundConstant? at h
  split at h
  · split at h
    · rename_i htest
      cases h
      exact Inline.names_of_isLiteral (Bool.and_eq_true_iff.mp htest).1
    · cases h
  · split at h
    · exact Inline.names_ofLiteral? h
    · cases h
  · cases h

private theorem binary_names {op : Operator} {left right : Atom} {leftExpr rightExpr : Inline}
    (hleft : ∀ name ∈ leftExpr.names, .verbatim name ∈ left.mentions)
    (hright : ∀ name ∈ rightExpr.names, .verbatim name ∈ right.mentions) :
    ∀ name ∈ (Inline.binary op leftExpr rightExpr).names,
      .verbatim name ∈ left.mentions ++ right.mentions := by
  intro name hn
  rcases List.mem_append.mp hn with hn | hn
  · exact List.mem_append_left _ (hleft name hn)
  · exact List.mem_append_right _ (hright name hn)

theorem fused?_names (h : known.Closed) {around : Surroundings} {left right : Atom}
    {ty : Ty} {primitive : FusedPrimitive} {expr : Inline}
    (hexpr : fused? around known left right ty primitive = some expr) :
    ∀ name ∈ expr.names, .verbatim name ∈ left.mentions ++ right.mentions := by
  cases primitive with
  | addInt =>
    simp only [fused?] at hexpr
    split at hexpr
    · obtain ⟨leftExpr, hleft, hexpr⟩ := Option.bind_eq_some_iff.mp hexpr
      obtain ⟨rightExpr, hright, hexpr⟩ := Option.bind_eq_some_iff.mp hexpr
      cases hexpr
      exact binary_names (wordConstant?_names h hleft) (wordConstant?_names h hright)
    · cases hexpr
  | xorBits =>
    obtain ⟨_, _, hexpr⟩ := Option.bind_eq_some_iff.mp hexpr
    obtain ⟨_, _, hexpr⟩ := Option.bind_eq_some_iff.mp hexpr
    obtain ⟨_, _, hexpr⟩ := Option.bind_eq_some_iff.mp hexpr
    obtain ⟨leftExpr, hleft, hexpr⟩ := Option.bind_eq_some_iff.mp hexpr
    obtain ⟨rightExpr, hright, hexpr⟩ := Option.bind_eq_some_iff.mp hexpr
    cases hexpr
    exact binary_names (wordConstant?_names h hleft) (wordConstant?_names h hright)
  | addBits =>
    obtain ⟨_, _, hexpr⟩ := Option.bind_eq_some_iff.mp hexpr
    obtain ⟨_, _, hexpr⟩ := Option.bind_eq_some_iff.mp hexpr
    obtain ⟨_, _, hexpr⟩ := Option.bind_eq_some_iff.mp hexpr
    obtain ⟨leftExpr, hleft, hexpr⟩ := Option.bind_eq_some_iff.mp hexpr
    obtain ⟨rightExpr, hright, hexpr⟩ := Option.bind_eq_some_iff.mp hexpr
    cases hexpr
    intro name hn
    -- The mask that reduces the sum has no names.
    rcases List.mem_append.mp hn with hn | hn
    · exact binary_names (wordConstant?_names h hleft) (wordConstant?_names h hright) name hn
    · cases hn

private theorem fuseCall_names (h : known.Closed) (around : Surroundings) (callee : String)
    (args : List Atom) (ty : Ty) :
    (fuseCall around known callee args ty).bound = [] ∧
      (fuseCall around known callee args ty).mentions ⊆ Atom.mentionsAll args := by
  have hcall : (call callee args ty).bound = [] ∧
      (call callee args ty).mentions ⊆ Atom.mentionsAll args := ⟨rfl, fun _ hu => hu⟩
  unfold fuseCall
  split
  · rename_i left right _
    split
    · rename_i expr hexpr
      refine ⟨rfl, fun use hu => ?_⟩
      obtain ⟨name, hname, rfl⟩ := List.mem_map.mp hu
      have hargs : Atom.mentionsAll [left, right] = left.mentions ++ right.mentions :=
        congrArg (left.mentions ++ ·) (List.append_nil _)
      rw [hargs]
      exact fused?_names h hexpr name hname
    · exact hcall
  · exact hcall

private theorem append_subset_append {uses more outer moreOuter : List Mention}
    (h : uses ⊆ outer) (hmore : more ⊆ moreOuter) : uses ++ more ⊆ outer ++ moreOuter :=
  List.append_subset.mpr ⟨List.subset_append_of_subset_left _ h,
    List.subset_append_of_subset_right _ hmore⟩

mutual

/-- Fusing keeps what a term binds and adds no use. -/
theorem fuseIn_names (around : Surroundings) : ∀ (term : Term) {known : KnownConstants},
    known.Closed → (fuseIn around known term).bound = term.bound ∧
      (fuseIn around known term).mentions ⊆ term.mentions
  | .call callee args ty, _, h => fuseCall_names h around callee args ty
  | .atom _, _, _ => ⟨rfl, List.Subset.refl _⟩
  | .ret _ _, _, _ => ⟨rfl, List.Subset.refl _⟩
  | .field _ _ _, _, _ => ⟨rfl, List.Subset.refl _⟩
  | .update _ _ _, _, _ => ⟨rfl, List.Subset.refl _⟩
  | .cast inner _, _, h => fuseIn_names around inner h
  | .assign target _ value, _, h => by
    obtain ⟨hbound, hmentions⟩ := fuseIn_names around value h
    exact ⟨hbound, List.cons_subset_cons _ hmentions⟩
  | .bind name ty init body _, known, h => by
    obtain ⟨hinitBound, hinit⟩ := fuseIn_names around init h
    have hconstant : ∀ expr, boundConstant? ty (fuseIn around known init) = some expr →
        expr.names = [] := fun _ => boundConstant?_names
    obtain ⟨hbodyBound, hbody⟩ := fuseIn_names around body (closed_put h name hconstant)
    refine ⟨?_, append_subset_append hinit (List.filter_subset _ hbody)⟩
    simp only [fuseIn, bound, hinitBound, hbodyBound]
  | .block stmts last _, _, h => by
    obtain ⟨hstmtsBound, hstmts⟩ := fuseAll_names around stmts h
    obtain ⟨hlastBound, hlast⟩ := fuseIn_names around last h
    refine ⟨?_, append_subset_append hstmts hlast⟩
    simp only [fuseIn, bound, hstmtsBound, hlastBound]
  | .cond _ onTrue onFalse _, _, h => by
    obtain ⟨htrueBound, htrue⟩ := fuseIn_names around onTrue h
    obtain ⟨hfalseBound, hfalse⟩ := fuseIn_names around onFalse h
    refine ⟨?_, append_subset_append (append_subset_append (List.Subset.refl _) htrue) hfalse⟩
    simp only [fuseIn, bound, htrueBound, hfalseBound]
  | .count index _ _ _ _ body, _, h => by
    obtain ⟨hbodyBound, hbody⟩ := fuseIn_names around body (closed_erase h index)
    refine ⟨?_, append_subset_append (List.Subset.refl _) (List.filter_subset _ hbody)⟩
    simp only [fuseIn, bound, hbodyBound]
  | .loop _ test body, _, h => by
    obtain ⟨htestBound, htest⟩ := fuseIn_names around test h
    obtain ⟨hbodyBound, hbody⟩ := fuseIn_names around body h
    refine ⟨?_, append_subset_append htest hbody⟩
    simp only [fuseIn, bound, htestBound, hbodyBound]

theorem fuseAll_names (around : Surroundings) : ∀ (terms : List Term) {known : KnownConstants},
    known.Closed → boundAll (fuseAll around known terms) = boundAll terms ∧
      mentionsAll (fuseAll around known terms) ⊆ mentionsAll terms
  | [], _, _ => ⟨rfl, List.Subset.refl _⟩
  | term :: rest, _, h => by
    obtain ⟨htermBound, hterm⟩ := fuseIn_names around term h
    obtain ⟨hrestBound, hrest⟩ := fuseAll_names around rest h
    refine ⟨?_, append_subset_append hterm hrest⟩
    simp only [fuseAll, boundAll, htermBound, hrestBound]

end

theorem fuse_names (around : Surroundings) (term : Term) :
    (term.fuse around).bound = term.bound ∧ (term.fuse around).mentions ⊆ term.mentions :=
  fuseIn_names around term closed_empty

end Term

end IsaBackend
