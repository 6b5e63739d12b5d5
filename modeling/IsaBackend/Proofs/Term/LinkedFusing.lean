import IsaBackend.Proofs.Term.Alike
import IsaBackend.Proofs.Term.Fusing

/-!
# Fusing terms that are alike

Fusing looks at the names of locals only to find the constants that they are bound to. Terms that are
alike are fused to terms that are alike.
-/

namespace IsaBackend

section Fusing

variable [OwnNames] {links : List Link} {known twinKnown : KnownConstants}

/-- The constants known on two sides are the same for names that mean the same, unless they can be
assigned to. -/
structure KnownConstants.Linked (links : List Link) (known twinKnown : KnownConstants) : Prop where
  same : ∀ name twin, Link.Same links name twin → Link.class? links name ≠ some .mutableLocal →
    known.get? name = twinKnown.get? twin
  closed : known.Closed

namespace Term

private theorem constant?_alike (hknown : known.Linked links twinKnown) {atom twin : Atom}
    (h : atom.Alike links twin) : constant? known atom = constant? twinKnown twin := by
  cases h with
  | @name left right cls ty hsame hsuits =>
    cases cls with
    | immutableLocal =>
      refine hknown.same left right hsame fun hmutable => ?_
      cases hsuits _ hmutable
    | _ => rfl
  | _ => rfl

private theorem fused?_alike (around : Surroundings) (hknown : known.Linked links twinKnown)
    {left right twinLeft twinRight : Atom} (hleft : left.Alike links twinLeft)
    (hright : right.Alike links twinRight) (ty : Ty) (primitive : FusedPrimitive) :
    fused? around known left right ty primitive =
      fused? around twinKnown twinLeft twinRight ty primitive := by
  have hword : wordConstant? known left = wordConstant? twinKnown twinLeft := by
    rw [wordConstant?, wordConstant?, constant?_alike hknown hleft]
  have htwin : wordConstant? known right = wordConstant? twinKnown twinRight := by
    rw [wordConstant?, wordConstant?, constant?_alike hknown hright]
  cases primitive <;> simp only [fused?, hword, htwin, hleft.ty_eq, hright.ty_eq]

mutual

/-- Nothing stands in atoms that are alike which the code would use as it is. -/
private theorem not_verbatim_of_alike (name : String) :
    ∀ {atom twin : Atom}, atom.Alike links twin → .verbatim name ∉ atom.mentions
  | _, _, .lit _ _ => List.not_mem_nil
  | _, _, .name _ _ _ => fun h => by cases List.mem_singleton.mp h
  | _, _, .refTo _ _ => List.not_mem_nil
  | _, _, .tuple h => not_verbatim_of_alikeAll name h
  | _, _, .list _ h => not_verbatim_of_alikeAll name h
  | _, _, .vector _ h => not_verbatim_of_alikeAll name h
  | _, _, .inline _ h => by
    intro hmem
    obtain ⟨key, hkey, _⟩ := List.mem_map.mp hmem
    rw [h] at hkey
    cases hkey

private theorem not_verbatim_of_alikeAll (name : String) :
    ∀ {atoms twins : List Atom}, Atom.AlikeAll links atoms twins →
      .verbatim name ∉ Atom.mentionsAll atoms
  | _, _, .nil => List.not_mem_nil
  | _, _, .cons h hrest => fun hmem => (List.mem_append.mp hmem).elim
    (not_verbatim_of_alike name h) (not_verbatim_of_alikeAll name hrest)

end

private theorem names_of_alike {left right twinLeft twinRight : Atom}
    (hleft : left.Alike links twinLeft) (hright : right.Alike links twinRight)
    {expr : Inline} (h : ∀ name ∈ expr.names, .verbatim name ∈ left.mentions ++ right.mentions) :
    expr.names = [] := by
  refine List.eq_nil_iff_forall_not_mem.mpr fun name hname => ?_
  rcases List.mem_append.mp (h name hname) with hmem | hmem
  · exact not_verbatim_of_alike name hleft hmem
  · exact not_verbatim_of_alike name hright hmem

private theorem fuseCall_alike (around : Surroundings) (hknown : known.Linked links twinKnown)
    (callee : String) {args twins : List Atom} (h : Atom.AlikeAll links args twins) (ty : Ty) :
    Term.Alike links (fuseCall around known callee args ty)
      (fuseCall around twinKnown callee twins ty) := by
  have hcall : Term.Alike links (.call callee args ty) (.call callee twins ty) :=
    .call callee ty h
  unfold fuseCall
  cases FusedPrimitive.ofName? callee with
  | none => exact hcall
  | some primitive =>
    match h with
    | .nil => exact hcall
    | .cons _ .nil => exact hcall
    | .cons _ (.cons _ (.cons _ _)) => exact hcall
    | .cons hleft (.cons hright .nil) =>
      simp only [← fused?_alike around hknown hleft hright ty primitive]
      cases hfused : fused? around known _ _ ty primitive with
      | none => exact hcall
      | some expr =>
        exact .atom (.inline ty (names_of_alike hleft hright (fused?_names hknown.closed hfused)))

private theorem boundConstant?_alike {term twin : Term} (h : Term.Alike links term twin) (ty : Ty) :
    boundConstant? ty term = boundConstant? ty twin := by
  cases h with
  | atom hvalue =>
    cases hvalue with
    | _ => rfl
  | _ => rfl

end Term

namespace KnownConstants.Linked

theorem empty (links : List Link) : KnownConstants.Linked links ∅ ∅ where
  same := fun _ _ _ _ => rfl
  closed := Term.closed_empty

private theorem put (h : known.Linked links twinKnown) (name twin : String) (mutable : Bool)
    {constant : Option Inline} (hconstant : ∀ expr, constant = some expr → expr.names = []) :
    KnownConstants.Linked (⟨name, twin, mutable⟩ :: links) (known.put name constant)
      (twinKnown.put twin constant) where
  same := by
    rintro key other (⟨rfl, rfl⟩ | ⟨hne, hother, hsame⟩) hclass
    · rw [NameTable.get?_put, NameTable.get?_put, if_pos rfl, if_pos rfl]
    · rw [Link.class?, if_neg hne] at hclass
      rw [NameTable.get?_put, NameTable.get?_put, if_neg (Ne.symm hne), if_neg (Ne.symm hother)]
      exact h.same key other hsame hclass
  closed := Term.closed_put h.closed name hconstant

end KnownConstants.Linked

namespace Term

mutual

/-- Terms that are alike are fused to terms that are alike. -/
theorem fuseIn_alike (around : Surroundings) :
    ∀ {links : List Link} {term twin : Term}, Term.Alike links term twin →
      ∀ {known twinKnown : KnownConstants}, known.Linked links twinKnown →
        Term.Alike links (term.fuseIn around known) (twin.fuseIn around twinKnown)
  | _, _, _, .atom hvalue, _, _, _ => .atom hvalue
  | _, _, _, .call callee ty hargs, _, _, hknown => fuseCall_alike around hknown callee hargs ty
  | _, _, _, .cast ty hinner, _, _, hknown => .cast ty (fuseIn_alike around hinner hknown)
  | _, _, _, .assign ty hsame hclass hvalue, _, _, hknown =>
    .assign ty hsame hclass (fuseIn_alike around hvalue hknown)
  | _, .bind name _ init _ _, .bind twin _ _ _ _, .bind ty bodyTy mutable hname hinit hbody, known,
      twinKnown, hknown => by
    have hinits := fuseIn_alike around hinit hknown
    have hbound : ∀ expr, boundConstant? ty (init.fuseIn around known) = some expr →
        expr.names = [] := fun _ => boundConstant?_names
    refine .bind ty bodyTy mutable hname hinits ?_
    rw [← boundConstant?_alike hinits ty]
    exact fuseIn_alike around hbody (hknown.put name twin mutable hbound)
  | _, _, _, .block ty hstmts hlast, _, _, hknown =>
    .block ty (fuseAll_alike around hstmts hknown) (fuseIn_alike around hlast hknown)
  | _, _, _, .ret ty hvalue, _, _, _ => .ret ty hvalue
  | _, _, _, .cond ty htest htrue hfalse, _, _, hknown =>
    .cond ty htest (fuseIn_alike around htrue hknown) (fuseIn_alike around hfalse hknown)
  | _, _, _, .field key ty hrecord, _, _, _ => .field key ty hrecord
  | _, _, _, .update ty hrecord hfields, _, _, _ => .update ty hrecord hfields
  | links, .count var _ _ _ _ _, .count twinVar _ _ _ _ _,
      .count direction hvar hfirst hlast hstep hbody, known, twinKnown, hknown => by
    have hinner : KnownConstants.Linked (⟨var, twinVar, false⟩ :: links)
        (known.put var none) (twinKnown.put twinVar none) :=
      hknown.put var twinVar false fun _ h => by cases h
    exact .count direction hvar hfirst hlast hstep (fuseIn_alike around hbody hinner)
  | _, _, _, .loop kind htest hbody, _, _, hknown =>
    .loop kind (fuseIn_alike around htest hknown) (fuseIn_alike around hbody hknown)

theorem fuseAll_alike (around : Surroundings) :
    ∀ {links : List Link} {terms twins : List Term}, Term.AlikeAll links terms twins →
      ∀ {known twinKnown : KnownConstants}, known.Linked links twinKnown →
        Term.AlikeAll links (fuseAll around known terms) (fuseAll around twinKnown twins)
  | _, _, _, .nil links, _, _, _ => .nil links
  | _, _, _, .cons hterm hrest, _, _, hknown =>
    .cons (fuseIn_alike around hterm hknown) (fuseAll_alike around hrest hknown)

end

end Term

end Fusing

end IsaBackend
