import IsaBackend.Proofs.Term.Forms
import IsaBackend.Proofs.Term.Mentions

/-!
# The names of an expression and of its A-normal form

The A-normal form of an expression uses only names that occur free in the expression. It binds
only names that the expression binds, and generated names that were handed out on the way.
-/

namespace IsaBackend

open List

namespace Pattern

mutual

def names : Pattern → List String
  | name key => [key]
  | typed _ key => [key]
  | wildcard => []
  | tuple elems => namesAll elems

def namesAll : List Pattern → List String
  | [] => []
  | pattern :: rest => pattern.names ++ namesAll rest

end

end Pattern

def Target.root {ε : Type} : Target ε → String
  | name key => key
  | element vector _ => vector
  | slice vector _ _ => vector
  | append vector _ => vector

namespace Expr

mutual

/-- The names that occur free in an expression. The address of a register is no use of it, and
callees are not variables. -/
def free : Expr → List String
  | lit _ _ => []
  | name _ key => [key]
  | refTo _ _ => []
  | block _ items => freeAll items
  | cond _ test onTrue onFalse => test.free ++ onTrue.free ++ onFalse.free
  | loop _ _ test body => test.free ++ body.free
  | count _ index first last step _ body =>
    first.free ++ last.free ++ step.free ++ body.free.filter (· ≠ index)
  | call _ _ args => freeAll args
  | tuple _ items => freeAll items
  | list _ items => freeAll items
  | vector _ items => freeAll items
  | field _ record _ => record.free
  | update _ record fields => record.free ++ freeFields fields
  | assign _ target value => target.root :: (freeParts target ++ value.free)
  | bind _ pattern init body => init.free ++ body.free.filter (· ∉ pattern.names)
  | var _ target init body =>
    freeParts target ++ init.free ++ body.free.filter (· ≠ target.root)
  | cast _ _ inner => inner.free
  | throw _ value => value.free
  | exit _ value => value.free
  | ret _ value => value.free
  | assert _ test text => test.free ++ text.free
  | cons _ head tail => head.free ++ tail.free
  | eliminated _ _ parts => freeAll parts

def freeAll : List Expr → List String
  | [] => []
  | expr :: rest => expr.free ++ freeAll rest

def freeFields : List (String × Expr) → List String
  | [] => []
  | (_, expr) :: rest => expr.free ++ freeFields rest

def freeParts : Target Expr → List String
  | .name _ => []
  | .element _ index => index.free
  | .slice _ hi lo => hi.free ++ lo.free
  | .append _ tail => tail.free

end

mutual

def bound : Expr → List String
  | lit _ _ => []
  | name _ _ => []
  | refTo _ _ => []
  | block _ items => boundAll items
  | cond _ test onTrue onFalse => test.bound ++ onTrue.bound ++ onFalse.bound
  | loop _ _ test body => test.bound ++ body.bound
  | count _ index first last step _ body =>
    first.bound ++ last.bound ++ step.bound ++ index :: body.bound
  | call _ _ args => boundAll args
  | tuple _ items => boundAll items
  | list _ items => boundAll items
  | vector _ items => boundAll items
  | field _ record _ => record.bound
  | update _ record fields => record.bound ++ boundFields fields
  | assign _ target value => boundParts target ++ value.bound
  | bind _ pattern init body => pattern.names ++ init.bound ++ body.bound
  | var _ target init body => target.root :: (boundParts target ++ init.bound ++ body.bound)
  | cast _ _ inner => inner.bound
  | throw _ value => value.bound
  | exit _ value => value.bound
  | ret _ value => value.bound
  | assert _ test text => test.bound ++ text.bound
  | cons _ head tail => head.bound ++ tail.bound
  | eliminated _ _ parts => boundAll parts

def boundAll : List Expr → List String
  | [] => []
  | expr :: rest => expr.bound ++ boundAll rest

def boundFields : List (String × Expr) → List String
  | [] => []
  | (_, expr) :: rest => expr.bound ++ boundFields rest

def boundParts : Target Expr → List String
  | .name _ => []
  | .element _ index => index.bound
  | .slice _ hi lo => hi.bound ++ lo.bound
  | .append _ tail => tail.bound

end

end Expr

namespace Expr

private theorem freeFields_eq (fields : List (String × Expr)) :
    freeFields fields = freeAll (fields.map Prod.snd) := by
  induction fields with
  | nil => rfl
  | cons field rest ih => exact congrArg (field.2.free ++ ·) ih

private theorem boundFields_eq (fields : List (String × Expr)) :
    boundFields fields = boundAll (fields.map Prod.snd) := by
  induction fields with
  | nil => rfl
  | cons field rest ih => exact congrArg (field.2.bound ++ ·) ih

variable {expr : Expr} {parts : List Expr} {build : List Atom → Term}

theorem Strict.free_eq (h : expr.Strict parts build) : expr.free = freeAll parts := by
  cases h <;> simp [free, freeAll, freeFields_eq]

private theorem Strict.bound_eq (h : expr.Strict parts build) : expr.bound = boundAll parts := by
  cases h <;> simp [bound, boundAll, boundFields_eq]

end Expr

/-- What flattening does to names. Numbers of generated names grow from `start` to `next`. The uses
are free names of the source or names of the hoisted bindings, and everything that is bound has a
name of the source or a generated one. -/
structure Flattens (start : Nat) (free bound : List String) (hoists : List Hoist)
    (uses : List Mention) (binders : List String) (next : Nat) : Prop where
  grows : start ≤ next
  uses : ∀ use ∈ uses,
    (∃ name ∈ free, use = .source name) ∨ ∃ hoist ∈ hoists, use = .source hoist.name
  binders : ∀ name ∈ binders, name ∈ bound ∨ ∃ number < next, name = FreshNames.name number
  inits : ∀ hoist ∈ hoists,
    (∀ use ∈ hoist.init.mentions, ∃ name ∈ free, use = .source name) ∧
    ∀ name ∈ hoist.name :: hoist.init.bound,
      name ∈ bound ∨ ∃ number < next, name = FreshNames.name number

namespace Flattens

variable {start middle next : Nat} {free bound moreFree moreBound : List String}
  {hoists moreHoists : List Hoist} {uses moreUses : List Mention}
  {binders moreBinders : List String}

private theorem refl (start : Nat) : Flattens start [] [] [] [] [] start where
  grows := Nat.le_refl _
  uses := fun _ h => absurd h not_mem_nil
  binders := fun _ h => absurd h not_mem_nil
  inits := fun _ h => absurd h not_mem_nil

private theorem single (start : Nat) (name : String) :
    Flattens start [name] [] [] [.source name] [] start where
  grows := Nat.le_refl _
  uses := fun _ h => .inl ⟨name, mem_singleton_self _, mem_singleton.mp h⟩
  binders := fun _ h => absurd h not_mem_nil
  inits := fun _ h => absurd h not_mem_nil

private theorem weaken (h : Flattens start free bound hoists uses binders next)
    (hfree : ∀ name ∈ free, name ∈ moreFree) (hbound : ∀ name ∈ bound, name ∈ moreBound)
    (hnext : next ≤ middle) : Flattens start moreFree moreBound hoists uses binders middle := by
  have hname : ∀ name, (name ∈ bound ∨ ∃ number < next, name = FreshNames.name number) →
      name ∈ moreBound ∨ ∃ number < middle, name = FreshNames.name number := by
    rintro name (hn | ⟨number, hlt, rfl⟩)
    · exact .inl (hbound name hn)
    · exact .inr ⟨number, by omega, rfl⟩
  refine ⟨Nat.le_trans h.grows hnext, fun use hu => ?_,
    fun name hn => hname name (h.binders name hn), fun hoist hh =>
      ⟨fun use hu => ?_, fun name hn => hname name ((h.inits hoist hh).2 name hn)⟩⟩
  · exact (h.uses use hu).imp_left fun ⟨name, hn, heq⟩ => ⟨name, hfree name hn, heq⟩
  · obtain ⟨name, hn, heq⟩ := (h.inits hoist hh).1 use hu
    exact ⟨name, hfree name hn, heq⟩

private theorem append (h : Flattens start free bound hoists uses binders middle)
    (hmore : Flattens middle moreFree moreBound moreHoists moreUses moreBinders next) :
    Flattens start (free ++ moreFree) (bound ++ moreBound) (hoists ++ moreHoists)
      (uses ++ moreUses) (binders ++ moreBinders) next := by
  have hfirst := h.weaken (fun _ => mem_append_left moreFree)
    (fun _ => mem_append_left moreBound) hmore.grows
  have hsecond := hmore.weaken (fun _ => mem_append_right free)
    (fun _ => mem_append_right bound) (Nat.le_refl next)
  refine ⟨hfirst.grows, fun use hu => ?_, fun name hn => ?_, fun hoist hh => ?_⟩
  · rcases mem_append.mp hu with hu | hu
    · exact (hfirst.uses use hu).imp_right fun ⟨hoist, hh, heq⟩ =>
        ⟨hoist, mem_append_left _ hh, heq⟩
    · exact (hsecond.uses use hu).imp_right fun ⟨hoist, hh, heq⟩ =>
        ⟨hoist, mem_append_right _ hh, heq⟩
  · exact (mem_append.mp hn).elim (hfirst.binders name) (hsecond.binders name)
  · exact (mem_append.mp hh).elim (hfirst.inits hoist) (hsecond.inits hoist)

private theorem followed (h : Flattens start free bound hoists uses binders middle)
    (hmore : Flattens middle moreFree moreBound [] moreUses moreBinders next) :
    Flattens start (free ++ moreFree) (bound ++ moreBound) hoists (uses ++ moreUses)
      (binders ++ moreBinders) next := by
  simpa using h.append hmore

private theorem capture {name : String} (h : Flattens start free bound [] uses binders next)
    (hfree : ∀ other ∈ free, other ≠ name → other ∈ moreFree)
    (hname : name ∈ moreBound ∨ ∃ number < next, name = FreshNames.name number)
    (hbound : ∀ other ∈ bound, other ∈ moreBound) :
    Flattens start moreFree moreBound [] (uses.filter (· ≠ .source name)) (name :: binders) next
    where
  grows := h.grows
  uses := by
    intro use hu
    obtain ⟨huse, hother⟩ := mem_filter.mp hu
    obtain ⟨other, hmem, rfl⟩ | ⟨_, hnil, _⟩ := h.uses use huse
    · refine .inl ⟨other, hfree other hmem ?_, rfl⟩
      rintro rfl
      simp at hother
    · exact absurd hnil not_mem_nil
  binders := by
    intro other hother
    rcases mem_cons.mp hother with rfl | hother
    · exact hname
    · exact (h.binders other hother).imp_left (hbound other)
  inits := fun _ hnil => absurd hnil not_mem_nil

end Flattens

namespace Term

private theorem mentions_wrap {hoists : List Hoist} {body : Term} {use : Mention}
    (h : use ∈ (wrap hoists body).mentions) :
    (∃ hoist ∈ hoists, use ∈ hoist.init.mentions) ∨
      use ∈ body.mentions ∧ ∀ hoist ∈ hoists, use ≠ .source hoist.name := by
  induction hoists with
  | nil => exact .inr ⟨h, fun _ hnil => absurd hnil not_mem_nil⟩
  | cons hoist rest ih =>
    rcases mem_append.mp h with hinit | hbody
    · exact .inl ⟨hoist, mem_cons_self, hinit⟩
    · obtain ⟨hbody, hother⟩ := mem_filter.mp hbody
      rcases ih hbody with ⟨inner, hmem, hinit⟩ | ⟨hbody, hrest⟩
      · exact .inl ⟨inner, mem_cons_of_mem _ hmem, hinit⟩
      · exact .inr ⟨hbody, forall_mem_cons.mpr ⟨by simpa using hother, hrest⟩⟩

private theorem bound_wrap {hoists : List Hoist} {body : Term} {name : String}
    (h : name ∈ (wrap hoists body).bound) :
    (∃ hoist ∈ hoists, name ∈ hoist.name :: hoist.init.bound) ∨ name ∈ body.bound := by
  induction hoists with
  | nil => exact .inr h
  | cons hoist rest ih =>
    rcases mem_append.mp h with hhead | hbody
    · exact .inl ⟨hoist, mem_cons_self, hhead⟩
    · refine (ih hbody).imp_left ?_
      rintro ⟨inner, hmem, hname⟩
      exact ⟨inner, mem_cons_of_mem _ hmem, hname⟩

private theorem mentionsAll_append (terms more : List Term) :
    mentionsAll (terms ++ more) = mentionsAll terms ++ mentionsAll more := by
  induction terms with
  | nil => rfl
  | cons term rest ih =>
    simp only [mentionsAll, cons_append, mentionsAllAs, append_assoc] at ih ⊢
    rw [ih]

private theorem boundAll_append (terms more : List Term) :
    boundAll (terms ++ more) = boundAll terms ++ boundAll more := by
  induction terms with
  | nil => rfl
  | cons term rest ih =>
    simp only [cons_append, boundAll, append_assoc]
    rw [ih]

theorem dropLast_append_getLastD (first : Term) (rest : List Term) :
    (first :: rest).dropLast ++ [(first :: rest).getLastD first] = first :: rest := by
  rw [getLastD_eq_getLast?, getLast?_eq_some_getLast (cons_ne_nil first rest)]
  exact dropLast_concat_getLast _

private theorem mentions_ofItems (ty : Ty) (items : List Term) :
    (ofItems ty items).mentions = mentionsAll items := by
  match items with
  | [] => rfl
  | [item] => simp [ofItems, mentions, mentionsAll, mentionsAllAs]
  | first :: second :: rest =>
    have hsplit := dropLast_append_getLastD first (second :: rest)
    rw [← hsplit, mentionsAll_append, hsplit]
    simp [ofItems, mentions, mentionsAs, mentionsAll, mentionsAllAs]

private theorem bound_ofItems (ty : Ty) (items : List Term) :
    (ofItems ty items).bound = boundAll items := by
  match items with
  | [] => rfl
  | [item] => simp [ofItems, boundAll]
  | first :: second :: rest =>
    have hsplit := dropLast_append_getLastD first (second :: rest)
    rw [← hsplit, boundAll_append, hsplit]
    simp [ofItems, bound, boundAll]

end Term

namespace Flattens

variable {start next : Nat} {free bound : List String} {hoists : List Hoist}

private theorem wrap {body : Term}
    (h : Flattens start free bound hoists body.mentions body.bound next) :
    Flattens start free bound [] (Term.wrap hoists body).mentions (Term.wrap hoists body).bound next
    where
  grows := h.grows
  uses := by
    intro use hu
    rcases Term.mentions_wrap hu with ⟨hoist, hh, hinit⟩ | ⟨hbody, hother⟩
    · exact .inl ((h.inits hoist hh).1 use hinit)
    · rcases h.uses use hbody with hsource | ⟨hoist, hh, heq⟩
      · exact .inl hsource
      · exact absurd heq (hother hoist hh)
  binders := by
    intro name hn
    rcases Term.bound_wrap hn with ⟨hoist, hh, hname⟩ | hbody
    · exact (h.inits hoist hh).2 name hname
    · exact h.binders name hbody
  inits := fun _ hnil => absurd hnil not_mem_nil

private theorem hoist {term : Term} {state final : FlatState} {atom : Atom}
    (h : Flattens start free bound [] term.mentions term.bound state.names.next)
    (hrun : Flattening.hoist term state = .ok (atom, hoists) final) :
    Flattens start free bound hoists atom.mentions [] final.names.next := by
  have hinit : ∀ use ∈ term.mentions, ∃ name ∈ free, use = .source name := fun use hu =>
    (h.uses use hu).resolve_right fun ⟨_, hnil, _⟩ => absurd hnil not_mem_nil
  -- Every term but an atom is bound to the next generated name.
  have hbind : Flattens start free bound [⟨FreshNames.name state.names.next, term.ty, term⟩]
      [.source (FreshNames.name state.names.next)] [] (state.names.next + 1) := by
    have hlater := h.weaken (fun _ hn => hn) (fun _ hn => hn) (Nat.le_succ _)
    refine ⟨hlater.grows, fun use hu => .inr ⟨_, mem_singleton_self _, ?_⟩,
      fun _ hnil => absurd hnil not_mem_nil, forall_mem_singleton.mpr ⟨hinit, ?_⟩⟩
    · exact mem_singleton.mp hu
    · exact forall_mem_cons.mpr ⟨.inr ⟨_, Nat.lt_succ_self _, rfl⟩, hlater.binders⟩
  cases term with
  | atom value =>
    cases hrun
    exact ⟨h.grows, h.uses, fun _ hnil => absurd hnil not_mem_nil, h.inits⟩
  | _ =>
    cases hrun
    exact hbind

end Flattens

namespace Term

open Flattening

variable {interface : Interface} {state final : FlatState}

private theorem within_eq_ok {α : Type} {name : String} {ty : Ty} {mutable : Bool}
    {act : Flattening α} {value : α} (h : within name ty mutable act state = .ok value final) :
    ∃ inner middle, inner.names = state.names ∧ act inner = .ok value middle ∧
      final.names = middle.names := by
  obtain ⟨_, inner, hinner, h⟩ := bind_eq_ok.mp h
  cases hinner
  obtain ⟨middle, hact, rfl⟩ := ensuring_eq_ok.mp h
  exact ⟨{ state with scope := state.scope.enter.declare name ty mutable }, middle, rfl, hact, rfl⟩

private theorem classify_eq_ok {name : String} {cls : Option (NameClass × Ty)}
    (h : classify interface name state = .ok cls final) : final = state := by
  cases h
  rfl

private theorem ofPattern_eq_ok {pos : Position} {ty patternTy : Ty} {pattern : Pattern}
    {name : String} (h : ofPattern pos ty pattern state = .ok (name, patternTy) final) :
    state.names.next ≤ final.names.next ∧
    (name ∈ pattern.names ∨ ∃ number < final.names.next, name = FreshNames.name number) ∧
    ∀ other ∈ pattern.names, other = name := by
  cases pattern with
  | name key =>
    cases h
    exact ⟨Nat.le_refl _, .inl (mem_singleton_self _), fun _ => mem_singleton.mp⟩
  | typed _ key =>
    cases h
    exact ⟨Nat.le_refl _, .inl (mem_singleton_self _), fun _ => mem_singleton.mp⟩
  | wildcard =>
    cases h
    exact ⟨Nat.le_succ _, .inr ⟨_, Nat.lt_succ_self _, rfl⟩,
      fun _ hnil => absurd hnil not_mem_nil⟩
  | tuple elems => cases h

/-- A binding around a body whose free names are, but for the bound one, free outside too. -/
private theorem flattens_bind {start middle later next : Nat} {init body : Term}
    {name : String} {ty bodyTy : Ty} {names outer : List String}
    {initFree initBound bodyFree bodyBound : List String} (hgrows : start ≤ middle)
    (hname : name ∈ names ∨ ∃ number < middle, name = FreshNames.name number)
    (houter : ∀ other ∈ bodyFree, other ≠ name → other ∈ outer)
    (hinit : Flattens middle initFree initBound [] init.mentions init.bound later)
    (hbody : Flattens later bodyFree bodyBound [] body.mentions body.bound next) :
    Flattens start (initFree ++ outer) (names ++ initBound ++ bodyBound) []
      (bind name ty init body bodyTy).mentions (bind name ty init body bodyTy).bound next := by
  have hlater := Nat.le_trans hinit.grows hbody.grows
  have hbinder : name ∈ names ++ bodyBound ∨ ∃ number < next, name = FreshNames.name number := by
    rcases hname with hn | ⟨number, hlt, hn⟩
    · exact .inl (mem_append_left _ hn)
    · exact .inr ⟨number, by omega, hn⟩
  have hcaptured := hbody.capture houter hbinder fun _ => mem_append_right _
  have hsub : ∀ other ∈ initBound ++ (names ++ bodyBound),
      other ∈ names ++ initBound ++ bodyBound := by grind
  have hboth := (hinit.followed hcaptured).weaken (fun _ hn => hn) hsub (Nat.le_refl _)
  refine ⟨Nat.le_trans hgrows hboth.grows, hboth.uses, fun other hother => ?_, hboth.inits⟩
  refine hboth.binders other ?_
  simp only [bound] at hother
  grind

/-- The A-normal form of an expression uses its free names, and binds what it binds. -/
def FlatNames (interface : Interface) (expr : Expr) : Prop :=
  ∀ {state final : FlatState} {term : Term}, ofExpr interface expr state = .ok term final →
    Flattens state.names.next expr.free expr.bound [] term.mentions term.bound final.names.next

private theorem ofExprs_flattens {exprs : List Expr} (h : ∀ expr ∈ exprs, FlatNames interface expr)
    {state final : FlatState} {terms : List Term}
    (hrun : ofExprs interface exprs state = .ok terms final) :
    Flattens state.names.next (Expr.freeAll exprs) (Expr.boundAll exprs) [] (mentionsAll terms)
      (boundAll terms) final.names.next := by
  induction exprs generalizing state terms with
  | nil =>
    cases hrun
    exact .refl _
  | cons expr rest ih =>
    obtain ⟨hexpr, hrest⟩ := forall_mem_cons.mp h
    obtain ⟨_, _, hterm, hrun⟩ := bind_eq_ok.mp hrun
    obtain ⟨_, _, hterms, hrun⟩ := bind_eq_ok.mp hrun
    cases hrun
    exact (hexpr hterm).followed (ih hrest hterms)

private theorem atoms_flattens {exprs : List Expr} (h : ∀ expr ∈ exprs, FlatNames interface expr)
    {state final : FlatState} {values : List Atom} {hoists : List Hoist}
    (hrun : atoms interface exprs state = .ok (values, hoists) final) :
    values.length = exprs.length ∧ Flattens state.names.next (Expr.freeAll exprs)
      (Expr.boundAll exprs) hoists (Atom.mentionsAll values) [] final.names.next := by
  induction exprs generalizing state values hoists with
  | nil =>
    cases hrun
    exact ⟨rfl, .refl _⟩
  | cons expr rest ih =>
    obtain ⟨hexpr, hrest⟩ := forall_mem_cons.mp h
    obtain ⟨_, _, hterm, hrun⟩ := bind_eq_ok.mp hrun
    obtain ⟨⟨_, _⟩, _, hatom, hrun⟩ := bind_eq_ok.mp hrun
    obtain ⟨⟨_, _⟩, _, hmore, hrun⟩ := bind_eq_ok.mp hrun
    cases hrun
    obtain ⟨hlength, hmore⟩ := ih hrest hmore
    exact ⟨congrArg (· + 1) hlength, ((hexpr hterm).hoist hatom).append hmore⟩

private theorem strict_names {expr : Expr} {parts : List Expr} {build : List Atom → Term}
    (h : expr.Strict parts build) :
    expr.free = Expr.freeAll parts ∧ expr.bound = Expr.boundAll parts ∧
      ∀ values : List Atom, values.length = parts.length →
        (build values).mentions = Atom.mentionsAll values ∧ (build values).bound = [] := by
  refine ⟨h.free_eq, h.bound_eq, fun values hlength => ?_⟩
  cases h with
  | field | ret =>
    obtain ⟨value, rfl⟩ := length_eq_one_iff.mp hlength
    exact ⟨(append_nil _).symm, rfl⟩
  | update note record fields =>
    match values with
    | value :: rest =>
      have hrest : ((fields.map Prod.fst).zip rest).map Prod.snd = rest := by
        refine map_snd_zip (Nat.le_of_eq ?_)
        simpa using hlength
      exact ⟨congrArg (value.mentions ++ Atom.mentionsAll ·) hrest, rfl⟩
  | _ => exact ⟨rfl, rfl⟩

private theorem flattens_strict {expr : Expr} {parts : List Expr} {build : List Atom → Term}
    (h : expr.Strict parts build) (hparts : ∀ part ∈ parts, FlatNames interface part) :
    FlatNames interface expr := by
  intro state final term hrun
  obtain ⟨hfree, hbound, hbuild⟩ := strict_names h
  rw [ofExpr_strict h] at hrun
  obtain ⟨⟨values, hoists⟩, _, hatoms, hrun⟩ := bind_eq_ok.mp hrun
  cases hrun
  obtain ⟨hlength, hflat⟩ := atoms_flattens hparts hatoms
  obtain ⟨hmentions, hbinders⟩ := hbuild values hlength
  rw [hfree, hbound]
  refine Flattens.wrap ?_
  rwa [hmentions, hbinders]

private theorem flattens_refTo (note : Note) (key : String) :
    FlatNames interface (.refTo note key) := by
  intro state final term h
  obtain ⟨_, _, hclass, h⟩ := bind_eq_ok.mp h
  cases classify_eq_ok hclass
  split at h
  · cases h
    exact .refl _
  · cases h

private theorem flattens_assign {value : Expr} (note : Note) (target : String)
    (hvalue : FlatNames interface value) :
    FlatNames interface (.assign note (.name target) value) := by
  intro state final term h
  obtain ⟨_, _, hclass, h⟩ := bind_eq_ok.mp h
  cases classify_eq_ok hclass
  split at h
  · split at h
    · obtain ⟨term, _, hterm, h⟩ := bind_eq_ok.mp h
      cases h
      exact (Flattens.single _ target).followed (hvalue hterm)
    · cases h
  · cases h

private theorem flattens_within {body : Expr} (hbody : FlatNames interface body) {name : String}
    {ty : Ty} {mutable : Bool} {state final : FlatState} {term : Term}
    (h : within name ty mutable (ofExpr interface body) state = .ok term final) :
    Flattens state.names.next body.free body.bound [] term.mentions term.bound
      final.names.next := by
  obtain ⟨_, _, hinner, hrun, hfinal⟩ := within_eq_ok h
  have hflat := hbody hrun
  rwa [hinner, ← hfinal] at hflat

private theorem flattens_count {first last step body : Expr} (note : Note) (index : String)
    (direction : Direction) (hfirst : FlatNames interface first) (hlast : FlatNames interface last)
    (hstep : FlatNames interface step) (hbody : FlatNames interface body) :
    FlatNames interface (.count note index first last step direction body) := by
  intro state final term h
  obtain ⟨_, _, hfirstTerm, h⟩ := bind_eq_ok.mp h
  obtain ⟨⟨_, _⟩, _, hfirstAtom, h⟩ := bind_eq_ok.mp h
  obtain ⟨_, _, hlastTerm, h⟩ := bind_eq_ok.mp h
  obtain ⟨⟨_, _⟩, _, hlastAtom, h⟩ := bind_eq_ok.mp h
  obtain ⟨_, _, hstepTerm, h⟩ := bind_eq_ok.mp h
  obtain ⟨⟨_, _⟩, _, hstepAtom, h⟩ := bind_eq_ok.mp h
  obtain ⟨_, _, hwithin, h⟩ := bind_eq_ok.mp h
  cases h
  have hindex : index ∈ index :: body.bound := mem_cons_self
  have hcaptured := (flattens_within hbody hwithin).capture
    (fun other hmem hne => mem_filter.mpr ⟨hmem, decide_eq_true hne⟩) (.inl hindex)
    (fun _ => mem_cons_of_mem index)
  exact (((((hfirst hfirstTerm).hoist hfirstAtom).append ((hlast hlastTerm).hoist hlastAtom)).append
    ((hstep hstepTerm).hoist hstepAtom)).followed hcaptured).wrap

private theorem flattens_cond {test onTrue onFalse : Expr} (note : Note)
    (htest : FlatNames interface test) (htrue : FlatNames interface onTrue)
    (hfalse : FlatNames interface onFalse) :
    FlatNames interface (.cond note test onTrue onFalse) := by
  intro state final term h
  obtain ⟨_, _, htestTerm, h⟩ := bind_eq_ok.mp h
  obtain ⟨⟨_, _⟩, _, hatom, h⟩ := bind_eq_ok.mp h
  obtain ⟨_, _, htrueTerm, h⟩ := bind_eq_ok.mp h
  obtain ⟨_, _, hfalseTerm, h⟩ := bind_eq_ok.mp h
  cases h
  exact ((((htest htestTerm).hoist hatom).followed (htrue htrueTerm)).followed
    (hfalse hfalseTerm)).wrap

private theorem flattens_let {init body : Expr} (note : Note) (pattern : Pattern)
    (hinit : FlatNames interface init) (hbody : FlatNames interface body) :
    FlatNames interface (.bind note pattern init body) := by
  intro state final term h
  obtain ⟨⟨name, _⟩, _, hpattern, h⟩ := bind_eq_ok.mp h
  obtain ⟨_, _, hinitTerm, h⟩ := bind_eq_ok.mp h
  obtain ⟨_, _, hwithin, h⟩ := bind_eq_ok.mp h
  cases h
  obtain ⟨hgrows, hname, hnames⟩ := ofPattern_eq_ok hpattern
  refine flattens_bind hgrows hname (fun other hmem hne => ?_) (hinit hinitTerm)
    (flattens_within hbody hwithin)
  exact mem_filter.mpr ⟨hmem, decide_eq_true fun hn => hne (hnames other hn)⟩

private theorem flattens_var {init body : Expr} (note : Note) (name : String)
    (hinit : FlatNames interface init) (hbody : FlatNames interface body) :
    FlatNames interface (.var note (.name name) init body) := by
  intro state final term h
  obtain ⟨_, _, hinitTerm, h⟩ := bind_eq_ok.mp h
  obtain ⟨_, _, hwithin, h⟩ := bind_eq_ok.mp h
  cases h
  exact flattens_bind (Nat.le_refl _) (.inl (mem_singleton_self name))
    (fun other hmem hne => mem_filter.mpr ⟨hmem, decide_eq_true hne⟩) (hinit hinitTerm)
    (flattens_within hbody hwithin)

theorem ofExpr_flattens (expr : Expr) : FlatNames interface expr := by
  induction expr using Expr.formInduction with
  | lit note value =>
    intro state final term h
    cases h
    exact .refl _
  | name note key =>
    intro state final term h
    obtain ⟨_, _, hclass, h⟩ := bind_eq_ok.mp h
    cases classify_eq_ok hclass
    cases h
    exact .single _ key
  | refTo note key => exact flattens_refTo note key
  | block note items ih =>
    intro state final term h
    obtain ⟨terms, _, hitems, h⟩ := bind_eq_ok.mp h
    cases h
    rw [mentions_ofItems, bound_ofItems]
    exact ofExprs_flattens ih hitems
  | assign note target value hvalue => exact flattens_assign note target hvalue
  | loop note kind test body htest hbody =>
    intro state final term h
    obtain ⟨_, _, htestTerm, h⟩ := bind_eq_ok.mp h
    obtain ⟨_, _, hbodyTerm, h⟩ := bind_eq_ok.mp h
    cases h
    exact (htest htestTerm).followed (hbody hbodyTerm)
  | count note index first last step direction body hfirst hlast hstep hbody =>
    exact flattens_count note index direction hfirst hlast hstep hbody
  | cond note test onTrue onFalse htest htrue hfalse => exact flattens_cond note htest htrue hfalse
  | bind note pattern init body hinit hbody => exact flattens_let note pattern hinit hbody
  | var note name init body hinit hbody => exact flattens_var note name hinit hbody
  | cast note ty inner hinner =>
    intro state final term h
    obtain ⟨_, _, hterm, h⟩ := bind_eq_ok.mp h
    cases h
    have hflat := hinner hterm
    exact hflat
  | strict expr parts build h hparts => exact flattens_strict h hparts
  | refused expr cause h =>
    intro state final term hrun
    rw [ofExpr_refused h] at hrun
    cases hrun

end Term

end IsaBackend
