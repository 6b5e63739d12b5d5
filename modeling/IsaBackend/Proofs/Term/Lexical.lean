import IsaBackend.Proofs.Renaming.Names
import IsaBackend.Proofs.Term.Forms
import IsaBackend.Proofs.Term.Scopes

/-!
# Flattening follows lexical scope

Every node of an expression stands in the scope of the binders around it. Flattening keeps the scope
in a table that it changes and restores; here the scope of a node is read off the expression. Names
get the class and assignments the type that they have there, and flattening fails exactly if some
node offends, with the error of the first one that does. A binding without a name takes a generated
one, so inside of it generated names are out of bounds for the source.
-/

namespace IsaBackend

/-- What names mean at a place of an expression. -/
structure Lexical where
  classify : String → Option (NameClass × Ty)
  /-- Whether a binding without a name is around. -/
  nameless : Bool := false

namespace Lexical

/-- Inside of a binder its name means the binder. -/
def bind (env : Lexical) (name : String) (ty : Ty) (mutable : Bool) : Lexical :=
  { env with classify := fun key =>
      if key = name then some (if mutable then .mutableLocal else .immutableLocal, ty)
      else env.classify key }

/-- The scope of what a pattern binds. A pattern for a tuple is refused. -/
def bindPattern (env : Lexical) (ty : Ty) : Pattern → Lexical
  | .name name => env.bind name ty false
  | .typed ty name => env.bind name ty false
  | .wildcard => { env with nameless := true }
  | .tuple _ => env

def bindTarget (env : Lexical) (ty : Ty) : Target Expr → Lexical
  | .name name => env.bind name ty true
  | _ => env

def classOf (env : Lexical) (name : String) : NameClass :=
  match env.classify name with
  | some (cls, _) => cls
  | none => .unresolved

/-- Whether a name can be used here: a generated one may mean a binding without a name. -/
def Allows (env : Lexical) (name : String) : Prop :=
  env.nameless = true → ¬FreshNames.IsGenerated name

end Lexical

structure Node where
  env : Lexical
  expr : Expr

namespace Expr

mutual

/-- The nodes of an expression, each before its parts and from left to right. A binder is in scope in
its body only. -/
def nodes (env : Lexical) : Expr → List Node
  | lit note value => [⟨env, lit note value⟩]
  | name note key => [⟨env, name note key⟩]
  | refTo note key => [⟨env, refTo note key⟩]
  | block note items => ⟨env, block note items⟩ :: nodesAll env items
  | cond note test onTrue onFalse =>
    ⟨env, cond note test onTrue onFalse⟩ ::
      (test.nodes env ++ (onTrue.nodes env ++ onFalse.nodes env))
  | loop note kind test body =>
    ⟨env, loop note kind test body⟩ :: (test.nodes env ++ body.nodes env)
  | count note index first last step direction body =>
    ⟨env, count note index first last step direction body⟩ :: (first.nodes env ++ (last.nodes env ++
      (step.nodes env ++ body.nodes (env.bind index first.ty false))))
  | call note callee args => ⟨env, call note callee args⟩ :: nodesAll env args
  | tuple note items => ⟨env, tuple note items⟩ :: nodesAll env items
  | list note items => ⟨env, list note items⟩ :: nodesAll env items
  | vector note items => ⟨env, vector note items⟩ :: nodesAll env items
  | field note record key => ⟨env, field note record key⟩ :: record.nodes env
  | update note record fields =>
    ⟨env, update note record fields⟩ :: (record.nodes env ++ nodesFields env fields)
  | assign note target value =>
    ⟨env, assign note target value⟩ :: (nodesParts env target ++ value.nodes env)
  | bind note pattern init body =>
    ⟨env, bind note pattern init body⟩ ::
      (init.nodes env ++ body.nodes (env.bindPattern init.ty pattern))
  | var note target init body =>
    ⟨env, var note target init body⟩ ::
      (nodesParts env target ++ (init.nodes env ++ body.nodes (env.bindTarget init.ty target)))
  | cast note ty inner => ⟨env, cast note ty inner⟩ :: inner.nodes env
  | throw note value => ⟨env, throw note value⟩ :: value.nodes env
  | exit note value => ⟨env, exit note value⟩ :: value.nodes env
  | ret note value => ⟨env, ret note value⟩ :: value.nodes env
  | assert note test text => ⟨env, assert note test text⟩ :: (test.nodes env ++ text.nodes env)
  | cons note head tail => ⟨env, cons note head tail⟩ :: (head.nodes env ++ tail.nodes env)
  | eliminated note form parts => ⟨env, eliminated note form parts⟩ :: nodesAll env parts

def nodesAll (env : Lexical) : List Expr → List Node
  | [] => []
  | expr :: rest => expr.nodes env ++ nodesAll env rest

def nodesFields (env : Lexical) : List (String × Expr) → List Node
  | [] => []
  | (_, expr) :: rest => expr.nodes env ++ nodesFields env rest

def nodesParts (env : Lexical) : Target Expr → List Node
  | .name _ => []
  | .element _ index => index.nodes env
  | .slice _ hi lo => hi.nodes env ++ lo.nodes env
  | .append _ tail => tail.nodes env

end

/-- The name that a node itself looks up. -/
def looksUp? : Expr → Option String
  | name _ key => some key
  | refTo _ key => some key
  | assign _ (.name target) _ => some target
  | _ => none

end Expr

namespace Node

/-- What is wrong with a node by itself, if anything is. -/
def offence (node : Node) : Option CompileError :=
  match node.expr with
  | .refTo note name =>
    match node.env.classify name with
    | some (.register, _) => none
    | _ => some (.invalidReference name note.pos)
  | .assign note (.name target) _ =>
    match node.env.classify target with
    | some (.mutableLocal, _) => none
    | some (.register, _) => none
    | _ => some (.invalidAssignment target note.pos)
  | .assign note target _ => some (.unsupported ("assignment to " ++ target.describe) note.pos)
  | .bind note (.tuple _) _ _ => some (.unsupported "tuple pattern" note.pos)
  | .var _ (.name _) _ _ => none
  | .var note target _ _ => some (.unsupported ("var binding of " ++ target.describe) note.pos)
  | .eliminated note form _ => some (.unsupported form.describe note.pos)
  | _ => none

/-- The node looks up no generated name inside of a binding without a name. -/
def Clear (node : Node) : Prop :=
  ∀ name ∈ node.expr.looksUp?, node.env.Allows name

end Node

/-! ## Forms in a scope -/

mutual

/-- A term is an A-normal form of an expression that stands in a scope. Every name of the expression is
in its place in the term, with the class from the scope of that place, and so is every assignment, with
the type of its target. -/
inductive Expr.ResolvedAs : Lexical → Expr → Term → Prop where
  | lit {env : Lexical} (note : Note) (value : Literal) :
    ResolvedAs env (.lit note value) (.atom (.lit value note.ty))
  | name {env : Lexical} (note : Note) (key : String) :
    ResolvedAs env (.name note key) (.atom (.name key (env.classOf key) note.ty))
  | refTo {env : Lexical} {key : String} {ty : Ty} (note : Note) :
    env.classify key = some (.register, ty) →
    ResolvedAs env (.refTo note key) (.atom (.refTo key (.ref ty)))
  | block {env : Lexical} {items : List Expr} {terms : List Term} (note : Note) :
    ResolvedAll env items terms → ResolvedAs env (.block note items) (Term.ofItems note.ty terms)
  | assign {env : Lexical} {target : String} {cls : NameClass} {ty : Ty} {value : Expr} {term : Term}
    (note : Note) : env.classify target = some (cls, ty) → ResolvedAs env value term →
    ResolvedAs env (.assign note (.name target) value) (.assign target ty term)
  | loop {env : Lexical} {test body : Expr} {testTerm bodyTerm : Term} (note : Note)
    (kind : LoopTest) : ResolvedAs env test testTerm → ResolvedAs env body bodyTerm →
    ResolvedAs env (.loop note kind test body) (.loop kind testTerm bodyTerm)
  | count {env : Lexical} {index : String} {first last step body : Expr}
    {firstAtom lastAtom stepAtom : Atom} {hoists : List Hoist} {term : Term} (note : Note)
    (direction : Direction) :
    SuppliedBy env [first, last, step] [firstAtom, lastAtom, stepAtom] hoists →
    ResolvedAs (env.bind index first.ty false) body term →
    ResolvedAs env (.count note index first last step direction body)
      (Term.wrap hoists (.count index firstAtom lastAtom stepAtom direction term))
  | cond {env : Lexical} {test onTrue onFalse : Expr} {value : Atom} {hoists : List Hoist}
    {trueTerm falseTerm : Term} (note : Note) : SuppliedBy env [test] [value] hoists →
    ResolvedAs env onTrue trueTerm → ResolvedAs env onFalse falseTerm →
    ResolvedAs env (.cond note test onTrue onFalse)
      (Term.wrap hoists (.cond value trueTerm falseTerm note.ty))
  | bind {env : Lexical} {init body : Expr} {initTerm bodyTerm : Term} (note : Note)
    (name : String) : ResolvedAs env init initTerm →
    ResolvedAs (env.bind name init.ty false) body bodyTerm →
    ResolvedAs env (.bind note (.name name) init body)
      (.bind name init.ty initTerm bodyTerm note.ty)
  | bindTyped {env : Lexical} {init body : Expr} {initTerm bodyTerm : Term} (note : Note) (ty : Ty)
    (name : String) : ResolvedAs env init initTerm →
    ResolvedAs (env.bind name ty false) body bodyTerm →
    ResolvedAs env (.bind note (.typed ty name) init body) (.bind name ty initTerm bodyTerm note.ty)
  | bindUnnamed {env : Lexical} {init body : Expr} {initTerm bodyTerm : Term} (note : Note)
    (number : Nat) : ResolvedAs env init initTerm →
    ResolvedAs { env with nameless := true } body bodyTerm →
    ResolvedAs env (.bind note .wildcard init body)
      (.bind (FreshNames.name number) init.ty initTerm bodyTerm note.ty)
  | var {env : Lexical} {init body : Expr} {initTerm bodyTerm : Term} (note : Note)
    (name : String) : ResolvedAs env init initTerm →
    ResolvedAs (env.bind name init.ty true) body bodyTerm →
    ResolvedAs env (.var note (.name name) init body)
      (.bind name init.ty initTerm bodyTerm note.ty)
  | cast {env : Lexical} {inner : Expr} {term : Term} (note : Note) (ty : Ty) :
    ResolvedAs env inner term → ResolvedAs env (.cast note ty inner) (.cast term ty)
  | strict {env : Lexical} {expr : Expr} {parts : List Expr} {build : List Atom → Term}
    {values : List Atom} {hoists : List Hoist} : expr.Strict parts build →
    SuppliedBy env parts values hoists → ResolvedAs env expr (Term.wrap hoists (build values))

inductive Expr.ResolvedAll : Lexical → List Expr → List Term → Prop where
  | nil {env : Lexical} : ResolvedAll env [] []
  | cons {env : Lexical} {expr : Expr} {term : Term} {exprs : List Expr} {terms : List Term} :
    ResolvedAs env expr term → ResolvedAll env exprs terms →
    ResolvedAll env (expr :: exprs) (term :: terms)

/-- Atoms for expressions, one after the other. What computes is bound to a generated name before, in
the order of the expressions. -/
inductive Expr.SuppliedBy : Lexical → List Expr → List Atom → List Hoist → Prop where
  | nil {env : Lexical} : SuppliedBy env [] [] []
  | atom {env : Lexical} {expr : Expr} {value : Atom} {exprs : List Expr} {values : List Atom}
    {hoists : List Hoist} : ResolvedAs env expr (.atom value) →
    SuppliedBy env exprs values hoists → SuppliedBy env (expr :: exprs) (value :: values) hoists
  | hoist {env : Lexical} {expr : Expr} {term : Term} {exprs : List Expr} {values : List Atom}
    {hoists : List Hoist} (number : Nat) : ResolvedAs env expr term →
    SuppliedBy env exprs values hoists →
    SuppliedBy env (expr :: exprs)
      (.name (FreshNames.name number) .immutableLocal term.ty :: values)
      (⟨FreshNames.name number, term.ty, term⟩ :: hoists)

end

namespace Expr

private theorem nodesFields_eq (env : Lexical) (fields : List (String × Expr)) :
    nodesFields env fields = nodesAll env (fields.map Prod.snd) := by
  induction fields with
  | nil => rfl
  | cons field rest ih => exact congrArg (field.2.nodes env ++ ·) ih

/-- A strict form offends by its parts only. -/
private theorem Strict.nodes_eq {expr : Expr} {parts : List Expr} {build : List Atom → Term}
    (h : expr.Strict parts build) (env : Lexical) :
    expr.nodes env = ⟨env, expr⟩ :: nodesAll env parts ∧ Node.offence ⟨env, expr⟩ = none := by
  cases h <;> simp [nodes, nodesAll, nodesFields_eq, Node.offence]

private theorem Refused.nodes_eq {expr : Expr} {cause : CompileError} (h : expr.Refused cause)
    (env : Lexical) :
    ∃ nodes, expr.nodes env = ⟨env, expr⟩ :: nodes ∧ Node.offence ⟨env, expr⟩ = some cause := by
  cases h with
  | @assign target _ _ hname | @var target _ _ _ hname =>
    refine ⟨_, rfl, ?_⟩
    cases target with
    | name key => exact absurd rfl (hname key)
    | _ => rfl
  | _ => exact ⟨_, rfl, rfl⟩

/-- An atom for one expression, with the bindings that it needs, in front of others. -/
def Supplies (env : Lexical) (expr : Expr) (value : Atom) (hoists : List Hoist) : Prop :=
  ∀ {exprs : List Expr} {values : List Atom} {more : List Hoist},
    SuppliedBy env exprs values more →
      SuppliedBy env (expr :: exprs) (value :: values) (hoists ++ more)

end Expr

/-! ## Scopes and tables -/

/-- A table answers as a scope does, for the names that can be used in it. -/
structure Lexical.Tracks (env : Lexical) (interface : Interface) (scope : Scope) : Prop where
  valid : scope.Valid
  agrees : ∀ name, env.Allows name → scope.classify interface name = env.classify name

namespace Lexical.Tracks

variable {env : Lexical} {interface : Interface} {scope other : Scope}

private theorem start (h : scope.Valid) : Lexical.Tracks
    ⟨scope.classify interface, false⟩ interface scope :=
  ⟨h, fun _ _ => rfl⟩

private theorem like (h : env.Tracks interface scope) (hlike : scope.Like other) :
    env.Tracks interface other := by
  refine ⟨hlike.valid, fun name hname => ?_⟩
  rw [← h.agrees name hname, Scope.classify, Scope.classify, hlike.get?]

private theorem bind (h : env.Tracks interface scope) (name : String) (ty : Ty) (mutable : Bool) :
    (env.bind name ty mutable).Tracks interface (scope.enter.declare name ty mutable) := by
  refine ⟨h.valid.enter.declare name ty mutable, fun key hkey => ?_⟩
  have hagrees := h.agrees key hkey
  simp only [Scope.classify, Scope.get?_declare, Scope.get?_enter, Lexical.bind] at hagrees ⊢
  by_cases hname : key = name
  · simp only [if_pos hname]
  · simp only [if_neg hname, hagrees]

/-- A generated name hides no name that can be used below it. -/
theorem skip (h : env.Tracks interface scope) (number : Nat) (ty : Ty) :
    Lexical.Tracks { env with nameless := true } interface
      (scope.enter.declare (FreshNames.name number) ty false) := by
  refine ⟨h.valid.enter.declare _ ty false, fun key hkey => ?_⟩
  have hne : key ≠ FreshNames.name number := fun heq => hkey rfl ⟨number, heq⟩
  rw [← h.agrees key fun _ => hkey rfl, Scope.classify, Scope.get?_declare, if_neg hne]
  rfl

end Lexical.Tracks

/-- Run over some nodes: the scope is there again at the end, and the outcome is a failure exactly
if a node offends, with the first offence. The names of the nodes have to be usable for that. -/
def Traverses {α : Type} (nodes : List Node) (act : Flattening α) (state : FlatState)
    (good : α → Prop) : Prop :=
  match act state with
  | .ok value final => state.scope.Like final.scope ∧
      ((∀ node ∈ nodes, node.Clear) → nodes.findSome? Node.offence = none ∧ good value)
  | .error cause final => state.scope.Like final.scope ∧
      ((∀ node ∈ nodes, node.Clear) → nodes.findSome? Node.offence = some cause)

namespace Traverses

variable {α β : Type} {nodes more : List Node} {node : Node} {act : Flattening α}
  {state : FlatState} {good : α → Prop}

private theorem of_ok {value : α} {final : FlatState} (hact : act state = .ok value final)
    (hlike : state.scope.Like final.scope)
    (h : (∀ node ∈ nodes, node.Clear) → nodes.findSome? Node.offence = none ∧ good value) :
    Traverses nodes act state good := by
  rw [Traverses, hact]
  exact ⟨hlike, h⟩

private theorem ok {value : α} {final : FlatState} (h : Traverses nodes act state good)
    (hact : act state = .ok value final) : state.scope.Like final.scope ∧
      ((∀ node ∈ nodes, node.Clear) → nodes.findSome? Node.offence = none ∧ good value) := by
  rw [Traverses, hact] at h
  exact h

private theorem error {cause : CompileError} {final : FlatState}
    (h : Traverses nodes act state good)
    (hact : act state = .error cause final) : state.scope.Like final.scope ∧
      ((∀ node ∈ nodes, node.Clear) → nodes.findSome? Node.offence = some cause) := by
  rw [Traverses, hact] at h
  exact h

private theorem of_run {other : Flattening α} {start : FlatState}
    (h : Traverses nodes other start good)
    (hrun : act state = other start) (hscope : state.scope = start.scope) :
    Traverses nodes act state good := by
  rw [Traverses, hrun, hscope]
  exact h

protected theorem pure {value : α} (hvalid : state.scope.Valid) (h : good value) :
    Traverses [] (pure value) state good :=
  of_ok rfl hvalid.like fun _ => ⟨rfl, h⟩

protected theorem throw {cause : CompileError} (hvalid : state.scope.Valid)
    (h : node.Clear → node.offence = some cause) :
    Traverses (node :: nodes) (throw cause : Flattening α) state good := by
  refine ⟨hvalid.like, fun hclear => ?_⟩
  rw [List.findSome?_cons, h (hclear node List.mem_cons_self)]

private theorem cons {better : α → Prop} (h : Traverses nodes act state good)
    (hnode : node.Clear → node.offence = none ∧ ∀ value, good value → better value) :
    Traverses (node :: nodes) act state better := by
  unfold Traverses at h ⊢
  cases hact : act state with
  | ok value final =>
    rw [hact] at h
    refine ⟨h.1, fun hclear => ?_⟩
    obtain ⟨hnone, hbetter⟩ := hnode (hclear node List.mem_cons_self)
    obtain ⟨hnodes, hgood⟩ := h.2 fun other ho => hclear other (List.mem_cons_of_mem _ ho)
    exact ⟨by rw [List.findSome?_cons, hnone]; exact hnodes, hbetter value hgood⟩
  | error cause final =>
    rw [hact] at h
    refine ⟨h.1, fun hclear => ?_⟩
    rw [List.findSome?_cons, (hnode (hclear node List.mem_cons_self)).1]
    exact h.2 fun other ho => hclear other (List.mem_cons_of_mem _ ho)

protected theorem bind {next : α → Flattening β} {better : β → Prop}
    (h : Traverses nodes act state good)
    (hnext : ∀ value middle, state.scope.Like middle.scope →
      Traverses more (next value) middle fun result => good value → better result) :
    Traverses (nodes ++ more) (act >>= next) state better := by
  have hleft : (∀ node ∈ nodes ++ more, node.Clear) → ∀ node ∈ nodes, node.Clear :=
    fun hclear node hn => hclear node (List.mem_append_left _ hn)
  have hright : (∀ node ∈ nodes ++ more, node.Clear) → ∀ node ∈ more, node.Clear :=
    fun hclear node hn => hclear node (List.mem_append_right _ hn)
  unfold Traverses at h ⊢
  cases hact : act state with
  | error cause final =>
    rw [hact] at h
    rw [bind_of_error hact]
    refine ⟨h.1, fun hclear => ?_⟩
    rw [List.findSome?_append, h.2 (hleft hclear), Option.some_or]
  | ok value middle =>
    rw [hact] at h
    have hrest := hnext value middle h.1
    unfold Traverses at hrest
    rw [bind_of_ok hact]
    cases hresult : next value middle with
    | ok result final =>
      rw [hresult] at hrest
      refine ⟨h.1.trans hrest.1, fun hclear => ?_⟩
      obtain ⟨hnone, hgood⟩ := h.2 (hleft hclear)
      obtain ⟨hnoneMore, hbetter⟩ := hrest.2 (hright hclear)
      exact ⟨by rw [List.findSome?_append, hnone, hnoneMore]; rfl, hbetter hgood⟩
    | error cause final =>
      rw [hresult] at hrest
      refine ⟨h.1.trans hrest.1, fun hclear => ?_⟩
      rw [List.findSome?_append, (h.2 (hleft hclear)).1, hrest.2 (hright hclear)]
      rfl

private theorem mono {better : α → Prop} (h : Traverses nodes act state good)
    (himp : ∀ value, good value → better value) : Traverses nodes act state better := by
  unfold Traverses at h ⊢
  split at h
  · exact ⟨h.1, fun hclear => ⟨(h.2 hclear).1, himp _ (h.2 hclear).2⟩⟩
  · exact h

private theorem map {give : α → β} {better : β → Prop} (h : Traverses nodes act state good)
    (hgive : ∀ value, good value → better (give value)) :
    Traverses nodes (act >>= fun value => pure (give value)) state better := by
  rw [← List.append_nil nodes]
  exact h.bind fun value middle hlike => .pure hlike.valid (hgive value)

protected theorem within {name : String} {ty : Ty} {mutable : Bool} (hvalid : state.scope.Valid)
    (h : Traverses nodes act
      { state with scope := state.scope.enter.declare name ty mutable } good) :
    Traverses nodes (Flattening.within name ty mutable act) state good := by
  unfold Traverses at h ⊢
  have hrun : Flattening.within name ty mutable act state =
      ensuring act (fun state => { state with scope := state.scope.leave })
        { state with scope := state.scope.enter.declare name ty mutable } := rfl
  rw [hrun, ensuring]
  cases hact : act { state with scope := state.scope.enter.declare name ty mutable } with
  | ok value final =>
    rw [hact] at h
    exact ⟨h.1.leave hvalid, h.2⟩
  | error cause final =>
    rw [hact] at h
    exact ⟨h.1.leave hvalid, h.2⟩

/-- A term is an atom, or it is bound to the next generated name. -/
private theorem hoist (term : Term) (hvalid : state.scope.Valid) (env : Lexical) (expr : Expr) :
    Traverses [] (Flattening.hoist term) state fun (value, hoists) =>
      expr.ResolvedAs env term → expr.Supplies env value hoists := by
  cases term with
  | atom value => exact of_ok rfl hvalid.like fun _ => ⟨rfl, fun hterm _ _ _ => .atom hterm⟩
  | _ => exact of_ok rfl hvalid.like fun _ => ⟨rfl, fun hterm _ _ _ => .hoist _ hterm⟩

private theorem operand {env : Lexical} {expr : Expr} {act : Flattening Term}
    {next : Atom × List Hoist → Flattening β} {better : β → Prop}
    (h : Traverses nodes act state (expr.ResolvedAs env))
    (hnext : ∀ value hoists middle, state.scope.Like middle.scope →
      Traverses more (next (value, hoists)) middle fun result =>
        expr.Supplies env value hoists → better result) :
    Traverses (nodes ++ more) (act >>= fun term => Flattening.hoist term >>= next) state better := by
  refine h.bind fun term middle hlike => ?_
  rw [← List.nil_append more]
  refine (hoist term hlike.valid env expr).bind fun (value, hoists) last hlast => ?_
  have hrest := hnext value hoists last (hlike.trans hlast)
  unfold Traverses at hrest ⊢
  split at hrest
  · exact ⟨hrest.1, fun hclear => ⟨(hrest.2 hclear).1, fun hatom hterm =>
      (hrest.2 hclear).2 (hatom hterm)⟩⟩
  · exact hrest

end Traverses

namespace Term

open Flattening

variable {interface : Interface}

def FlatIn (interface : Interface) (expr : Expr) : Prop :=
  ∀ {env : Lexical} {state : FlatState}, env.Tracks interface state.scope →
    Traverses (expr.nodes env) (ofExpr interface expr) state (expr.ResolvedAs env)

private theorem Traverses.plain {nodes : List Node} {node : Node} {act : Flattening Term}
    {state : FlatState} {good : Term → Prop} (h : Traverses nodes act state good)
    (hoffence : node.offence = none) : Traverses (node :: nodes) act state good :=
  Traverses.cons h fun _ => ⟨hoffence, fun _ hgood => hgood⟩

/-- The class that a name gets is the one it has in its scope. -/
private theorem traverses_name (note : Note) (key : String) :
    FlatIn interface (.name note key) := by
  intro env state h
  have hrun : ofExpr interface (.name note key) state = .ok (.atom (.name key
      (Lexical.classOf ⟨state.scope.classify interface, false⟩ key) note.ty)) state := rfl
  refine Traverses.of_ok hrun h.valid.like fun hclear => ⟨rfl, ?_⟩
  have hagrees := h.agrees key (hclear _ List.mem_cons_self key rfl)
  have hclass : Lexical.classOf ⟨state.scope.classify interface, false⟩ key = env.classOf key := by
    simp only [Lexical.classOf, hagrees]
  rw [hclass]
  exact .name note key

private theorem traverses_refTo (note : Note) (key : String) :
    FlatIn interface (.refTo note key) := by
  intro env state h
  have hagrees : Node.Clear ⟨env, .refTo note key⟩ →
      state.scope.classify interface key = env.classify key :=
    fun hclear => h.agrees key (hclear key rfl)
  change Traverses [⟨env, .refTo note key⟩] ((match state.scope.classify interface key with
    | some (.register, ty) => pure (.atom (.refTo key (.ref ty)))
    | _ => throw (.invalidReference key note.pos) : Flattening Term)) state _
  split
  next ty hfound =>
    refine Traverses.of_ok rfl h.valid.like fun hclear => ?_
    have hnode := hagrees (hclear _ List.mem_cons_self)
    have hnone : Node.offence ⟨env, .refTo note key⟩ = none := by
      simp only [Node.offence, ← hnode, hfound]
    exact ⟨by rw [List.findSome?_cons, hnone]; rfl, .refTo note (hnode.symm.trans hfound)⟩
  next hother =>
    refine Traverses.throw h.valid fun hclear => ?_
    rw [hagrees hclear] at hother
    simp only [Node.offence]

private theorem traverses_assign {value : Expr} (note : Note) (target : String)
    (hvalue : FlatIn interface value) : FlatIn interface (.assign note (.name target) value) := by
  intro env state h
  have hagrees : Node.Clear ⟨env, .assign note (.name target) value⟩ →
      state.scope.classify interface target = env.classify target :=
    fun hclear => h.agrees target (hclear target rfl)
  change Traverses (⟨env, .assign note (.name target) value⟩ :: value.nodes env)
    ((match state.scope.classify interface target with
      | some (cls, ty) =>
        if cls.isAssignable then (do return .assign target ty (← ofExpr interface value))
        else throw (.invalidAssignment target note.pos)
      | none => throw (.invalidAssignment target note.pos) : Flattening Term)) state _
  cases hfound : state.scope.classify interface target with
  | none =>
    refine Traverses.throw h.valid fun hclear => ?_
    simp only [Node.offence, ← hagrees hclear, hfound]
  | some found =>
    obtain ⟨cls, ty⟩ := found
    have hoffence : Node.Clear ⟨env, .assign note (.name target) value⟩ →
        Node.offence ⟨env, .assign note (.name target) value⟩ =
          if cls.isAssignable then none else some (.invalidAssignment target note.pos) := by
      intro hclear
      simp only [Node.offence, ← hagrees hclear, hfound]
      cases cls <;> rfl
    cases hcls : cls.isAssignable with
    | false =>
      simp only [hcls] at hoffence ⊢
      exact Traverses.throw h.valid hoffence
    | true =>
      simp only [hcls, if_true] at hoffence ⊢
      have hassign : Traverses (value.nodes env)
          (do return Term.assign target ty (← ofExpr interface value)) state fun term =>
            ∃ inner : Term, term = .assign target ty inner ∧ value.ResolvedAs env inner :=
        (hvalue h).map fun inner hinner => ⟨inner, rfl, hinner⟩
      refine hassign.cons fun hclear => ⟨hoffence hclear, ?_⟩
      rintro _ ⟨inner, rfl, hinner⟩
      exact .assign note ((hagrees hclear).symm.trans hfound) hinner

private theorem traverses_ofExprs {exprs : List Expr} (hexprs : ∀ expr ∈ exprs, FlatIn interface expr)
    {env : Lexical} {state : FlatState} (h : env.Tracks interface state.scope) :
    Traverses (Expr.nodesAll env exprs) (ofExprs interface exprs) state
      (Expr.ResolvedAll env exprs) := by
  induction exprs generalizing state with
  | nil => exact Traverses.pure h.valid .nil
  | cons expr rest ih =>
    obtain ⟨hexpr, hrest⟩ := List.forall_mem_cons.mp hexprs
    refine (hexpr h).bind fun _ _ hlike => ?_
    exact (ih hrest (h.like hlike)).map fun _ hterms hterm => .cons hterm hterms

private theorem traverses_atoms {exprs : List Expr} (hexprs : ∀ expr ∈ exprs, FlatIn interface expr)
    {env : Lexical} {state : FlatState} (h : env.Tracks interface state.scope) :
    Traverses (Expr.nodesAll env exprs) (atoms interface exprs) state fun (values, hoists) =>
      Expr.SuppliedBy env exprs values hoists := by
  induction exprs generalizing state with
  | nil => exact Traverses.pure h.valid .nil
  | cons expr rest ih =>
    obtain ⟨hexpr, hrest⟩ := List.forall_mem_cons.mp hexprs
    refine (hexpr h).operand fun _ _ _ hlike => ?_
    exact (ih hrest (h.like hlike)).map fun _ hvalues hvalue => hvalue hvalues

private theorem traverses_strict {expr : Expr} {parts : List Expr} {build : List Atom → Term}
    (hstrict : expr.Strict parts build) (hparts : ∀ part ∈ parts, FlatIn interface part) :
    FlatIn interface expr := by
  intro env state h
  obtain ⟨hnodes, hoffence⟩ := hstrict.nodes_eq env
  rw [hnodes, ofExpr_strict hstrict]
  refine Traverses.plain ?_ hoffence
  exact (traverses_atoms hparts h).map fun _ hvalues => .strict hstrict hvalues

private theorem traverses_count {first last step body : Expr} (note : Note) (index : String)
    (direction : Direction) (hfirst : FlatIn interface first) (hlast : FlatIn interface last)
    (hstep : FlatIn interface step) (hbody : FlatIn interface body) :
    FlatIn interface (.count note index first last step direction body) := by
  intro env state h
  refine Traverses.plain ?_ rfl
  refine (hfirst h).operand fun _ hoists _ hlike => ?_
  have h := h.like hlike
  refine (hlast h).operand fun _ moreHoists _ hlike => ?_
  have h := h.like hlike
  refine (hstep h).operand fun _ stillMore _ hlike => ?_
  have h := h.like hlike
  refine (Traverses.within h.valid (hbody (h.bind index first.ty false))).map ?_
  intro term hterm hsteps hlasts hfirsts
  have hsupplied := hfirsts (hlasts (hsteps .nil))
  rw [List.append_nil, ← List.append_assoc] at hsupplied
  exact .count note direction hsupplied hterm

private theorem traverses_cond {test onTrue onFalse : Expr} (note : Note)
    (htest : FlatIn interface test) (htrue : FlatIn interface onTrue)
    (hfalse : FlatIn interface onFalse) : FlatIn interface (.cond note test onTrue onFalse) := by
  intro env state h
  refine Traverses.plain ?_ rfl
  refine (htest h).operand fun _ hoists _ hlike => ?_
  have h := h.like hlike
  refine (htrue h).bind fun _ _ hlike => ?_
  refine (hfalse (h.like hlike)).map fun _ hno hyes hvalue => ?_
  have hsupplied := hvalue .nil
  rw [List.append_nil] at hsupplied
  exact .cond note hsupplied hyes hno

/-- The body of a binding runs with the name declared. The initializer does not see it. -/
private theorem traverses_binding {init body : Expr} (hinit : FlatIn interface init)
    (hbody : FlatIn interface body) {env inside : Lexical} {state : FlatState} {name : String}
    {ty bodyTy : Ty} {mutable : Bool} (h : env.Tracks interface state.scope)
    (hinside : ∀ scope : Scope, state.scope.Like scope →
      inside.Tracks interface (scope.enter.declare name ty mutable)) :
    Traverses (init.nodes env ++ body.nodes inside) (do
      let term ← ofExpr interface init
      let inner ← within name ty mutable (ofExpr interface body)
      return Term.bind name ty term inner bodyTy) state fun result =>
        ∃ term inner, result = Term.bind name ty term inner bodyTy ∧ init.ResolvedAs env term ∧
          body.ResolvedAs inside inner := by
  refine (hinit h).bind fun term middle hlike => ?_
  refine (Traverses.within hlike.valid (hbody (hinside _ hlike))).map fun inner hinner hterm => ?_
  exact ⟨term, inner, rfl, hterm, hinner⟩

private theorem traverses_let {init body : Expr} (note : Note) (pattern : Pattern)
    (hinit : FlatIn interface init) (hbody : FlatIn interface body) :
    FlatIn interface (.bind note pattern init body) := by
  intro env state h
  cases pattern with
  | name name =>
    refine Traverses.plain ?_ rfl
    refine ((traverses_binding hinit hbody h fun _ hlike =>
      (h.like hlike).bind name init.ty false).mono ?_).of_run rfl rfl
    rintro _ ⟨term, inner, rfl, hterm, hinner⟩
    exact .bind note name hterm hinner
  | typed ty name =>
    refine Traverses.plain ?_ rfl
    refine ((traverses_binding hinit hbody h fun _ hlike =>
      (h.like hlike).bind name ty false).mono ?_).of_run rfl rfl
    rintro _ ⟨term, inner, rfl, hterm, hinner⟩
    exact .bindTyped note ty name hterm hinner
  | wildcard =>
    refine Traverses.plain ?_ rfl
    -- the generated name is taken before the initializer is flattened
    have hstart : env.Tracks interface
        (FlatState.mk state.scope ⟨state.names.next + 1⟩).scope := h
    refine ((traverses_binding hinit hbody hstart fun _ hlike =>
      (h.like hlike).skip state.names.next init.ty).mono ?_).of_run rfl rfl
    rintro _ ⟨term, inner, rfl, hterm, hinner⟩
    exact .bindUnnamed note state.names.next hterm hinner
  | tuple elems => exact Traverses.throw h.valid fun _ => rfl

private theorem traverses_var {init body : Expr} (note : Note) (name : String)
    (hinit : FlatIn interface init) (hbody : FlatIn interface body) :
    FlatIn interface (.var note (.name name) init body) := by
  intro env state h
  refine Traverses.plain ?_ rfl
  refine ((traverses_binding hinit hbody h fun _ hlike =>
    (h.like hlike).bind name init.ty true).mono ?_).of_run rfl rfl
  rintro _ ⟨term, inner, rfl, hterm, hinner⟩
  exact .var note name hterm hinner

private theorem traverses_ofExpr (expr : Expr) : FlatIn interface expr := by
  induction expr using Expr.formInduction with
  | lit note value =>
    exact fun h => Traverses.plain (Traverses.pure h.valid (.lit note value)) rfl
  | name note key => exact traverses_name note key
  | refTo note key => exact traverses_refTo note key
  | block note items ih =>
    intro env state h
    refine Traverses.plain ?_ rfl
    exact (traverses_ofExprs ih h).map fun _ hterms => .block note hterms
  | assign note target value hvalue => exact traverses_assign note target hvalue
  | loop note kind test body htest hbody =>
    intro env state h
    refine Traverses.plain ?_ rfl
    refine (htest h).bind fun _ _ hlike => ?_
    exact (hbody (h.like hlike)).map fun _ hbodyTerm htestTerm => .loop note kind htestTerm hbodyTerm
  | count note index first last step direction body hfirst hlast hstep hbody =>
    exact traverses_count note index direction hfirst hlast hstep hbody
  | cond note test onTrue onFalse htest htrue hfalse => exact traverses_cond note htest htrue hfalse
  | bind note pattern init body hinit hbody => exact traverses_let note pattern hinit hbody
  | var note name init body hinit hbody => exact traverses_var note name hinit hbody
  | cast note ty inner hinner =>
    intro env state h
    refine Traverses.plain ?_ rfl
    exact (hinner h).map fun _ hterm => .cast note ty hterm
  | strict expr parts build hstrict hparts => exact traverses_strict hstrict hparts
  | refused expr cause hrefused =>
    intro env state h
    obtain ⟨nodes, hnodes, hoffence⟩ := hrefused.nodes_eq env
    rw [hnodes, ofExpr_refused hrefused]
    exact Traverses.throw h.valid fun _ => hoffence

end Term

/-! ## The outcome -/

/-- What names mean where flattening starts. -/
def Scope.lexical (scope : Scope) (interface : Interface) : Lexical :=
  ⟨scope.classify interface, false⟩

def Scope.AnswersLike (scope other : Scope) : Prop :=
  other.depth = scope.depth ∧ ∀ name, other.get? name = scope.get? name

private theorem Scope.Like.answersLike {scope other : Scope} (h : scope.Like other) :
    scope.AnswersLike other :=
  ⟨h.depth, h.get?⟩

/-- Source names have no `#` and can be used everywhere. -/
theorem Node.clear_of_no_hash {nodes : List Node}
    (h : ∀ name ∈ nodes.filterMap fun node => node.expr.looksUp?, '#' ∉ name.toList) :
    ∀ node ∈ nodes, node.Clear :=
  fun node hn name hname _ =>
    FreshNames.not_isGenerated (h name (List.mem_filterMap.mpr ⟨node, hn, hname⟩))

namespace Term

private theorem traverses_start (interface : Interface) (steps : List ScopeStep)
    (names : FreshNames)
    (expr : Expr) : Traverses (expr.nodes ((Scope.after steps).lexical interface))
      (ofExpr interface expr) ⟨Scope.after steps, names⟩
      (expr.ResolvedAs ((Scope.after steps).lexical interface)) :=
  traverses_ofExpr expr (.start (Scope.ordered_after steps).toValid)

/-- Success and failure leave the scope as it was. The A-normal form of an expression is that of the
scope at the start: each name in its place has the class, and each assignment the type, of the scope
that its node stands in. -/
theorem uses_follow_scope (interface : Interface) (steps : List ScopeStep) (names : FreshNames)
    (expr : Expr) :
    (∀ term final, ofExpr interface expr ⟨Scope.after steps, names⟩ = .ok term final →
      (Scope.after steps).AnswersLike final.scope ∧
      ((∀ node ∈ expr.nodes ((Scope.after steps).lexical interface), node.Clear) →
        expr.ResolvedAs ((Scope.after steps).lexical interface) term)) ∧
    ∀ cause final, ofExpr interface expr ⟨Scope.after steps, names⟩ = .error cause final →
      (Scope.after steps).AnswersLike final.scope := by
  have htraverses := traverses_start interface steps names expr
  constructor
  · intro term final hrun
    obtain ⟨hlike, hform⟩ := htraverses.ok hrun
    exact ⟨hlike.answersLike, fun hclear => (hform hclear).2⟩
  · intro cause final hrun
    exact (htraverses.error hrun).1.answersLike

/-- In `let _ = () in let x = r in { var x = g(x) in x := x; x }` the mutable `x` is in scope in its
body only. -/
theorem uses_follow_scope_shadowed :
    let int : Note := { ty := .int }
    let bool : Note := { ty := .bool }
    let unit : Note := { ty := .unit }
    let interface : Interface :=
      ⟨fun name => if name = "r" then some (.register, .int) else none, fun _ => none, fun _ => none⟩
    let expr : Expr := .bind int .wildcard (.lit unit .unit) (.bind int (.name "x") (.name int "r")
      (.block int [.var unit (.name "x") (.call bool "g" [.name int "x"])
        (.assign unit (.name "x") (.name bool "x")), .name int "x"]))
    let term : Term := .bind (FreshNames.name 0) .unit (.atom .unit)
      (.bind "x" .int (.atom (.name "r" .register .int))
        (.block [.bind "x" .bool (.call "g" [.name "x" .immutableLocal .int] .bool)
          (.assign "x" .bool (.atom (.name "x" .mutableLocal .bool))) .unit]
          (.atom (.name "x" .immutableLocal .int)) .int) .int) .int
    ∃ final, ofExpr interface expr {} = .ok term final ∧
      ({} : Scope).AnswersLike final.scope ∧
      expr.ResolvedAs (Scope.lexical {} interface) term := by
  intro int bool unit interface expr term
  have hform : ∃ final, ofExpr interface expr {} = .ok term final := ⟨_, rfl⟩
  obtain ⟨final, h⟩ := hform
  obtain ⟨hscope, hresolved⟩ := (uses_follow_scope interface [] {} expr).1 term final h
  exact ⟨final, h, hscope, hresolved (Node.clear_of_no_hash (by decide))⟩

private theorem resolved_name {env : Lexical} {note : Note} {key : String} {term : Term}
    (h : (Expr.name note key).ResolvedAs env term) :
    term = .atom (.name key (env.classOf key) note.ty) := by
  cases h with
  | name => rfl
  | strict hstrict _ => cases hstrict

private theorem resolved_unnamed {env : Lexical} {note : Note} {init body : Expr} {term : Term}
    (h : (Expr.bind note .wildcard init body).ResolvedAs env term) :
    ∃ name ty initTerm bodyTerm, term = .bind name ty initTerm bodyTerm note.ty ∧
      body.ResolvedAs { env with nameless := true } bodyTerm := by
  cases h with
  | bindUnnamed _ number _ hbody => exact ⟨_, _, _, _, rfl, hbody⟩
  | strict hstrict _ => cases hstrict

/-- In `let _ = () in gs#0` the name of a register takes the class of the binding without a name. -/
theorem nameless_binding_captures :
    let int : Note := { ty := .int }
    let unit : Note := { ty := .unit }
    let interface : Interface := ⟨fun name => if name = "gs#0" then some (.register, .int) else none,
      fun _ => none, fun _ => none⟩
    let expr : Expr := .bind int .wildcard (.lit unit .unit) (.name int "gs#0")
    ∃ term final, ofExpr interface expr {} = .ok term final ∧
      ¬expr.ResolvedAs (Scope.lexical {} interface) term := by
  intro int unit interface expr
  refine ⟨_, _, rfl, fun h => ?_⟩
  obtain ⟨name, ty, initTerm, bodyTerm, heq, hbody⟩ := resolved_unnamed h
  rw [resolved_name hbody] at heq
  cases heq

/-- Flattening succeeds exactly if no node of the expression offends in its scope, and fails with the
first offence. -/
theorem fails_with_first_offence (interface : Interface) (steps : List ScopeStep)
    (names : FreshNames) (expr : Expr)
    (hclear : ∀ node ∈ expr.nodes ((Scope.after steps).lexical interface), node.Clear) :
    ((∃ term final, ofExpr interface expr ⟨Scope.after steps, names⟩ = .ok term final) ↔
      ∀ node ∈ expr.nodes ((Scope.after steps).lexical interface), node.offence = none) ∧
    ∀ cause, (∃ final, ofExpr interface expr ⟨Scope.after steps, names⟩ = .error cause final) ↔
      (expr.nodes ((Scope.after steps).lexical interface)).findSome? Node.offence = some cause := by
  have htraverses := traverses_start interface steps names expr
  rw [← List.findSome?_eq_none_iff]
  cases hrun : ofExpr interface expr ⟨Scope.after steps, names⟩ with
  | ok term final =>
    have hnone := ((htraverses.ok hrun).2 hclear).1
    simp [hnone]
  | error cause final =>
    have hsome := (htraverses.error hrun).2 hclear
    simp [hsome]

/-- In `let x = () in { x := f(); let (a, b) = () in () }` the assignment comes first, and `x` cannot
be assigned to. -/
theorem fails_with_first_offence_assignment :
    let unit : Note := { ty := .unit }
    let interface : Interface := ⟨fun _ => none, fun _ => none, fun _ => none⟩
    let expr : Expr := .bind unit (.name "x") (.lit unit .unit) (.block unit
      [.assign unit (.name "x") (.call unit "f" []),
        .bind unit (.tuple [.name "a", .name "b"]) (.lit unit .unit) (.lit unit .unit)])
    ∃ final, ofExpr interface expr {} = .error (.invalidAssignment "x" .generated) final := by
  intro unit interface expr
  exact ((fails_with_first_offence interface [] {} expr (Node.clear_of_no_hash (by decide))).2 _).mpr
    rfl

/-- In `let _ = () in gs#0 := 1` no node offends if `gs#0` is a register, but the name means the
binding without a name. -/
theorem nameless_binding_refuses_assignment :
    let int : Note := { ty := .int }
    let unit : Note := { ty := .unit }
    let interface : Interface := ⟨fun name => if name = "gs#0" then some (.register, .int) else none,
      fun _ => none, fun _ => none⟩
    let expr : Expr :=
      .bind unit .wildcard (.lit unit .unit) (.assign unit (.name "gs#0") (.lit int (.num 1)))
    (∀ node ∈ expr.nodes (Scope.lexical {} interface), node.offence = none) ∧
      ∃ cause final, ofExpr interface expr {} = .error cause final := by
  intro int unit interface expr
  exact ⟨List.findSome?_eq_none_iff.mp rfl, _, _, rfl⟩

end Term

end IsaBackend
