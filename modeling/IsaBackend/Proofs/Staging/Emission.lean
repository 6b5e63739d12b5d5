import IsaBackend.Proofs.Code.Everywhere
import IsaBackend.Staging.Basic
import IsaBackend.Term.Basic
import Mathlib.Data.List.Forall2

/-!
# The instructions that staging emits

Staging emits few kinds of instructions, and each of them under a condition on the representations
that it joins. `Instr.Emitted` lists them. The list has two entries for what goes wrong: a
constructor that stands alone is applied to unit whatever it takes, and the mask of a narrowed field
can get lost on the way to a wider place.
-/

namespace IsaBackend

namespace Rep

theorem compatible_self (rep : Rep) : rep.compatible rep = true := by
  cases rep <;> simp [compatible]

theorem compatible_trans {source middle target : Rep} (h : source.compatible middle = true)
    (hnext : middle.compatible target = true) : source.compatible target = true := by
  unfold compatible at *
  split at h
  · simp only [Bool.and_eq_true, decide_eq_true_eq] at h
    obtain ⟨rfl, hle⟩ := h
    split at hnext
    · rename_i heq
      cases heq
      simp only [Bool.and_eq_true, decide_eq_true_eq] at hnext ⊢
      exact ⟨hnext.1, Nat.le_trans hle hnext.2⟩
    · rename_i hnot
      have heq := of_decide_eq_true hnext
      subst heq
      exact absurd rfl (hnot _ _ _ _ rfl)
  · have heq := of_decide_eq_true h
    subst heq
    exact hnext

/-- Only packed bit-vectors fit another representation than their own. -/
theorem eq_of_compatible {source target : Rep} (h : source.compatible target = true)
    (hpacked : ∀ width order, source ≠ .packedBits width order) : target = source := by
  unfold compatible at h
  split at h
  · exact absurd rfl (hpacked _ _)
  · exact (of_decide_eq_true h).symm

/-- A value can be moved from one representation to another, and has to be converted. -/
def Crosses (source target : Rep) : Prop :=
  ∃ bridge, source.bridge? target = some bridge ∧ bridge ≠ .identity

/-- A packed bit-vector that is to lose its bits above some width goes to a place that has room for
all of them. -/
def Unmasked (narrow : Nat) (order : Direction) (source target : Rep) : Prop :=
  ∃ width wide, source = .packedBits width order ∧ target = .packedBits wide order ∧
    narrow < width ∧ width ≤ wide

def IsParsed (rep : Rep) : Prop := rep = .bigInt ∨ ∃ order, rep = .wideBits order

theorem IsParsed.isStack {rep : Rep} (h : rep.IsParsed) : rep.isStack = false := by
  rcases h with rfl | ⟨order, rfl⟩ <;> rfl

theorem compatible_of_bridge {source target : Rep} (h : source.bridge? target = some .identity) :
    source.compatible target = true := by
  unfold bridge? at h
  split at h
  · assumption
  · unfold crossing? at h
    split at h <;> first | cases h | (split at h <;> cases h)

private theorem Crosses.to_packed {source : Rep} {narrow : Nat} {order : Direction}
    (h : source.Crosses (.packedBits narrow order)) :
    source = .wideBits order ∨ ∃ width, source = .packedBits width order ∧ narrow < width := by
  obtain ⟨bridge, hbridge, hne⟩ := h
  unfold bridge? at hbridge
  split at hbridge
  · cases hbridge
    exact absurd rfl hne
  · rename_i hcompatible
    cases source with
    | wideBits other =>
      simp only [crossing?] at hbridge
      split at hbridge
      · rename_i horder
        exact .inl (by rw [horder])
      · cases hbridge
    | packedBits width other =>
      simp only [crossing?] at hbridge
      split at hbridge
      · rename_i horder
        subst horder
        refine .inr ⟨width, rfl, ?_⟩
        simpa [compatible] using hcompatible
      · cases hbridge
    | _ => cases hbridge

private theorem crosses_packed {width narrow : Nat} (order : Direction) (h : narrow < width) :
    (packedBits width order).Crosses (.packedBits narrow order) :=
  ⟨.truncate, by simp [bridge?, compatible, crossing?, h], nofun⟩

/-- A crossing leads on to whatever its target fits, unless a mask gets lost. -/
theorem Crosses.widen {source middle target : Rep} (h : source.Crosses middle)
    (hnext : middle.compatible target = true) :
    source.Crosses target ∨ ∃ narrow order, middle = .packedBits narrow order ∧
      Unmasked narrow order source target := by
  cases middle with
  | packedBits narrow order =>
    cases target with
    | packedBits wide other =>
      simp only [compatible, Bool.and_eq_true, decide_eq_true_eq] at hnext
      obtain ⟨rfl, hle⟩ := hnext
      rcases h.to_packed with rfl | ⟨width, rfl, hlt⟩
      · exact .inl ⟨.demote, by simp [bridge?, compatible, crossing?], nofun⟩
      · rcases Nat.lt_or_ge wide width with hwide | hwide
        · exact .inl (crosses_packed order hwide)
        · exact .inr ⟨narrow, order, rfl, ⟨width, wide, rfl, rfl, hlt, hwide⟩⟩
    | _ => simp [compatible] at hnext
  | _ =>
    obtain rfl := eq_of_compatible hnext nofun
    exact .inl h

end Rep

/-- A place of a term that tells in a special way on its code. -/
inductive Site where
  /-- A field that is read at a type. -/
  | access (ty : Ty)
  /-- A constructor that stands alone, at a type. -/
  | ctor (name : String) (ty : Ty)

mutual

def Atom.sites : Atom → List Site
  | .lit _ _ => []
  | .name key .unionCtor ty => [.ctor key ty]
  | .name _ _ _ => []
  | .refTo _ _ => []
  | .tuple elems => Atom.sitesAll elems
  | .list elems _ => Atom.sitesAll elems
  | .vector elems _ => Atom.sitesAll elems
  | .inline _ _ => []

def Atom.sitesAll : List Atom → List Site
  | [] => []
  | atom :: rest => atom.sites ++ Atom.sitesAll rest

end

namespace Term

mutual

def sites : Term → List Site
  | .atom value => value.sites
  | .call _ args _ => Atom.sitesAll args
  | .cast inner _ => inner.sites
  | .assign _ _ value => value.sites
  | .bind _ _ init body _ => init.sites ++ body.sites
  | .block stmts last _ => sitesAll stmts ++ last.sites
  | .ret value _ => value.sites
  | .cond test onTrue onFalse _ => test.sites ++ onTrue.sites ++ onFalse.sites
  | .field record _ ty => .access ty :: record.sites
  | .update record fields _ => record.sites ++ Atom.sitesAll (fields.map Prod.snd)
  | .count _ first last step _ body => first.sites ++ last.sites ++ step.sites ++ body.sites
  | .loop _ test body => test.sites ++ body.sites

def sitesAll : List Term → List Site
  | [] => []
  | term :: rest => term.sites ++ sitesAll rest

end

mutual

/-- The applications of a term: the callees with their numbers of arguments. -/
def applications : Term → List (String × Nat)
  | .atom _ => []
  | .call callee args _ => [(callee, args.length)]
  | .cast inner _ => inner.applications
  | .assign _ _ value => value.applications
  | .bind _ _ init body _ => init.applications ++ body.applications
  | .block stmts last _ => applicationsAll stmts ++ last.applications
  | .ret _ _ => []
  | .cond _ onTrue onFalse _ => onTrue.applications ++ onFalse.applications
  | .field _ _ _ => []
  | .update _ _ _ => []
  | .count _ _ _ _ _ body => body.applications
  | .loop _ test body => test.applications ++ body.applications

def applicationsAll : List Term → List (String × Nat)
  | [] => []
  | term :: rest => term.applications ++ applicationsAll rest

end

end Term

namespace Surroundings

/-- A callee is a constructor, or has a signature. -/
def Declares (around : Surroundings) (callee : String) : Prop :=
  (around.layouts.ctor? callee).isSome ∨ (around.interface.signature callee).isSome

/-- The representations of a callee's parameters and of its result, for a constructor or a callee
with a signature. -/
def callee? (around : Surroundings) (callee : String) : Option (List Rep × Rep) :=
  match around.layouts.ctor? callee with
  | some (union, payload) => some ([payload], union)
  | none => do
    let signature ← around.interface.signature callee
    let params ← (Rep.ofTys around .generated signature.params).toOption
    let result ← (Rep.ofTy around .generated signature.result).toOption
    return (params, result)

end Surroundings

/-- A call of a declared callee has as many arguments as the callee has parameters, and they and the
result fit. -/
def Call.Suits (around : Surroundings) (call : Call) : Prop :=
  around.Declares call.callee → ∃ params result,
    around.callee? call.callee = some (params, result) ∧
    List.Forall₂ (fun arg param => arg.rep.compatible param = true) call.args params ∧
    result.compatible call.dest.rep = true

/-- A constructor that stands alone is applied to unit, for a local of the representation of its
type. -/
structure Call.Alone (around : Surroundings) (sites : List Site) (call : Call) : Prop where
  args : call.args = [.unit]
  site : ∃ ty rep name, .ctor call.callee ty ∈ sites ∧ Rep.ofTy around .generated ty = .ok rep ∧
    call.dest = .name name rep

/-- A conversion that drops the bits of a field above the type of the access gets lost. -/
def Site.Unmasks (around : Surroundings) (sites : List Site) (source target : Rep) : Prop :=
  ∃ ty narrow order, .access ty ∈ sites ∧
    Rep.ofTy around .generated ty = .ok (.packedBits narrow order) ∧
    Rep.Unmasked narrow order source target

namespace Instr

/-- What an instruction of staged code can be. -/
inductive Emitted (around : Surroundings) (sites : List Site) : Instr → Prop
  | decl {rep : Rep} {name : String} (h : rep.isStack = true) : Emitted around sites (.decl rep name)
  | alloc {rep : Rep} {name : String} (h : rep.isStack = false) :
    Emitted around sites (.alloc rep name)
  | parse {rep : Rep} {name text : String} (h : rep.IsParsed) :
    Emitted around sites (.init rep name (.inline (.text text) .string))
  | promote {rep : Rep} {name : String} {value : Operand}
    (h : value.rep.bridge? rep = some .promote) : Emitted around sites (.init rep name value)
  | release {rep : Rep} {name : String} (h : rep.isStack = false) :
    Emitted around sites (.release rep name)
  | assign {dest : Place} {value : Operand} (hdest : dest.rep.isStack = true)
    (h : value.rep.compatible dest.rep = true) : Emitted around sites (.assign dest value)
  | copy {dest : Place} {value : Operand} (hdest : dest.rep.isStack = false)
    (h : value.rep.compatible dest.rep = true) : Emitted around sites (.copy dest value)
  | convert {dest : Place} {value : Operand} (h : value.rep.Crosses dest.rep) :
    Emitted around sites (.convert dest value)
  | unmasked {dest : Place} {value : Operand} (h : Site.Unmasks around sites value.rep dest.rep) :
    Emitted around sites (.convert dest value)
  | call {dest : Place} {callee : String} {args : List Operand}
    (h : Call.Suits around ⟨dest, callee, args⟩) : Emitted around sites (.call dest callee args)
  | alone {dest : Place} {callee : String} {args : List Operand}
    (h : Call.Alone around sites ⟨dest, callee, args⟩) :
    Emitted around sites (.call dest callee args)
  | branch {test : Operand} {onTrue onFalse : List Instr} {rep : Rep} :
    Emitted around sites (.branch test onTrue onFalse rep)
  | loop {body : List Instr} : Emitted around sites (.loop body)
  | ret {value : Operand} : Emitted around sites (.ret value)
  | comment {text : String} : Emitted around sites (.comment text)
  | leave : Emitted around sites .leave

/-- Everything in a piece of code, at any nesting, is what staging emits. -/
def EmittedAll (around : Surroundings) (sites : List Site) (code : List Instr) : Prop :=
  EverywhereAll (Emitted around sites) code

/-- Each of some applications is a call of the code that suits its callee. -/
def Makes (around : Surroundings) (applications : List (String × Nat)) (code : List Instr) : Prop :=
  ∀ application ∈ applications, ∃ call ∈ callsAll code,
    call.callee = application.1 ∧ call.args.length = application.2 ∧ call.Suits around

variable {around : Surroundings} {sites : List Site}

@[simp] theorem emittedAll_append {code more : List Instr} :
    EmittedAll around sites (code ++ more) ↔
      EmittedAll around sites code ∧ EmittedAll around sites more :=
  everywhereAll_append code more

theorem emitted_store {dest : Place} {value : Operand}
    (h : value.rep.compatible dest.rep = true) :
    (store dest value).Everywhere (Emitted around sites) := by
  unfold store
  split
  · rename_i hstack
    exact Emitted.assign hstack h
  · rename_i hheap
    exact Emitted.copy (Bool.not_eq_true _ ▸ hheap) h

theorem emitted_transfer {dest : Place} {value : Operand} {context : String} {instr : Instr}
    (h : transfer dest value context = .ok instr) :
    instr.Everywhere (Emitted around sites) := by
  unfold transfer at h
  split at h
  · rename_i hidentity
    cases h
    exact emitted_store (Rep.compatible_of_bridge hidentity)
  · rename_i bridge hne hbridge
    cases h
    exact Emitted.convert ⟨bridge, hbridge, fun heq => hne heq⟩
  · cases h

theorem Makes.mono {applications : List (String × Nat)} {code more : List Instr}
    (h : Makes around applications code) (hsub : callsAll code ⊆ callsAll more) :
    Makes around applications more := by
  intro application hmem
  obtain ⟨call, hcall, hsuits⟩ := h application hmem
  exact ⟨call, hsub hcall, hsuits⟩

theorem makes_append {applications more : List (String × Nat)} {code : List Instr} :
    Makes around (applications ++ more) code ↔
      Makes around applications code ∧ Makes around more code :=
  List.forall_mem_append

theorem makes_nil (code : List Instr) : Makes around [] code :=
  fun _ h => absurd h List.not_mem_nil

end Instr

end IsaBackend
