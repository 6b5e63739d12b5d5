import IsaBackend.Proofs.Meaning.Functions

/-!
# Accumulator programs

A small language whose programs nest bindings, branches, early returns and record updates over
unbounded integers. Every program compiles, and the compiled code returns what a direct evaluation
gives.
-/

namespace IsaBackend

/-- Programs over an integer and a record with an integer total. -/
inductive AccProgram where
  /-- The integer parameter. -/
  | param
  /-- The total of the record. -/
  | total
  /-- The innermost bound value, or the integer parameter outside any binding. -/
  | var
  | num (value : Int64)
  | add (left right : AccProgram)
  | bind (init body : AccProgram)
  /-- A branch on whether the integer parameter is less than a number. -/
  | ifLess (limit : Int64) (onTrue onFalse : AccProgram)
  /-- Return early if the integer parameter is less than a number. -/
  | returnIfLess (limit : Int64) (result otherwise : AccProgram)
  /-- The total of the record with another total in its place. -/
  | update (value : AccProgram)

namespace AccProgram

/-- Direct evaluation. An early return is an error. -/
def eval (param total : Int) : Option Int → AccProgram → Except Int Int
  | _, .param => .ok param
  | _, .total => .ok total
  | bound, .var => .ok (bound.getD param)
  | _, .num value => .ok value.toInt
  | bound, .add left right => do
    let first ← left.eval param total bound
    let second ← right.eval param total bound
    return first + second
  | bound, .bind init body => do
    let value ← init.eval param total bound
    body.eval param total (some value)
  | bound, .ifLess limit onTrue onFalse =>
    if param < limit.toInt then onTrue.eval param total bound
    else onFalse.eval param total bound
  | bound, .returnIfLess limit result otherwise =>
    if param < limit.toInt then do throw (← result.eval param total bound)
    else otherwise.eval param total bound
  | bound, .update value => value.eval param total bound

def recordTy : Ty := .named "acc"

def number (value : Int64) : Expr :=
  .lit { ty := .atom (.const value.toInt) } (.num value.toInt)

def less (limit : Int64) : Expr :=
  .call { ty := .bool } "lt_int" [.name { ty := .int } "x", number limit]

def totalOf (record : Expr) : Expr := .field { ty := .int } record "total"

/-- The source of a program, inside a binding or outside any. -/
def expr : Bool → AccProgram → Expr
  | _, .param => .name { ty := .int } "x"
  | _, .total => totalOf (.name { ty := recordTy } "r")
  | true, .var => .name { ty := .int } "v"
  | false, .var => .name { ty := .int } "x"
  | _, .num value => number value
  | bound, .add left right => .call { ty := .int } "add_int" [left.expr bound, right.expr bound]
  | bound, .bind init body =>
    let inner := body.expr true
    .bind { ty := inner.ty } (.name "v") (.cast { ty := .int } .int (init.expr bound)) inner
  | bound, .ifLess limit onTrue onFalse =>
    .cond { ty := .int } (less limit) (onTrue.expr bound) (onFalse.expr bound)
  | bound, .returnIfLess limit result otherwise =>
    .cond { ty := .int } (less limit) (.ret { ty := .int } (result.expr bound))
      (otherwise.expr bound)
  | bound, .update value =>
    totalOf (.update { ty := recordTy } (.name { ty := recordTy } "r")
      [("total", value.expr bound)])

def function (program : AccProgram) : Function where
  name := "run"
  params := ["x", "r"]
  body := program.expr false

def definitions (program : AccProgram) : List Definition :=
  [.struct "acc" [("total", .int), ("count", .range (.const 0) (.const 100))],
    .function program.function]

def declarations : Declarations :=
  ((({} : Declarations).addFunction "add_int" [.int, .int] .int).addFunction "lt_int"
    [.int, .int] .bool).addFunction "run" [.int, recordTy] .int

def layout : Rep := .struct "acc" [("total", .bigInt), ("count", .machInt)]

def surroundings : Surroundings where
  layouts := ({} : Layouts).addStruct "acc" [("total", .bigInt), ("count", .machInt)]
  interface := declarations.interface

end AccProgram

/-- Callees that add and compare integers. -/
structure Callees.Arithmetic (callees : Callees) : Prop where
  add : ∀ left right store,
    callees "add_int" [.int left, .int right] store = .ok (.int (left + right)) store
  less : ∀ left right store,
    callees "lt_int" [.int left, .int right] store = .ok (.bool (left < right)) store

namespace Rep

private theorem exists_of_conform_bigInt {value result : Value}
    (h : bigInt.conform value = .ok result) : ∃ number, result = .int number := by
  cases value with
  | int number =>
    cases h
    exact ⟨number, rfl⟩
  | _ => cases h

private theorem exists_of_conform_machInt {value result : Value}
    (h : machInt.conform value = .ok result) :
    ∃ number, fitsWord number = true ∧ result = .int number := by
  cases value with
  | int number =>
    simp only [conform] at h
    split at h
    · rename_i hfits
      cases h
      exact ⟨number, hfits, rfl⟩
    · cases h
  | _ => cases h

end Rep

namespace Value

def toInt : Value → Int
  | .int value => value
  | _ => 0

private theorem eq_int_of_conform {value : Value} (h : Rep.bigInt.conform value = .ok value) :
    value = .int value.toInt := by
  obtain ⟨number, rfl⟩ := Rep.exists_of_conform_bigInt h
  rfl

def total (value : Value) : Int := ((value.field? "total").getD .unit).toInt

end Value

namespace AccProgram

/-- The record has a total and a count. -/
theorem exists_of_conform_layout {value record : Value} (h : layout.conform value = .ok record) :
    ∃ total count, fitsWord count = true ∧
      record = .record [("total", .int total), ("count", .int count)] := by
  cases value with
  | record fields =>
    simp only [layout, Rep.conform] at h
    obtain ⟨entries, hentries, h⟩ := except_bind_eq_ok.mp h
    simp only [Rep.conformFields] at hentries
    obtain ⟨total, htotal, hentries⟩ := except_bind_eq_ok.mp hentries
    obtain ⟨rest, hrest, hentries⟩ := except_bind_eq_ok.mp hentries
    obtain ⟨count, hcount, hrest⟩ := except_bind_eq_ok.mp hrest
    obtain ⟨totalNumber, rfl⟩ := Rep.exists_of_conform_bigInt htotal
    obtain ⟨countNumber, hfits, rfl⟩ := Rep.exists_of_conform_machInt hcount
    cases hrest
    cases hentries
    cases h
    exact ⟨totalNumber, countNumber, hfits, rfl⟩
  | _ => cases h

/-- An outcome as a value. -/
def outcome : Except Int Int → Except Value Value
  | .ok value => .ok (.int value)
  | .error value => .error (.int value)

def boundValue (bound : Bool) (values : Valuation) : Option Int :=
  if bound then some (values "v").toInt else none

/-- What a program means for the values of the names in scope. -/
def meaning (bound : Bool) (program : AccProgram) (values : Valuation) : Except Value Value :=
  outcome (program.eval (values "x").toInt (values "r").total (boundValue bound values))

def scope (bound : Bool) : LocalReps :=
  let params := LocalReps.ofParams [("x", .bigInt), ("r", layout)]
  if bound then params.set "v" .bigInt else params

/-- Numbers are machine integers, and so is a binding that ends in a number. -/
def rep : AccProgram → Rep
  | .num _ => .machInt
  | .bind _ body => body.rep
  | _ => .bigInt

private theorem rep_widens (program : AccProgram) : program.rep.Widens .bigInt := by
  induction program with
  | num value => exact .inr ⟨rfl, rfl⟩
  | bind init body _ ih => exact ih
  | _ => exact .inl rfl

private theorem fitsWord_toInt (value : Int64) : fitsWord value.toInt = true := by
  have hlow := value.le_toInt
  have hhigh := value.toInt_lt
  simp only [fitsWord, Bool.and_eq_true, decide_eq_true_eq]
  omega

private theorem fresh_ne (name : String) (h : '#' ∉ name.toList) (number : Nat) :
    FreshNames.name number ≠ name :=
  (FreshNames.ne_name_of_no_hash h number).symm

private theorem scope_unused (bound : Bool) : (scope bound).UnusedFrom 0 := by
  have hempty : LocalReps.UnusedFrom (fun _ => none) 0 := fun _ _ => rfl
  have hparams : (scope false).UnusedFrom 0 :=
    (hempty.set (fun number _ => fresh_ne "x" (by decide) number) .bigInt).set
      (fun number _ => fresh_ne "r" (by decide) number) layout
  cases bound with
  | false => exact hparams
  | true => exact hparams.set (fun number _ => fresh_ne "v" (by decide) number) .bigInt

private theorem scope_set (bound : Bool) : (scope bound).set "v" .bigInt = scope true := by
  cases bound with
  | false => rfl
  | true =>
    funext key
    simp only [scope, LocalReps.set, if_true]
    split <;> rfl

private theorem meaning_ignores (bound : Bool) (program : AccProgram) :
    IgnoresFrom 0 (program.meaning bound) := by
  intro number _ values value
  have hx : values.set (FreshNames.name number) value "x" = values "x" :=
    if_neg (FreshNames.ne_name_of_no_hash (by decide) number)
  have hr : values.set (FreshNames.name number) value "r" = values "r" :=
    if_neg (FreshNames.ne_name_of_no_hash (by decide) number)
  have hv : values.set (FreshNames.name number) value "v" = values "v" :=
    if_neg (FreshNames.ne_name_of_no_hash (by decide) number)
  simp only [meaning, boundValue, hx, hr, hv]

section Parts

variable {bound : Bool}

private theorem x_means : (Expr.name { ty := .int } "x").Means surroundings Callees.Arithmetic
    (scope bound) .bigInt fun values => .ok (values "x") := by
  refine .name ?_ rfl (fresh_ne "x" (by decide))
  cases bound <;> rfl

private theorem x_eq_int {values : Valuation} (h : values.Fits (scope bound)) :
    values "x" = .int (values "x").toInt := by
  refine Value.eq_int_of_conform (h "x" .bigInt ?_)
  cases bound <;> rfl

private theorem r_means : (Expr.name { ty := recordTy } "r").Means surroundings Callees.Arithmetic
    (scope bound) layout fun values => .ok (values "r") := by
  refine .name ?_ rfl (fresh_ne "r" (by decide))
  cases bound <;> rfl

private theorem number_means (value : Int64) : (number value).Means surroundings Callees.Arithmetic
    (scope bound) .machInt fun _ => .ok (.int value.toInt) := by
  refine .num (fitsWord_toInt value) ?_
  have hsize : surroundings.interface.size (.const value.toInt) = some value.toInt := rfl
  simp only [Rep.ofTy, Rep.ofBounds, hsize, fitsWord_toInt, Bool.and_true, if_true]

private def onInts (op : Int → Int → Value) : List Value → Value
  | [left, right] => op left.toInt right.toInt
  | _ => .unit

private theorem eq_ints_of_conformAll {args : List Value}
    (h : Rep.ConformAll [.bigInt, .bigInt] args) :
    ∃ left right, args = [.int left, .int right] := by
  match args, h with
  | [left, right], ⟨hleft, hright, _⟩ =>
    exact ⟨left.toInt, right.toInt, by
      rw [← Value.eq_int_of_conform hleft, ← Value.eq_int_of_conform hright]⟩

/-- A call of a function of two integers. -/
theorem call_means {callee : String} {ty : Ty} {rep leftRep rightRep : Rep}
    {op : Int → Int → Value} {left right : Expr} {first second : Valuation → Except Value Value}
    (hty : Rep.ofTy surroundings .generated ty = .ok rep) (hwidest : rep ≠ .machInt)
    (hfused : FusedPrimitive.ofName? callee = none)
    (hsignature : ∀ args state, Staging.signature surroundings callee args ty state =
      .ok ([.bigInt, .bigInt], rep) state)
    (hcallee : ∀ callees : Callees, callees.Arithmetic → ∀ left right store,
      callees callee [.int left, .int right] store = .ok (op left right) store)
    (hresult : ∀ left right, rep.conform (op left right) = .ok (op left right))
    (hleft : left.Means surroundings Callees.Arithmetic (scope bound) leftRep first)
    (hleftWide : leftRep.Widens .bigInt)
    (hright : right.Means surroundings Callees.Arithmetic (scope bound) rightRep second)
    (hrightWide : rightRep.Widens .bigInt) :
    (Expr.call { ty } callee [left, right]).Means surroundings Callees.Arithmetic (scope bound) rep
      fun values => first values >>= fun left => second values >>= fun right =>
        .ok (op left.toInt right.toInt) := by
  have hcalled : ∀ args, Rep.ConformAll [.bigInt, .bigInt] args → ∀ callees : Callees,
      callees.Arithmetic → ∀ store, callees callee args store = .ok (onInts op args) store := by
    intro args hargs callees hgood store
    obtain ⟨left, right, rfl⟩ := eq_ints_of_conformAll hargs
    exact hcallee callees hgood left right store
  have hconform : ∀ args, Rep.ConformAll [.bigInt, .bigInt] args →
      rep.conform (onInts op args) = .ok (onInts op args) := by
    intro args hargs
    obtain ⟨left, right, rfl⟩ := eq_ints_of_conformAll hargs
    exact hresult left right
  have hcall : (Expr.call { ty } callee [left, right]).Means surroundings Callees.Arithmetic
      (scope bound) rep _ :=
    .call (scope_unused bound) hty hwidest hfused hsignature
      (.cons hleft hleftWide (.cons hright hrightWide .nil)) hcalled hconform
  simpa only [bind_assoc, except_ok_bind, onInts] using hcall

private theorem less_means (limit : Int64) : (less limit).Means surroundings Callees.Arithmetic
    (scope bound) .bool fun values => .ok (.bool ((values "x").toInt < limit.toInt)) :=
  call_means rfl (by decide) rfl (fun _ _ => rfl) (fun _ h => h.less) (fun _ _ => rfl)
    x_means (.inl rfl) (number_means limit) (.inr ⟨rfl, rfl⟩)

private theorem totalOf_means {record : Expr} {whole : Valuation → Except Value Value}
    (h : record.Means surroundings Callees.Arithmetic (scope bound) layout whole) :
    (totalOf record).Means surroundings Callees.Arithmetic (scope bound) .bigInt fun values =>
      whole values >>= fun value => .ok (.int value.total) := by
  refine .field (scope_unused bound) rfl (by decide) h rfl fun value hvalue => ?_
  obtain ⟨total, count, _, rfl⟩ := exists_of_conform_layout hvalue
  exact ⟨rfl, rfl⟩

private theorem conform_record (total : Int) {count : Int} (h : fitsWord count = true) :
    layout.conform (.record [("total", .int total), ("count", .int count)]) =
      .ok (.record [("total", .int total), ("count", .int count)]) := by
  have htotal : List.lookup "total" [("total", Value.int total), ("count", .int count)] =
      some (.int total) := rfl
  have hcount : List.lookup "count" [("total", Value.int total), ("count", .int count)] =
      some (.int count) := rfl
  simp only [layout, Rep.conform, Rep.conformFields, htotal, hcount, Option.getD_some, h, if_true]
  rfl

private def withTotal (record value : Value) : Value :=
  (record.setField? "total" value).getD .unit

private theorem update_means {value : Expr} {valueRep : Rep} {part : Valuation → Except Value Value}
    (h : value.Means surroundings Callees.Arithmetic (scope bound) valueRep part)
    (hwide : valueRep.Widens .bigInt) :
    (Expr.update { ty := recordTy } (.name { ty := recordTy } "r") [("total", value)]).Means
      surroundings Callees.Arithmetic (scope bound) layout fun values => .ok (values "r") >>=
        fun whole => part values >>= fun part => .ok (withTotal whole part) := by
  refine .update (scope_unused bound) rfl (by decide) r_means h hwide rfl fun whole part hw hp => ?_
  obtain ⟨total, count, hcount, rfl⟩ := exists_of_conform_layout hw
  obtain ⟨number, rfl⟩ := Rep.exists_of_conform_bigInt hp
  exact ⟨rfl, conform_record number hcount⟩

end Parts

/-- The source of a program means what direct evaluation gives. -/
theorem expr_means (bound : Bool) (program : AccProgram) :
    (program.expr bound).Means surroundings Callees.Arithmetic (scope bound) program.rep
      (program.meaning bound) := by
  induction program generalizing bound with
  | param =>
    refine x_means.congr (meaning_ignores bound _) fun values hfits => ?_
    exact congrArg Except.ok (x_eq_int hfits).symm
  | total =>
    refine (totalOf_means r_means).congr (meaning_ignores bound _) fun values _ => ?_
    rfl
  | var =>
    cases bound with
    | false =>
      refine x_means.congr (meaning_ignores false _) fun values hfits => ?_
      exact congrArg Except.ok (x_eq_int hfits).symm
    | true =>
      refine (Expr.Means.name (rfl : scope true "v" = some .bigInt) rfl
        (fresh_ne "v" (by decide))).congr (meaning_ignores true _) fun values hfits => ?_
      exact congrArg Except.ok (Value.eq_int_of_conform (hfits "v" .bigInt rfl)).symm
  | num value => exact number_means value
  | add left right ihLeft ihRight =>
    have hsum : (Expr.call { ty := .int } "add_int" [left.expr bound, right.expr bound]).Means
        surroundings Callees.Arithmetic (scope bound) .bigInt _ :=
      call_means rfl (by decide) rfl (fun _ _ => rfl) (fun _ h => h.add) (fun _ _ => rfl)
        (ihLeft bound) left.rep_widens (ihRight bound) right.rep_widens
    refine hsum.congr (meaning_ignores bound _) fun values _ => ?_
    simp only [meaning, eval]
    cases left.eval (values "x").toInt (values "r").total (boundValue bound values) with
    | error value => rfl
    | ok value =>
      cases right.eval (values "x").toInt (values "r").total (boundValue bound values) with
      | error value => rfl
      | ok value => rfl
  | bind init body ihInit ihBody =>
    have hinit : (Expr.cast { ty := .int } .int (init.expr bound)).Means surroundings
        Callees.Arithmetic (scope bound) .bigInt _ :=
      (ihInit bound).cast init.rep_widens rfl
    have hbody := ihBody true
    rw [← scope_set bound] at hbody
    have hbind : ((init.bind body).expr bound).Means surroundings Callees.Arithmetic (scope bound)
        body.rep _ :=
      .bind (fresh_ne "v" (by decide)) hbody.ty hinit hbody
    refine hbind.congr (meaning_ignores bound _) fun values _ => ?_
    simp only [meaning, eval]
    cases init.eval (values "x").toInt (values "r").total (boundValue bound values) with
    | error value => rfl
    | ok value => rfl
  | ifLess limit onTrue onFalse ihTrue ihFalse =>
    refine (Expr.Means.cond (scope_unused bound) rfl (less_means limit) (ihTrue bound)
      onTrue.rep_widens (ihFalse bound) onFalse.rep_widens).congr (meaning_ignores bound _)
      fun values _ => ?_
    simp only [meaning, eval, except_ok_bind, Value.isTrue, decide_eq_true_eq]
    split <;> rfl
  | returnIfLess limit result otherwise ihResult ihOtherwise =>
    have hret : (Expr.ret { ty := .int } (result.expr bound)).Means surroundings
        Callees.Arithmetic (scope bound) .bigInt _ :=
      .ret (scope_unused bound) rfl (ihResult bound) result.rep_widens
    refine (Expr.Means.cond (scope_unused bound) rfl (less_means limit) hret (.inl rfl)
      (ihOtherwise bound) otherwise.rep_widens).congr (meaning_ignores bound _) fun values _ => ?_
    simp only [meaning, eval, except_ok_bind, Value.isTrue, decide_eq_true_eq]
    split
    · cases result.eval (values "x").toInt (values "r").total (boundValue bound values) with
      | error value => rfl
      | ok value => rfl
    · rfl
  | update value ih =>
    refine (totalOf_means (update_means (ih bound) value.rep_widens)).congr
      (meaning_ignores bound _) fun values hfits => ?_
    have hrecord : layout.conform (values "r") = .ok (values "r") := by
      refine hfits "r" layout ?_
      cases bound <;> rfl
    obtain ⟨total, count, _, hvalue⟩ := exists_of_conform_layout hrecord
    simp only [meaning, eval, except_ok_bind]
    rw [hvalue]
    cases value.eval (values "x").toInt _ (boundValue bound values) with
    | error value => rfl
    | ok value => rfl

private theorem mem_free_expr {bound : Bool} {program : AccProgram} {name : String}
    (h : name ∈ (program.expr bound).free) :
    name = "x" ∨ name = "r" ∨ bound = true ∧ name = "v" := by
  induction program generalizing bound with
  | param => exact .inl (List.mem_singleton.mp h)
  | total => exact .inr (.inl (List.mem_singleton.mp h))
  | var =>
    cases bound with
    | true => exact .inr (.inr ⟨rfl, List.mem_singleton.mp h⟩)
    | false => exact .inl (List.mem_singleton.mp h)
  | num value => cases h
  | add left right ihLeft ihRight =>
    simp only [expr, Expr.free, Expr.freeAll, List.append_nil, List.mem_append] at h
    rcases h with h | h
    · exact ihLeft h
    · exact ihRight h
  | bind init body ihInit ihBody =>
    simp only [expr, Expr.free, List.mem_append, List.mem_filter] at h
    rcases h with h | ⟨h, hname⟩
    · exact ihInit h
    · rcases ihBody h with hx | hr | ⟨_, rfl⟩
      · exact .inl hx
      · exact .inr (.inl hr)
      · simp [Pattern.names] at hname
  | ifLess limit onTrue onFalse ihTrue ihFalse =>
    simp only [expr, less, number, Expr.free, Expr.freeAll, List.append_nil, List.mem_append,
      List.mem_singleton] at h
    rcases h with (h | h) | h
    · exact .inl h
    · exact ihTrue h
    · exact ihFalse h
  | returnIfLess limit result otherwise ihResult ihOtherwise =>
    simp only [expr, less, number, Expr.free, Expr.freeAll, List.append_nil, List.mem_append,
      List.mem_singleton] at h
    rcases h with (h | h) | h
    · exact .inl h
    · exact ihResult h
    · exact ihOtherwise h
  | update value ih =>
    simp only [expr, totalOf, Expr.free, Expr.freeFields, List.append_nil, List.mem_append,
      List.mem_singleton] at h
    rcases h with h | h
    · exact .inr (.inl h)
    · exact ih h

private theorem eq_of_mem_bound_expr {bound : Bool} {program : AccProgram} {name : String}
    (h : name ∈ (program.expr bound).bound) : name = "v" := by
  induction program generalizing bound with
  | param => cases h
  | total => cases h
  | var =>
    cases bound with
    | true => cases h
    | false => cases h
  | num value => cases h
  | add left right ihLeft ihRight =>
    simp only [expr, Expr.bound, Expr.boundAll, List.append_nil, List.mem_append] at h
    rcases h with h | h
    · exact ihLeft h
    · exact ihRight h
  | bind init body ihInit ihBody =>
    simp only [expr, Expr.bound, Pattern.names, List.mem_append, List.mem_singleton] at h
    rcases h with (h | h) | h
    · exact h
    · exact ihInit h
    · exact ihBody h
  | ifLess limit onTrue onFalse ihTrue ihFalse =>
    simp only [expr, less, number, Expr.bound, Expr.boundAll, List.append_nil, List.nil_append,
      List.mem_append] at h
    rcases h with h | h
    · exact ihTrue h
    · exact ihFalse h
  | returnIfLess limit result otherwise ihResult ihOtherwise =>
    simp only [expr, less, number, Expr.bound, Expr.boundAll, List.append_nil, List.nil_append,
      List.mem_append] at h
    rcases h with h | h
    · exact ihResult h
    · exact ihOtherwise h
  | update value ih =>
    simp only [expr, totalOf, Expr.bound, Expr.boundFields, List.append_nil, List.nil_append] at h
    exact ih h

private theorem hygienic (program : AccProgram) : program.function.Hygienic := by
  have hfree : ∀ name ∈ program.function.body.free, name = "x" ∨ name = "r" := by
    intro name hname
    rcases mem_free_expr hname with hx | hr | ⟨hbound, _⟩
    · exact .inl hx
    · exact .inr hr
    · cases hbound
  refine ⟨fun name _ hglobal => ?_, fun name hname => ?_⟩
  · obtain ⟨hmem, hparam⟩ := List.mem_filter.mp hglobal
    rcases hfree name hmem with rfl | rfl
    · cases hparam
    · cases hparam
  · have hsource : name = "x" ∨ name = "r" ∨ name = "v" := by
      rcases List.mem_append.mp hname with hname | hname
      · rcases List.mem_append.mp hname with hname | hname
        · have hparams : name ∈ ["x", "r"] := hname
          simp only [List.mem_cons, List.not_mem_nil, or_false] at hparams
          rcases hparams with rfl | rfl
          · exact .inl rfl
          · exact .inr (.inl rfl)
        · exact .inr (.inr (eq_of_mem_bound_expr hname))
      · rcases hfree name hname with rfl | rfl
        · exact .inl rfl
        · exact .inr (.inl rfl)
    rcases hsource with rfl | rfl | rfl
    · decide
    · decide
    · decide

/-- A program compiles to a routine that computes what direct evaluation gives. -/
theorem function_compiles (program : AccProgram) (options : CompileOptions) (names : FreshNames) :
    Gives (program.function.compile options surroundings) names fun routine _ =>
      routine.name = "run" ∧ routine.params = [("x", .bigInt), ("r", layout)] ∧
        routine.Computes Callees.Arithmetic (program.meaning false) := by
  have hsignature : surroundings.interface.signature program.function.name =
      some ⟨[.int, recordTy], .int⟩ := rfl
  have hreturn : Routine.resultParam ∉ ["x", "r"] := by decide
  exact program.hygienic.compile_gives hsignature rfl rfl rfl hreturn (expr_means false program)
    program.rep_widens options names

private theorem compiled (program : AccProgram) : ∃ routine : Routine,
    Compilation.ofDefinitions {} declarations.interface program.definitions =
      ⟨⟨[.layout layout, .routine routine]⟩, []⟩ ∧
    routine.name = "run" ∧ routine.params = [("x", .bigInt), ("r", layout)] ∧
    routine.Computes Callees.Arithmetic (program.meaning false) ∧
    routine.Sound (·.isLifetime = false) (routine.discipline True) fun _ => False := by
  obtain ⟨routine, final, hcompile, hname, hparams, hcomputes⟩ :=
    program.function_compiles {} {}
  refine ⟨routine, ?_, hname, hparams, hcomputes, program.hygienic.compile_sound hcompile⟩
  have hstruct : (Definition.struct "acc"
      [("total", .int), ("count", .range (.const 0) (.const 100))]).compile {}
      declarations.interface {} = .ok (.layout layout) { layouts := surroundings.layouts } := rfl
  have hfunction : (Definition.function program.function).compile {} declarations.interface
      { layouts := surroundings.layouts } =
        .ok (.routine routine) { layouts := surroundings.layouts, names := final } := by
    have hcompiled : program.function.compile {} ⟨surroundings.layouts, declarations.interface⟩
        {} = .ok routine final := hcompile
    simp only [Definition.compile, hcompiled]
  simp only [Compilation.ofDefinitions, definitions, Compilation.compileFrom, hstruct, hfunction]

private theorem invoke_arithmetic {routine : Routine} (hname : routine.name = "run") (depth : Nat) :
    Callees.Arithmetic
      ((⟨[.layout layout, .routine routine]⟩ : Program).invoke (depth + 1)) where
  add := by
    intro left right store
    have hroutine : (⟨[.layout layout, .routine routine]⟩ : Program).routine? "add_int" = none := by
      simp [Program.routine?, Program.routines, hname]
    simp only [Program.invoke, hroutine]
    rfl
  less := by
    intro left right store
    have hroutine : (⟨[.layout layout, .routine routine]⟩ : Program).routine? "lt_int" = none := by
      simp [Program.routine?, Program.routines, hname]
    simp only [Program.invoke, hroutine]
    rfl

private theorem returned_outcome (result : Except Int Int) :
    returned (outcome result) = .int (returned result) := by
  cases result with
  | ok value => rfl
  | error value => rfl

private def entry (x : Int) (record : Value) : Frame :=
  ((∅ : Frame).bind "x" .bigInt (.int x) false).bind "r" layout record false

private theorem entry_fits (x total : Int) {count : Int} (hcount : fitsWord count = true) :
    (entry x (.record [("total", .int total), ("count", .int count)])).valuation.Fits
      (LocalReps.ofParams [("x", .bigInt), ("r", layout)]) := by
  intro name rep hrep
  rcases LocalReps.set_eq_some.mp hrep with ⟨rfl, rfl⟩ | ⟨_, hrep⟩
  · exact conform_record total hcount
  · rcases LocalReps.set_eq_some.mp hrep with ⟨rfl, rfl⟩ | ⟨_, hnone⟩
    · rfl
    · cases hnone

/-- Every program compiles, and a call of the compiled function with fuel enough returns what
direct evaluation gives, early or not. -/
theorem call_eq_eval (program : AccProgram) :
    (Compilation.ofDefinitions {} declarations.interface program.definitions).isSuccess ∧
    ∀ (x total count : Int) (r : Value),
      layout.conform r = .ok (.record [("total", .int total), ("count", .int count)]) →
      ∃ enough, ∀ fuel, enough ≤ fuel →
        ((Machine.ofProgram (Compilation.ofDefinitions {} declarations.interface
          program.definitions).program fuel).call "run" [.int x, r]).1 =
            .ok (.int (returned (program.eval x total none))) := by
  obtain ⟨routine, hcompiled, hname, hparams, hcomputes, hsound⟩ := program.compiled
  rw [hcompiled]
  refine ⟨rfl, fun x total count r hr => ?_⟩
  have hroutine : (⟨[.layout layout, .routine routine]⟩ : Program).routine? "run" =
      some routine := by
    simp [Program.routine?, Program.routines, hname]
  have hroutines : ∀ other ∈ (⟨[.layout layout, .routine routine]⟩ : Program).routines,
      ∃ disc post, other.Sound (·.isLifetime = false) disc post := by
    intro other hother
    cases List.mem_singleton.mp hother
    exact ⟨_, _, hsound⟩
  have hbind : Routine.bindParams ∅ routine.params [.int x, r] =
      .ok (entry x (.record [("total", .int total), ("count", .int count)])) := by
    rw [hparams]
    simp only [Routine.bindParams, hr]
    rfl
  obtain ⟨_, _, hcount, hrecord⟩ := exists_of_conform_layout hr
  cases hrecord
  obtain ⟨enough, hcall⟩ := Machine.call_eq_ok hroutine hroutines (invoke_arithmetic hname)
    hcomputes (hparams ▸ rfl) hbind (hparams ▸ entry_fits x total hcount)
  exact ⟨enough, fun fuel hfuel => (hcall fuel hfuel).trans (congrArg _ (returned_outcome _))⟩

/-- An early return from inside a binding, of the total of an updated record. -/
def returning : AccProgram :=
  .bind (.add .param (.num 1)) (.returnIfLess 0 (.update .var) (.add .var .total))

/-- The fields of the record may come in any order. -/
theorem call_returning :
    layout.conform (.record [("count", .int 3), ("total", .int 40)]) =
      .ok (.record [("total", .int 40), ("count", .int 3)]) ∧
    (Compilation.ofDefinitions {} declarations.interface returning.definitions).isSuccess ∧
    ∃ enough, ∀ fuel, enough ≤ fuel →
      ((Machine.ofProgram (Compilation.ofDefinitions {} declarations.interface
        returning.definitions).program fuel).call "run"
          [.int (-7), .record [("count", .int 3), ("total", .int 40)]]).1 = .ok (.int (-6)) :=
  ⟨rfl, (call_eq_eval returning).1, (call_eq_eval returning).2 (-7) 40 3 _ rfl⟩

end AccProgram

end IsaBackend
