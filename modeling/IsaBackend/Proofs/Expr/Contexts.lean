import IsaBackend.Proofs.Expr.Renaming

/-!
# Places in expressions

A context is an expression with a place for another one. Expressions that are alike at that place, in
the scope of whatever links the binders around it make, give expressions that are alike as a whole.
-/

namespace IsaBackend

namespace Expr

inductive Selector : (Expr → Target Expr) → Prop where
  | element (root : String) : Selector fun expr => .element root expr
  | sliceHigh (root : String) (lo : Expr) : Selector fun expr => .slice root expr lo
  | sliceLow (root : String) (hi : Expr) : Selector fun expr => .slice root hi expr
  | append (root : String) : Selector fun expr => .append root expr

/-- Expressions with a place for another one. -/
inductive Context : (Expr → Expr) → Prop where
  | hole : Context fun expr => expr
  | item {context : Expr → Expr} (note : Note) (before after : List Expr) : Context context →
    Context fun expr => .block note (before ++ context expr :: after)
  | test {context : Expr → Expr} (note : Note) (onTrue onFalse : Expr) : Context context →
    Context fun expr => .cond note (context expr) onTrue onFalse
  | onTrue {context : Expr → Expr} (note : Note) (test onFalse : Expr) : Context context →
    Context fun expr => .cond note test (context expr) onFalse
  | onFalse {context : Expr → Expr} (note : Note) (test onTrue : Expr) : Context context →
    Context fun expr => .cond note test onTrue (context expr)
  | loopTest {context : Expr → Expr} (note : Note) (kind : LoopTest) (body : Expr) :
    Context context → Context fun expr => .loop note kind (context expr) body
  | loopBody {context : Expr → Expr} (note : Note) (kind : LoopTest) (test : Expr) :
    Context context → Context fun expr => .loop note kind test (context expr)
  | first {context : Expr → Expr} (note : Note) (index : String) (last step : Expr)
    (direction : Direction) (body : Expr) : Context context →
    Context fun expr => .count note index (context expr) last step direction body
  | last {context : Expr → Expr} (note : Note) (index : String) (first step : Expr)
    (direction : Direction) (body : Expr) : Context context →
    Context fun expr => .count note index first (context expr) step direction body
  | step {context : Expr → Expr} (note : Note) (index : String) (first last : Expr)
    (direction : Direction) (body : Expr) : Context context →
    Context fun expr => .count note index first last (context expr) direction body
  | countBody {context : Expr → Expr} (note : Note) (index : String) (first last step : Expr)
    (direction : Direction) : Context context →
    Context fun expr => .count note index first last step direction (context expr)
  | arg {context : Expr → Expr} (note : Note) (callee : String) (before after : List Expr) :
    Context context → Context fun expr => .call note callee (before ++ context expr :: after)
  | tupleItem {context : Expr → Expr} (note : Note) (before after : List Expr) : Context context →
    Context fun expr => .tuple note (before ++ context expr :: after)
  | listItem {context : Expr → Expr} (note : Note) (before after : List Expr) : Context context →
    Context fun expr => .list note (before ++ context expr :: after)
  | vectorItem {context : Expr → Expr} (note : Note) (before after : List Expr) : Context context →
    Context fun expr => .vector note (before ++ context expr :: after)
  | record {context : Expr → Expr} (note : Note) (key : String) : Context context →
    Context fun expr => .field note (context expr) key
  | updated {context : Expr → Expr} (note : Note) (fields : List (String × Expr)) :
    Context context → Context fun expr => .update note (context expr) fields
  | newField {context : Expr → Expr} (note : Note) (record : Expr) (key : String)
    (before after : List (String × Expr)) : Context context →
    Context fun expr => .update note record (before ++ (key, context expr) :: after)
  | assigned {context : Expr → Expr} (note : Note) (target : Target Expr) : Context context →
    Context fun expr => .assign note target (context expr)
  | assignSelector {context : Expr → Expr} {select : Expr → Target Expr} (note : Note)
    (value : Expr) : Selector select → Context context →
    Context fun expr => .assign note (select (context expr)) value
  | bindInit {context : Expr → Expr} (note : Note) (pattern : Pattern) (body : Expr) :
    Context context → Context fun expr => .bind note pattern (context expr) body
  | bindBody {context : Expr → Expr} (note : Note) (pattern : Pattern) (init : Expr) :
    Context context → Context fun expr => .bind note pattern init (context expr)
  | varSelector {context : Expr → Expr} {select : Expr → Target Expr} (note : Note)
    (init body : Expr) : Selector select → Context context →
    Context fun expr => .var note (select (context expr)) init body
  | varInit {context : Expr → Expr} (note : Note) (target : Target Expr) (body : Expr) :
    Context context → Context fun expr => .var note target (context expr) body
  | varBody {context : Expr → Expr} (note : Note) (target : Target Expr) (init : Expr) :
    Context context → Context fun expr => .var note target init (context expr)
  | inner {context : Expr → Expr} (note : Note) (ty : Ty) : Context context →
    Context fun expr => .cast note ty (context expr)
  | thrown {context : Expr → Expr} (note : Note) : Context context →
    Context fun expr => .throw note (context expr)
  | exitValue {context : Expr → Expr} (note : Note) : Context context →
    Context fun expr => .exit note (context expr)
  | returned {context : Expr → Expr} (note : Note) : Context context →
    Context fun expr => .ret note (context expr)
  | asserted {context : Expr → Expr} (note : Note) (text : Expr) : Context context →
    Context fun expr => .assert note (context expr) text
  | assertText {context : Expr → Expr} (note : Note) (test : Expr) : Context context →
    Context fun expr => .assert note test (context expr)
  | head {context : Expr → Expr} (note : Note) (tail : Expr) : Context context →
    Context fun expr => .cons note (context expr) tail
  | tail {context : Expr → Expr} (note : Note) (head : Expr) : Context context →
    Context fun expr => .cons note head (context expr)
  | eliminatedPart {context : Expr → Expr} (note : Note) (form : EliminatedForm)
    (before after : List Expr) : Context context →
    Context fun expr => .eliminated note form (before ++ context expr :: after)

theorem freeAll_append (exprs more : List Expr) :
    freeAll (exprs ++ more) = freeAll exprs ++ freeAll more := by
  induction exprs with
  | nil => rfl
  | cons expr rest ih => simp only [List.cons_append, freeAll, ih, List.append_assoc]

theorem varsAll_append (exprs more : List Expr) :
    varsAll (exprs ++ more) = varsAll exprs ++ varsAll more := by
  induction exprs with
  | nil => rfl
  | cons expr rest ih => simp only [List.cons_append, varsAll, ih, List.append_assoc]

private theorem freeFields_append (fields more : List (String × Expr)) :
    freeFields (fields ++ more) = freeFields fields ++ freeFields more := by
  induction fields with
  | nil => rfl
  | cons field rest ih => simp only [List.cons_append, freeFields, ih, List.append_assoc]

private theorem varsFields_append (fields more : List (String × Expr)) :
    varsFields (fields ++ more) = varsFields fields ++ varsFields more := by
  induction fields with
  | nil => rfl
  | cons field rest ih => simp only [List.cons_append, varsFields, ih, List.append_assoc]

theorem boundAll_append (exprs more : List Expr) :
    boundAll (exprs ++ more) = boundAll exprs ++ boundAll more := by
  induction exprs with
  | nil => rfl
  | cons expr rest ih => simp only [List.cons_append, boundAll, ih, List.append_assoc]

private theorem boundFields_append (fields more : List (String × Expr)) :
    boundFields (fields ++ more) = boundFields fields ++ boundFields more := by
  induction fields with
  | nil => rfl
  | cons field rest ih => simp only [List.cons_append, boundFields, ih, List.append_assoc]

theorem Context.bound_mono {context : Expr → Expr} (h : Context context) {expr twin : Expr}
    {more : String → Prop} (hbound : ∀ name ∈ twin.bound, name ∈ expr.bound ∨ more name) :
    ∀ name ∈ (context twin).bound, name ∈ (context expr).bound ∨ more name := by
  induction h with
  | hole => exact hbound
  | assignSelector note value hselect _ ih | varSelector note init body hselect _ ih =>
    cases hselect <;> grind [bound, boundParts, Target.root]
  | _ => grind [bound, boundAll, boundFields, boundAll_append, boundFields_append]

theorem Context.free_mono {context : Expr → Expr} (h : Context context) {expr twin : Expr}
    {more : String → Prop} (hfree : ∀ name ∈ twin.free, name ∈ expr.free ∨ more name) :
    ∀ name ∈ (context twin).free, name ∈ (context expr).free ∨ more name := by
  induction h with
  | hole => exact hfree
  | assignSelector note value hselect _ ih | varSelector note init body hselect _ ih =>
    cases hselect <;> grind [free, freeParts, Target.root]
  | _ => grind [free, freeAll, freeFields, freeAll_append, freeFields_append]

theorem Context.vars_mono {context : Expr → Expr} (h : Context context) {expr twin : Expr}
    {more : String → Prop} (hvars : ∀ name ∈ twin.vars, name ∈ expr.vars ∨ more name) :
    ∀ name ∈ (context twin).vars, name ∈ (context expr).vars ∨ more name := by
  induction h with
  | hole => exact hvars
  | assignSelector note value hselect _ ih | varSelector note init body hselect _ ih =>
    cases hselect <;> grind [vars, targetName, Target.root]
  | _ => grind [vars, varsAll, varsFields, varsAll_append, varsFields_append]

theorem Context.comp {context inside : Expr → Expr} (h : Context context) (hinside : Context inside) :
    Context fun expr => context (inside expr) := by
  induction h with
  | hole => exact hinside
  | assignSelector note value hselect _ ih => exact .assignSelector note value hselect ih
  | varSelector note init body hselect _ ih => exact .varSelector note init body hselect ih
  | _ => constructor; assumption

private theorem Selector.ne_name {select : Expr → Target Expr} (h : Selector select) (expr : Expr)
    (key : String) : select expr ≠ .name key := by
  cases h <;> exact nofun

private theorem strict_newField (note : Note) (record : Expr) (key : String)
    (before after : List (String × Expr)) (expr : Expr) :
    Strict (.update note record (before ++ (key, expr) :: after))
      (record :: before.map Prod.snd ++ expr :: after.map Prod.snd) fun values =>
        .update (values.headD .unit)
          ((before.map Prod.fst ++ key :: after.map Prod.fst).zip values.tail) note.ty := by
  have hupdate := Strict.update note record (before ++ (key, expr) :: after)
  rwa [List.map_append, List.map_append] at hupdate

section Alike

variable [OwnNames] {rules : ExprRules}

private theorem AlikeAll.append {links : List Link} {exprs twins more moreTwins : List Expr}
    (h : Expr.AlikeAll rules links exprs twins) (hmore : Expr.AlikeAll rules links more moreTwins) :
    Expr.AlikeAll rules links (exprs ++ more) (twins ++ moreTwins) := by
  induction exprs generalizing twins with
  | nil =>
    cases h
    exact hmore
  | cons expr rest ih =>
    cases h with
    | cons hexpr hrest => exact .cons hexpr (ih hrest)

variable {good : String → Prop} (hgood : ∀ name, good name → ¬Secret name)

include hgood

private theorem alikeAll_at {expr twin : Expr} {before after : List Expr} {links : List Link}
    (hexpr : Link.Settles id good links expr.free expr.vars → Expr.Alike rules links expr twin)
    (h : Link.Settles id good links (freeAll (before ++ expr :: after))
      (varsAll (before ++ expr :: after))) :
    Expr.AlikeAll rules links (before ++ expr :: after) (before ++ twin :: after) := by
  rw [freeAll_append, varsAll_append] at h
  refine .append (alikeAll_self rules hgood before (h.part ?_ ?_)) (.cons (hexpr (h.part ?_ ?_))
    (alikeAll_self rules hgood after (h.part ?_ ?_)))
  all_goals simp [freeAll, varsAll]

private theorem strict_at {wrapped : Expr → Expr} (before after : List Expr)
    {build : List Atom → Term}
    (hstrict : ∀ expr, (wrapped expr).Strict (before ++ expr :: after) build)
    (hty : ∀ expr twin, (wrapped expr).ty = (wrapped twin).ty) {expr twin : Expr} {links : List Link}
    (hexpr : Link.Settles id good links expr.free expr.vars → Expr.Alike rules links expr twin)
    (h : Link.Settles id good links (wrapped expr).free (wrapped expr).vars) :
    Expr.Alike rules links (wrapped expr) (wrapped twin) := by
  rw [(hstrict expr).free_eq, (hstrict expr).vars_eq] at h
  exact .strict (hstrict expr) (hstrict twin) (hty expr twin) (alikeAll_at hgood hexpr h)

private theorem settles_body (name : String) (mutable : Bool) (body : Expr)
    {free vars : List String} {links : List Link} (h : Link.Settles id good links free vars)
    (hname : name ∈ vars) (hfree : ∀ other ∈ body.free, other ≠ name → other ∈ free)
    (hvars : body.vars ⊆ vars) :
    Binders name name ∧
      Link.Settles id good (⟨name, name, mutable⟩ :: links) body.free body.vars := by
  have hplain := hgood name (h.vars name hname).2
  exact ⟨⟨.inl rfl, hplain, hplain⟩,
    h.under rfl (fun _ hne => ⟨rfl, hne⟩) hname hfree hvars⟩

/-- Parts of the same place that are alike where their names mean the same. -/
private abbrev PartsAlike (rules : ExprRules) (good : String → Prop) (expr twin : Expr) : Prop :=
  ∀ {links : List Link}, Link.Settles id good links expr.free expr.vars →
    Expr.Alike rules links expr twin

omit hgood in
private theorem cond_alike {test onTrue onFalse twinTest twinTrue twinFalse : Expr} (note : Note)
    (htest : PartsAlike rules good test twinTest) (htrue : PartsAlike rules good onTrue twinTrue)
    (hfalse : PartsAlike rules good onFalse twinFalse) :
    PartsAlike rules good (.cond note test onTrue onFalse)
      (.cond note twinTest twinTrue twinFalse) := by
  intro links h
  refine .cond note (htest (h.part ?_ ?_)) (htrue (h.part ?_ ?_)) (hfalse (h.part ?_ ?_))
  all_goals grind [free, vars]

omit hgood in
private theorem loop_alike {test body twinTest twinBody : Expr} (note : Note) (kind : LoopTest)
    (htest : PartsAlike rules good test twinTest) (hbody : PartsAlike rules good body twinBody) :
    PartsAlike rules good (.loop note kind test body) (.loop note kind twinTest twinBody) := by
  intro links h
  refine .loop note kind (htest (h.part ?_ ?_)) (hbody (h.part ?_ ?_))
  all_goals grind [free, vars]

private theorem count_alike {first last step body twinFirst twinLast twinStep twinBody : Expr}
    (note : Note) (index : String) (direction : Direction)
    (hfirst : PartsAlike rules good first twinFirst) (hlast : PartsAlike rules good last twinLast)
    (hstep : PartsAlike rules good step twinStep) (hbody : PartsAlike rules good body twinBody) :
    PartsAlike rules good (.count note index first last step direction body)
      (.count note index twinFirst twinLast twinStep direction twinBody) := by
  intro links h
  obtain ⟨hbinders, hinside⟩ := settles_body hgood index false body h (by grind [vars])
    (by grind [free]) (by grind [vars])
  refine .count note direction hbinders (hfirst (h.part ?_ ?_)) (hlast (h.part ?_ ?_))
    (hstep (h.part ?_ ?_)) (hbody hinside)
  all_goals grind [free, vars]

private theorem bind_alike {init body twinInit twinBody : Expr} (note : Note) (pattern : Pattern)
    (hinit : PartsAlike rules good init twinInit) (hbody : PartsAlike rules good body twinBody) :
    PartsAlike rules good (.bind note pattern init body) (.bind note pattern twinInit twinBody) := by
  intro links h
  have hinits : Expr.Alike rules links init twinInit :=
    hinit (h.part (by grind [free]) (by grind [vars]))
  cases pattern with
  | name key =>
    obtain ⟨hbinders, hinside⟩ := settles_body hgood key false body h (by grind [vars, patternName])
      (by simp +contextual [free, Pattern.names]) (by grind [vars])
    exact .bind note hbinders hinits (hbody hinside)
  | typed ty key =>
    obtain ⟨hbinders, hinside⟩ := settles_body hgood key false body h (by grind [vars, patternName])
      (by simp +contextual [free, Pattern.names]) (by grind [vars])
    exact .bindTyped note ty hbinders hinits (hbody hinside)
  | wildcard =>
    refine .bindUnnamed note hinits (hbody (h.part ?_ ?_))
    all_goals grind [free, vars, Pattern.names]
  | tuple elems => exact .refused (.bind _ _ _ _) (.bind _ _ _ _) rfl

private theorem var_alike {init body twinInit twinBody : Expr} (note : Note) (target : Target Expr)
    (hinit : PartsAlike rules good init twinInit) (hbody : PartsAlike rules good body twinBody) :
    PartsAlike rules good (.var note target init body) (.var note target twinInit twinBody) := by
  intro links h
  cases target with
  | name key =>
    obtain ⟨hbinders, hinside⟩ := settles_body hgood key true body h (by grind [vars, targetName])
      (by grind [free, Target.root]) (by grind [vars])
    refine .var note hbinders (hinit (h.part ?_ ?_)) (hbody hinside)
    all_goals grind [free, vars]
  | _ => exact .refused (.var _ _ _ (by rintro _ ⟨⟩)) (.var _ _ _ (by rintro _ ⟨⟩)) rfl

omit hgood in
private theorem assign_alike {value twin : Expr} (note : Note) (target : Target Expr)
    (hvalue : PartsAlike rules good value twin) :
    PartsAlike rules good (.assign note target value) (.assign note target twin) := by
  intro links h
  cases target with
  | name key =>
    refine .assign note (h.free key ?_).1 (hvalue (h.part ?_ ?_))
    all_goals grind [free, vars, Target.root, targetName]
  | _ => exact .refused (.assign _ _ (by rintro _ ⟨⟩)) (.assign _ _ (by rintro _ ⟨⟩)) rfl

/-- Expressions that are alike at a place, whatever is linked around it, are alike as a whole. -/
theorem Context.alike {context : Expr → Expr} (hcontext : Context context) {expr twin : Expr}
    (hhole : ∀ {links : List Link}, Link.Settles id good links expr.free expr.vars →
      Expr.Alike rules links expr twin) :
    ∀ {links : List Link}, Link.Settles id good links (context expr).free (context expr).vars →
      Expr.Alike rules links (context expr) (context twin) := by
  have hself : ∀ part, PartsAlike rules good part part := alike_self rules hgood
  induction hcontext with
  | hole => exact hhole
  | item note before after _ ih => exact fun h => .block note (alikeAll_at hgood ih h)
  | test note onTrue onFalse _ ih => exact cond_alike note ih (hself onTrue) (hself onFalse)
  | onTrue note test onFalse _ ih => exact cond_alike note (hself test) ih (hself onFalse)
  | onFalse note test onTrue _ ih => exact cond_alike note (hself test) (hself onTrue) ih
  | loopTest note kind body _ ih => exact loop_alike note kind ih (hself body)
  | loopBody note kind test _ ih => exact loop_alike note kind (hself test) ih
  | first note index last step direction body _ ih =>
    exact count_alike hgood note index direction ih (hself last) (hself step) (hself body)
  | last note index first step direction body _ ih =>
    exact count_alike hgood note index direction (hself first) ih (hself step) (hself body)
  | step note index first last direction body _ ih =>
    exact count_alike hgood note index direction (hself first) (hself last) ih (hself body)
  | countBody note index first last step direction _ ih =>
    exact count_alike hgood note index direction (hself first) (hself last) (hself step) ih
  | assigned note target _ ih => exact assign_alike note target ih
  | assignSelector note value hselect _ _ =>
    exact fun _ => .refused (.assign note value (hselect.ne_name _))
      (.assign note value (hselect.ne_name _)) rfl
  | bindInit note pattern body _ ih => exact bind_alike hgood note pattern ih (hself body)
  | bindBody note pattern init _ ih => exact bind_alike hgood note pattern (hself init) ih
  | varSelector note init body hselect _ _ =>
    exact fun _ => .refused (.var note init body (hselect.ne_name _))
      (.var note init body (hselect.ne_name _)) rfl
  | varInit note target body _ ih => exact var_alike hgood note target ih (hself body)
  | varBody note target init _ ih => exact var_alike hgood note target (hself init) ih
  | inner note ty _ ih => exact fun h => .cast note ty (ih h)
  | eliminatedPart note form before after _ _ =>
    exact fun _ => .refused (.eliminated note form _) (.eliminated note form _) rfl
  -- The strict forms differ in the place of the part only.
  | arg note callee before after _ ih =>
    exact strict_at hgood before after (fun _ => .call note callee _) (fun _ _ => rfl) ih
  | tupleItem note before after _ ih =>
    exact strict_at hgood before after (fun _ => .tuple note _) (fun _ _ => rfl) ih
  | listItem note before after _ ih =>
    exact strict_at hgood before after (fun _ => .list note _) (fun _ _ => rfl) ih
  | vectorItem note before after _ ih =>
    exact strict_at hgood before after (fun _ => .vector note _) (fun _ _ => rfl) ih
  | record note key _ ih =>
    exact strict_at hgood [] [] (fun expr => .field note expr key) (fun _ _ => rfl) ih
  | updated note fields _ ih =>
    exact strict_at hgood [] (fields.map Prod.snd) (fun expr => .update note expr fields)
      (fun _ _ => rfl) ih
  | newField note record key before after _ ih =>
    exact strict_at hgood _ _ (strict_newField note record key before after) (fun _ _ => rfl) ih
  | thrown note _ ih =>
    exact strict_at hgood [] [] (fun expr => .throw note expr) (fun _ _ => rfl) ih
  | exitValue note _ ih =>
    exact strict_at hgood [] [] (fun expr => .exit note expr) (fun _ _ => rfl) ih
  | returned note _ ih =>
    exact strict_at hgood [] [] (fun expr => .ret note expr) (fun _ _ => rfl) ih
  | asserted note text _ ih =>
    exact strict_at hgood [] [text] (fun expr => .assert note expr text) (fun _ _ => rfl) ih
  | assertText note test _ ih =>
    exact strict_at hgood [test] [] (fun expr => .assert note test expr) (fun _ _ => rfl) ih
  | head note tail _ ih =>
    exact strict_at hgood [] [tail] (fun expr => .cons note expr tail) (fun _ _ => rfl) ih
  | tail note head _ ih =>
    exact strict_at hgood [head] [] (fun expr => .cons note head expr) (fun _ _ => rfl) ih

end Alike

end Expr

end IsaBackend
