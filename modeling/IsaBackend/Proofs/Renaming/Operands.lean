import IsaBackend.Proofs.Renaming.Terms
import IsaBackend.Staging.Call

/-!
# Staged operands for every start of the supply

Declaring, loading and releasing compare names for equality only, so they are uniform. The texts that
describe an atom or a binding in an error move along with the names in them.
-/

namespace IsaBackend

open FreshNames (shift IsGenerated shift_injective shift_of_not_generated)
open Movable (move)

def Local.rename (change : String → String) (entry : Local) : Local where
  name := change entry.name
  rep := entry.rep

instance : Movable StagingState where
  move offset state := {
    names := move offset state.names
    locals := state.locals.mapNames (shift offset) (Local.rename (shift offset))
    declared := state.declared.map (shift offset)
    live := state.live.map fun entry => (shift offset entry.1, entry.2)
    result := state.result }

def Loaded.rename (change : String → String) (loaded : Loaded) : Loaded where
  setup := Instr.renameAll change loaded.setup
  value := loaded.value.rename change
  cleanup := Instr.renameAll change loaded.cleanup

/-- A staged computation is another one with its names changed. It is delivered to renamed places. -/
structure Staged.Renames (change : String → String) (staged other : Staged) : Prop where
  setup : other.setup = Instr.renameAll change staged.setup
  rep : other.rep = staged.rep
  deliver : ∀ dest : Place, other.deliver (dest.rename change) = (staged.deliver dest).rename change
  cleanup : other.cleanup = Instr.renameAll change staged.cleanup

def NameMoves (values : Nat → String) : Prop := ∃ name, values = fun offset => shift offset name

def InstrMoves (values : Nat → Instr) : Prop :=
  ∃ instr : Instr, values = fun offset => instr.rename (shift offset)

def CodeMoves (values : Nat → List Instr) : Prop :=
  ∃ code, values = fun offset => Instr.renameAll (shift offset) code

def LoadedMoves (values : Nat → Loaded) : Prop :=
  ∃ loaded : Loaded, values = fun offset => loaded.rename (shift offset)

def StagedMoves (values : Nat → Staged) : Prop :=
  ∃ staged, ∀ offset, Staged.Renames (shift offset) staged (values offset)

namespace Instr

variable (change : String → String)

private theorem rename_store (dest : Place) (value : Operand) :
    (store dest value).rename change = store (dest.rename change) (value.rename change) := by
  simp only [store, Place.rep_rename]
  split <;> rfl

theorem renameAll_releaseOf (name : String) (rep : Rep) :
    renameAll change (releaseOf name rep) = releaseOf (change name) rep := by
  unfold releaseOf
  split <;> rfl

end Instr

theorem Loaded.renames_ofLoaded (change : String → String) (loaded : Loaded) :
    Staged.Renames change (.ofLoaded loaded) (.ofLoaded (loaded.rename change)) where
  setup := rfl
  rep := Operand.rep_rename change loaded.value
  deliver := fun dest => (Instr.rename_store change dest loaded.value).symm
  cleanup := rfl

theorem Staged.renames_effect (change : String → String) (code : List Instr) :
    Staged.Renames change (.effect code) (.effect (Instr.renameAll change code)) where
  setup := rfl
  rep := rfl
  deliver := fun _ => rfl
  cleanup := rfl

theorem Staged.Renames.into {change : String → String} {staged other : Staged}
    (h : staged.Renames change other) (dest : Place) :
    other.into (dest.rename change) = Instr.renameAll change (staged.into dest) := by
  simp only [Staged.into, h.setup, h.deliver, h.cleanup, Instr.renameAll_append, Instr.renameAll]

private theorem Inline.render_moves (expr : Inline) :
    TextMoves fun offset => (expr.rename (shift offset)).render := by
  induction expr with
  | name key => exact .shift key
  | field record key ih => exact (ih.append (.same ".")).append (.same key)
  | binary op left right ihl ihr =>
    have hleft := ((TextMoves.same "(").append ihl).append (.same " ")
    exact ((hleft.append (.same op.symbol)).append (.same " ")).append ihr |>.append (.same ")")
  | not operand ih => exact (TextMoves.same "!").append ih
  | _ => exact .same _

namespace Atom

private theorem renderAll_eq (atoms : List Atom) (offset : Nat) :
    renderAll (renameAll (shift offset) atoms) =
      (atoms.map fun atom offset => (atom.rename (shift offset)).render).map fun text =>
        text offset := by
  induction atoms with
  | nil => rfl
  | cons atom rest ih => simp only [renameAll, renderAll, List.map_cons, ih]

private theorem renderAll_moves {atoms : List Atom}
    (h : ∀ atom ∈ atoms, TextMoves fun offset => (atom.rename (shift offset)).render) :
    TextMoves fun offset => String.intercalate ", " (renderAll (renameAll (shift offset) atoms)) := by
  simp only [renderAll_eq]
  refine TextMoves.intercalate ", " fun text htext => ?_
  obtain ⟨atom, hatom, rfl⟩ := List.mem_map.mp htext
  exact h atom hatom

mutual

private theorem render_moves : ∀ atom : Atom, TextMoves fun offset =>
    (atom.rename (shift offset)).render
  | lit value _ => .same value.render
  | name key _ _ => .shift key
  | refTo key _ => .same ("&" ++ key)
  | tuple elems => (renderAll_moves (each_moves elems)).between "(" ")"
  | list elems _ => (renderAll_moves (each_moves elems)).between "[|" "|]"
  | vector elems _ => (renderAll_moves (each_moves elems)).between "[" "]"
  | inline expr _ => expr.render_moves.between "\x7b" "\x7d"

theorem each_moves : ∀ (atoms : List Atom), ∀ atom ∈ atoms,
    TextMoves fun offset => (atom.rename (shift offset)).render
  | [] => fun _ hmem => absurd hmem List.not_mem_nil
  | first :: rest => List.forall_mem_cons.mpr ⟨render_moves first, each_moves rest⟩

end

end Atom

namespace Staging

variable {α : Type} {around : Surroundings} {state : StagingState}

theorem repOf_uniform (ty : Ty) : Uniform (fun _ => repOf around ty) state fun values after =>
    (∃ rep, values = fun _ => rep) ∧ after = state :=
  (Uniform.lift _).mono fun _ _ ⟨⟨rep, _, hvalues⟩, hafter⟩ => ⟨⟨rep, hvalues⟩, hafter⟩

theorem fresh_uniform : Uniform (fun _ => fresh) state fun values _ => NameMoves values := by
  refine .inl ⟨fun offset => shift offset (FreshNames.name state.names.next),
    { state with names := ⟨state.names.next + 1⟩ }, fun offset => ?_, _, rfl⟩
  have hname := (FreshNames.shift_name offset state.names.next).symm
  have hnext : state.names.next + offset + 1 = state.names.next + 1 + offset := by omega
  exact congrArg₂ (fun name next => EStateM.Result.ok name { move offset state with names := ⟨next⟩ })
    hname hnext

theorem map_insert {change : String → String} (hinj : Function.Injective change)
    (names : List String) (name : String) :
    (names.insert name).map change = (names.map change).insert (change name) := by
  by_cases h : name ∈ names
  · rw [List.insert_of_mem h, List.insert_of_mem (List.mem_map_of_mem h)]
  · have hchange : change name ∉ names.map change := by
      rwa [List.mem_map_of_injective hinj]
    rw [List.insert_of_not_mem h, List.insert_of_not_mem hchange, List.map_cons]

private theorem claim_uniform (name : String) :
    Uniform (fun offset => claim (shift offset name)) state fun _ _ => True := by
  refine (Uniform.modify { state with declared := state.declared.insert name }
    fun offset => ?_).mono fun _ _ _ => trivial
  exact congrArg (fun declared => { move offset state with declared })
    (map_insert (shift_injective offset) state.declared name).symm

private theorem pushLive_uniform (name : String) (rep : Rep) :
    Uniform (fun offset => pushLive (shift offset name) rep) state fun _ _ => True :=
  (Uniform.modify { state with live := (name, rep) :: state.live } fun _ => rfl).mono
    fun _ _ _ => trivial

theorem declare_uniform (name : String) (rep : Rep) :
    Uniform (fun offset => declare (shift offset name) rep) state fun values _ =>
      InstrMoves values := by
  unfold declare
  split
  · exact Uniform.pure ⟨.decl rep name, rfl⟩
  · exact (pushLive_uniform name rep).bind fun _ _ _ => Uniform.pure ⟨.alloc rep name, rfl⟩

def DeclMoves (values : Nat → String × Instr) : Prop :=
  ∃ (name : String) (instr : Instr),
    values = fun offset => (shift offset name, instr.rename (shift offset))

theorem temp_uniform (rep : Rep) :
    Uniform (fun _ => temp rep) state fun values _ => DeclMoves values := by
  refine fresh_uniform.bind ?_
  rintro _ second ⟨name, rfl⟩
  refine (claim_uniform name).bind fun _ third _ => ?_
  refine (declare_uniform name rep).bind ?_
  rintro _ _ ⟨instr, rfl⟩
  exact Uniform.pure ⟨name, instr, rfl⟩

theorem tempFrom_uniform (rep : Rep) (value : Operand) :
    Uniform (fun offset => tempFrom rep (value.rename (shift offset))) state fun values _ =>
      DeclMoves values := by
  refine fresh_uniform.bind ?_
  rintro _ second ⟨name, rfl⟩
  refine (claim_uniform name).bind fun _ third _ => ?_
  refine (pushLive_uniform name rep).bind fun _ _ _ => ?_
  exact Uniform.pure ⟨name, .init rep name value, rfl⟩

private theorem strike_rename {change : String → String} (hinj : Function.Injective change)
    (live : List (String × Rep)) (instr : Instr) :
    strike (live.map fun entry => (change entry.1, entry.2)) (instr.rename change) =
      (strike live instr).map fun entry => (change entry.1, entry.2) := by
  cases instr with
  | release rep name =>
    simp only [Instr.rename, strike]
    induction live with
    | nil => rfl
    | cons entry rest ih =>
      by_cases h : entry.1 = name
      · simp [h]
      · simp [h, hinj.eq_iff, ih]
  | _ => rfl

theorem settle_uniform (code : List Instr) :
    Uniform (fun offset => settle (Instr.renameAll (shift offset) code)) state fun _ _ => True := by
  have hfold : ∀ (offset : Nat) (code : List Instr) (live : List (String × Rep)),
      (Instr.renameAll (shift offset) code).foldl strike
        (live.map fun entry => (shift offset entry.1, entry.2)) =
      (code.foldl strike live).map fun entry => (shift offset entry.1, entry.2) := by
    intro offset code
    induction code with
    | nil => exact fun _ => rfl
    | cons instr rest ih =>
      intro live
      simp only [Instr.renameAll, List.foldl_cons, strike_rename (shift_injective offset), ih]
  refine (Uniform.modify { state with live := code.foldl strike state.live }
    fun offset => ?_).mono fun _ _ _ => trivial
  exact congrArg (fun live => { move offset state with live }) (hfold offset code state.live)

theorem settleStaged_uniform {values : Nat → Staged} (h : StagedMoves values) :
    Uniform (fun offset => settle (values offset).cleanup) state fun _ _ => True := by
  obtain ⟨staged, hstaged⟩ := h
  have hcleanup : (fun offset => settle (values offset).cleanup) =
      fun offset => settle (Instr.renameAll (shift offset) staged.cleanup) :=
    funext fun offset => congrArg settle (hstaged offset).cleanup
  exact hcleanup ▸ settle_uniform staged.cleanup

theorem close_uniform {values : Nat → Staged} (h : StagedMoves values) (dest : Place) :
    Uniform (fun offset => close (values offset) (dest.rename (shift offset))) state
      fun values _ => CodeMoves values := by
  refine (settleStaged_uniform h).bind fun _ _ _ => ?_
  obtain ⟨staged, hstaged⟩ := h
  exact Uniform.pure ⟨staged.into dest, funext fun offset => (hstaged offset).into dest⟩

theorem localName_uniform (name : String) :
    Uniform (fun offset => localName (shift offset name)) state fun values _ =>
      NameMoves values := by
  refine Uniform.get.bind ?_
  rintro _ here ⟨rfl, rfl⟩
  have hcontains : ∀ offset, (move offset here).declared.contains (shift offset name) =
      here.declared.contains name := by
    intro offset
    rw [Bool.eq_iff_iff, List.contains_iff_mem, List.contains_iff_mem]
    exact List.mem_map_of_injective (shift_injective offset)
  simp only [hcontains]
  split
  · refine fresh_uniform.bind ?_
    rintro _ middle ⟨other, rfl⟩
    exact (claim_uniform other).bind fun _ _ _ => Uniform.pure ⟨other, rfl⟩
  · exact (claim_uniform name).bind fun _ _ _ => Uniform.pure ⟨name, rfl⟩

theorem within_uniform (state : StagingState) (name : String) (entry : Local)
    {bodies : Nat → Staging α} {good : (Nat → α) → Prop}
    (h : ∀ state, Uniform bodies state fun values _ => good values) :
    Uniform (fun offset => within (shift offset name) (entry.rename (shift offset)) (bodies offset))
      state fun values _ => good values := by
  refine Uniform.get.bind ?_
  rintro _ here ⟨rfl, rfl⟩
  let inner : StagingState := { here with locals := here.locals.set name entry }
  refine (Uniform.modify inner fun offset => ?_).bind ?_
  · exact congrArg (fun locals => { move offset here with locals })
      (NameTable.mapNames_set (shift_injective offset) here.locals name entry).symm
  · rintro _ _ rfl
    refine ((h inner).ensuring
      (fun state => { state with locals := state.locals.put name (here.locals.get? name) }) ?_).mono ?_
    · intro offset final
      have hget : (move offset here).locals.get? (shift offset name) = _ :=
        NameTable.get?_mapNames (shift_injective offset) here.locals name
      have hput : (move offset final).locals.put (shift offset name)
          ((move offset here).locals.get? (shift offset name)) = _ :=
        hget ▸ (NameTable.mapNames_put (shift_injective offset) final.locals name _).symm
      exact congrArg (fun locals => { move offset final with locals }) hput
    · rintro values _ ⟨_, hgood, _⟩
      exact hgood

private theorem convert_uniform {values : Nat → Staged} {staged : Staged}
    (hstaged : ∀ offset, Staged.Renames (shift offset) staged (values offset)) (target : Rep) :
    Uniform (fun offset => do
      let (name, decl) ← temp staged.rep
      return {
        setup := (values offset).setup ++
          [decl, (values offset).deliver (.name name staged.rep)]
        rep := target
        deliver := fun dest => .convert dest (.name name staged.rep)
        cleanup := Instr.releaseOf name staged.rep ++ (values offset).cleanup : Staged }) state
      fun values _ => StagedMoves values := by
  refine (temp_uniform staged.rep).bind ?_
  rintro _ _ ⟨name, decl, rfl⟩
  refine Uniform.pure ⟨{
    setup := staged.setup ++ [decl, staged.deliver (.name name staged.rep)]
    rep := target
    deliver := fun dest => .convert dest (.name name staged.rep)
    cleanup := Instr.releaseOf name staged.rep ++ staged.cleanup }, fun offset => ?_⟩
  have hdeliver := (hstaged offset).deliver (.name name staged.rep)
  exact {
    setup := by
      simp only [(hstaged offset).setup, Instr.renameAll_append, Instr.renameAll, ← hdeliver]
      rfl
    rep := rfl
    deliver := fun _ => rfl
    cleanup := by
      simp only [(hstaged offset).cleanup, Instr.renameAll_append, Instr.renameAll_releaseOf] }

theorem coerce_uniform {values : Nat → Staged} (h : StagedMoves values) (target : Rep)
    {context : Nat → String} (hcontext : TextMoves context) :
    Uniform (fun offset => coerce (values offset) target (context offset)) state
      fun values _ => StagedMoves values := by
  obtain ⟨staged, hstaged⟩ := h
  have hrep : ∀ offset, (values offset).rep = staged.rep := fun offset => (hstaged offset).rep
  unfold coerce
  simp only [hrep]
  cases staged.rep.bridge? target with
  | none => exact Uniform.throw (.mismatch staged.rep target hcontext)
  | some bridge =>
    cases bridge with
    | identity =>
      refine Uniform.pure ⟨{ staged with rep := target }, fun offset => ?_⟩
      exact { hstaged offset with rep := rfl }
    | _ => exact convert_uniform hstaged target

theorem transfer_uniform (dest : Place) (value : Operand) {context : Nat → String}
    (hcontext : TextMoves context) :
    Uniform (fun offset => (lift (Instr.transfer (dest.rename (shift offset))
        (value.rename (shift offset)) (context offset)) : Staging Instr)) state
      fun values after => InstrMoves values ∧ after = state := by
  apply Uniform.liftEach
  simp only [Instr.transfer, Operand.rep_rename, Place.rep_rename]
  cases value.rep.bridge? dest.rep with
  | none => exact .inr ⟨_, fun _ => rfl, .mismatch _ _ hcontext⟩
  | some bridge =>
    refine .inl ?_
    cases bridge with
    | identity =>
      exact ⟨_, fun _ => rfl, .store dest value,
        funext fun offset => (Instr.rename_store (shift offset) dest value).symm⟩
    | _ => exact ⟨_, fun _ => rfl, .convert dest value, rfl⟩

private theorem loaded_of_value (value : Operand) :
    LoadedMoves fun offset => { value := value.rename (shift offset) } :=
  ⟨{ value }, rfl⟩

private theorem loaded_of_name (name : String) (rep : Rep) (instr : Instr) :
    LoadedMoves fun offset => {
      setup := [instr.rename (shift offset)]
      value := .name (shift offset name) rep
      cleanup := Instr.releaseOf (shift offset name) rep } :=
  ⟨{ setup := [instr], value := .name name rep, cleanup := Instr.releaseOf name rep },
    funext fun offset => by
      simp only [Loaded.rename, Instr.renameAll, Operand.rename, Instr.renameAll_releaseOf]⟩

private theorem loadText_uniform (rep : Rep) (text : String) :
    Uniform (fun _ => loadText rep text) state fun values _ => LoadedMoves values := by
  refine (tempFrom_uniform rep (.inline (.text text) .string)).bind ?_
  rintro _ _ ⟨name, init, rfl⟩
  exact Uniform.pure (loaded_of_name name rep init)

private theorem loadUndefined_uniform (rep : Rep) :
    Uniform (fun _ => loadUndefined rep) state fun values _ => LoadedMoves values := by
  refine (temp_uniform rep).bind ?_
  rintro _ _ ⟨name, decl, rfl⟩
  exact Uniform.pure (loaded_of_name name rep decl)

private theorem loaded_of_constant {expr : Inline} (hexpr : ∀ change, expr.rename change = expr)
    (rep : Rep) : LoadedMoves fun _ => { value := .inline expr rep } :=
  ⟨{ value := .inline expr rep }, funext fun offset => by
    simp only [Loaded.rename, Instr.renameAll, Operand.rename, hexpr]⟩

private theorem loadDigits_uniform (rep : Rep) (digits mark : String) (radix bitsPerDigit : Nat) :
    Uniform (fun _ => loadDigits rep digits mark radix bitsPerDigit) state fun values _ =>
      LoadedMoves values := by
  unfold loadDigits
  cases hexpr : Inline.ofDigits? digits radix bitsPerDigit with
  | none => exact loadText_uniform _ _
  | some expr =>
    refine Uniform.pure (loaded_of_constant (fun change => ?_) _)
    simp only [Inline.ofDigits?] at hexpr
    split at hexpr
    · obtain ⟨number, _, rfl⟩ := Option.map_eq_some_iff.mp hexpr
      rfl
    · cases hexpr

private theorem loadLiteral_uniform (rep : Rep) (value : Literal) :
    Uniform (fun _ => loadLiteral rep value) state fun values _ => LoadedMoves values := by
  cases value with
  | undefined => exact loadUndefined_uniform rep
  | num value =>
    simp only [loadLiteral]
    split
    · exact Uniform.pure (loaded_of_constant (fun _ => rfl) _)
    · exact loadText_uniform _ _
  | hex digits => exact loadDigits_uniform _ _ _ _ _
  | bin digits => exact loadDigits_uniform _ _ _ _ _
  | _ => exact Uniform.pure (loaded_of_constant (fun _ => rfl) _)

/-- A constructor keeps its name, since it is none that could have been generated. -/
theorem loadName_uniform (name : String) (cls : NameClass) (ty : Ty)
    (hname : cls = .unionCtor → ¬IsGenerated name) :
    Uniform (fun offset => loadName around (shift offset name) cls ty) state fun values _ =>
      LoadedMoves values := by
  refine Uniform.get.bind ?_
  rintro _ here ⟨rfl, rfl⟩
  have hget : ∀ offset, (move offset here).locals.get? (shift offset name) =
      (here.locals.get? name).map (Local.rename (shift offset)) := fun offset =>
    NameTable.get?_mapNames (shift_injective offset) here.locals name
  simp only [hget]
  cases here.locals.get? name with
  | some entry => exact Uniform.pure (loaded_of_value (.name entry.name entry.rep))
  | none =>
    refine (repOf_uniform ty).bind ?_
    rintro _ _ ⟨⟨rep, rfl⟩, rfl⟩
    cases cls with
    | enumMember => exact Uniform.pure (loaded_of_value (.inline (.name name) rep))
    | unionCtor =>
      simp only [shift_of_not_generated (hname rfl)]
      refine (temp_uniform rep).bind ?_
      rintro _ _ ⟨result, decl, rfl⟩
      refine Uniform.pure ⟨{
        setup := [decl, .call (.name result rep) name [.unit]]
        value := .name result rep
        cleanup := Instr.releaseOf result rep }, funext fun offset => ?_⟩
      simp only [Loaded.rename, Instr.renameAll, Instr.renameAll_releaseOf]
      rfl
    | _ => exact Uniform.pure (loaded_of_value (.name name rep))

private theorem loadInline_uniform (expr : Inline) (ty : Ty) :
    Uniform (fun offset => loadInline around (expr.rename (shift offset)) ty) state
      fun values _ => LoadedMoves values := by
  refine (repOf_uniform ty).bind ?_
  rintro _ here ⟨⟨rep, rfl⟩, rfl⟩
  simp only [Inline.fitsMachineWord_rename]
  split
  · exact Uniform.pure (loaded_of_value (.inline expr rep))
  · have hrefused : Uniform (fun offset => (throw (.mismatch .bigInt rep
          ("constant inside fragment '" ++ (expr.rename (shift offset)).render ++ "'")) :
          Staging Loaded)) here fun values _ => LoadedMoves values :=
      Uniform.throw (.mismatch .bigInt rep (expr.render_moves.between _ _))
    cases expr with
    | int value => exact loadText_uniform _ _
    | _ => exact hrefused

private theorem bitsValue_uniform : ∀ (elems : List Atom) (value : Nat),
    (∃ values : Nat → Nat, (∀ offset, bitsValue value (Atom.renameAll (shift offset) elems) =
      .ok (values offset)) ∧ ∃ number, values = fun _ => number) ∨
    ∃ causes, (∀ offset, bitsValue value (Atom.renameAll (shift offset) elems) =
      .error (causes offset)) ∧ ErrorMoves causes
  | [], value => .inl ⟨fun _ => value, fun _ => rfl, value, rfl⟩
  | elem :: rest, value => by
    have hrefused : ErrorMoves fun offset => .unsupported ("vector literal with non-constant element '" ++
        (elem.rename (shift offset)).render ++ "'") .generated :=
      .unsupported .generated (elem.render_moves.between _ _)
    cases elem with
    | lit literal ty =>
      cases literal with
      | bit bit => exact bitsValue_uniform rest (2 * value + bit.toNat)
      | _ => exact .inr ⟨_, fun _ => rfl, hrefused⟩
    | _ => exact .inr ⟨_, fun _ => rfl, hrefused⟩

private theorem loadBits_uniform (elems : List Atom) (ty : Ty) :
    Uniform (fun offset => loadBits around (Atom.renameAll (shift offset) elems) ty) state
      fun values _ => LoadedMoves values := by
  refine (repOf_uniform ty).bind ?_
  rintro _ _ ⟨⟨rep, rfl⟩, rfl⟩
  refine (Uniform.liftEach (bitsValue_uniform elems 0)).bind ?_
  rintro _ _ ⟨⟨number, rfl⟩, rfl⟩
  simp only [Atom.length_renameAll]
  split
  · exact Uniform.pure (loaded_of_constant (fun _ => rfl) _)
  · split
    · exact loadText_uniform _ _
    · exact Uniform.throw (.same .vectorTooLong)

mutual

theorem load_uniform : ∀ (atom : Atom) (state : StagingState), atom.Proper →
    Uniform (fun offset => load around (atom.rename (shift offset))) state fun values _ =>
      LoadedMoves values
  | .lit value ty, state, _ => by
    refine (repOf_uniform ty).bind ?_
    rintro _ _ ⟨⟨rep, rfl⟩, rfl⟩
    exact loadLiteral_uniform rep value
  | .name name cls ty, state, h => loadName_uniform name cls ty h
  | .refTo name ty, state, _ => by
    refine (repOf_uniform ty).bind ?_
    rintro _ _ ⟨⟨rep, rfl⟩, rfl⟩
    exact Uniform.pure (loaded_of_constant (fun _ => rfl) _)
  | .tuple elems, state, h => by
    simp only [Atom.rename, load, Atom.tys_renameAll]
    refine (repOf_uniform _).bind ?_
    rintro _ _ ⟨⟨rep, rfl⟩, rfl⟩
    refine (temp_uniform rep).bind ?_
    rintro _ middle ⟨name, decl, rfl⟩
    refine (loadFields_uniform (.name name rep) 0 elems rep.fields middle h).bind ?_
    rintro _ _ ⟨stores, rfl⟩
    refine Uniform.pure ⟨{
      setup := decl :: stores
      value := .name name rep
      cleanup := Instr.releaseOf name rep }, funext fun offset => ?_⟩
    simp only [Loaded.rename, Instr.renameAll, Operand.rename, Instr.renameAll_releaseOf]
  | .vector elems ty, state, _ => loadBits_uniform elems ty
  | .list _ ty, state, _ =>
    (repOf_uniform ty).bind fun _ _ _ => Uniform.throw (.same _)
  | .inline expr ty, state, _ => loadInline_uniform expr ty

theorem loadFields_uniform (base : Place) : ∀ (index : Nat) (elems : List Atom)
    (fields : List (String × Rep)) (state : StagingState), Atom.ProperAll elems →
    Uniform (fun offset => loadFields around (base.rename (shift offset)) index
      (Atom.renameAll (shift offset) elems) fields) state fun values _ => CodeMoves values
  | index, elem :: elems, (field, rep) :: fields, state, ⟨helem, helems⟩ => by
    refine (load_uniform elem state helem).bind ?_
    rintro _ middle ⟨loaded, rfl⟩
    refine (transfer_uniform (.field base field rep) loaded.value (.same _)).bind ?_
    rintro _ _ ⟨⟨store, rfl⟩, rfl⟩
    refine (settle_uniform loaded.cleanup).bind fun _ last _ => ?_
    refine (loadFields_uniform base (index + 1) elems fields last helems).bind ?_
    rintro _ _ ⟨rest, rfl⟩
    refine Uniform.pure ⟨loaded.setup ++ [store] ++ loaded.cleanup ++ rest, funext fun offset => ?_⟩
    simp only [Loaded.rename, Instr.renameAll_append, Instr.renameAll]
  | _, [], _, _, _ => Uniform.pure ⟨[], rfl⟩
  | _, _ :: _, [], _, _ => Uniform.pure ⟨[], rfl⟩

end

theorem storeAtom_uniform (dest : Place) (atom : Atom) (h : atom.Proper) {context : Nat → String}
    (hcontext : TextMoves context) :
    Uniform (fun offset => storeAtom around (dest.rename (shift offset)) (atom.rename (shift offset))
      (context offset)) state fun values _ => CodeMoves values := by
  refine (load_uniform atom state h).bind ?_
  rintro _ middle ⟨loaded, rfl⟩
  refine (transfer_uniform dest loaded.value hcontext).bind ?_
  rintro _ _ ⟨⟨store, rfl⟩, rfl⟩
  refine (settle_uniform loaded.cleanup).bind fun _ last _ => ?_
  refine Uniform.pure ⟨loaded.setup ++ [store] ++ loaded.cleanup, funext fun offset => ?_⟩
  simp only [Loaded.rename, Instr.renameAll_append, Instr.renameAll]

end Staging

end IsaBackend
