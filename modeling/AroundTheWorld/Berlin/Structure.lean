import Mathlib.Data.List.Forall2
import Mathlib.Data.List.Induction
import AroundTheWorld.Berlin.Module
import AroundTheWorld.Berlin.Nested

/-!
# The functions of Berlin's module

The builder stays in the entry block of a definition, so that the function behind
it is created inside it. A module is built as it should be exactly when no
definition is followed by another item.
-/

namespace AroundTheWorld.Berlin

open AroundTheWorld.Base AroundTheWorld.Lex AroundTheWorld.Mlir
open AroundTheWorld.Athens (ExprAST FunctionAST PrototypeAST Name)
open AroundTheWorld.Llvm (FloatOps wholeOps)

variable {D : Type}

namespace ModuleState

def entryOf (s : ModuleState D) (func : Nat) : Option Nat := s.funcs[func]?.bind (·.entry)

def topLevelOps (s : ModuleState D) : List FuncOp := s.topLevel.filterMap (s.funcs[·]?)

end ModuleState

/-- The function of an item: a definition has a body. -/
def FuncOp.IsFor (op : FuncOp) (item : Item D) : Prop :=
  op.name = item.proto.name ∧ op.numInputs = item.proto.args.length ∧ op.place = .inModule ∧
    op.entry.isSome = item.isFunction

variable (ops : FloatOps D)

/-- The body is compiled when the function is alone in its module. -/
def Compiles (f : FunctionAST D) : Prop :=
  ∃ s, genFunction ops f {} = .ok s ∧ s.topLevel = [0]

/-- The items have been built one after another, each as one function of the module,
and what was added for a definition is nested in its own function. -/
structure WellBuilt (items : List (Item D)) (final : ModuleState D) : Prop where
  built : genItems ops items {} = .ok final
  oneEach : List.Forall₂ FuncOp.IsFor final.topLevelOps items
  distinct : final.topLevel.Nodup
  nested : ∀ before f after s s', items = before ++ .function f :: after →
    genItems ops before {} = .ok s → genFunction ops f s = .ok s' →
    ∃ func entry, final.topLevel[before.length]? = some func ∧ final.entryOf func = some entry ∧
      ∀ k, s'.gen.builder.blocks k ≠ s.gen.builder.blocks k →
        Nested final.entryOf final.gen.builder.blocks entry k ∧
        ∀ func' entry', func' ≠ func → final.entryOf func' = some entry' →
          ¬ Nested final.entryOf final.gen.builder.blocks entry' k

variable {ops}

/-! ## One function -/

theorem genParams_nests {entryOf : Nat → Option Nat} (params : List (Name × Nat)) :
    Nests entryOf (genParams params : BerlinGen D Unit) := by
  induction params with
  | nil => exact .pure ()
  | cons p params ih =>
    unfold genParams
    apply (create_nests _).bind
    intro alloca
    apply (createOp_nests _).bind
    intro _
    exact (bindName_nests _ _).bind fun _ => ih

/-- All code of a function is nested in its entry block, where the builder stays. -/
theorem genEntry_nested {entryOf : Nat → Option Nat} {f : FunctionAST D} {entry : Nat}
    {args : List Nat} {s s' : BerlinState D} (h : genEntry ops f entry args s = .ok () s') :
    NestedIn entryOf entry (s.builder.setInsertPoint (.atEnd entry)) s'.builder := by
  unfold genEntry at h
  obtain ⟨_, s₁, hset, h⟩ := Gen.bind_ok h
  cases hset
  obtain ⟨_, s₂, hclear, h⟩ := Gen.bind_ok h
  cases hclear
  obtain ⟨_, s₃, hparams, h⟩ := Gen.bind_ok h
  have h₃ := (genParams_nests _).after (show NestedIn entryOf entry _ _ from .refl rfl) hparams
  obtain ⟨bodyVal, s₄, hbody, h⟩ := Gen.bind_ok h
  have h₄ := (gen_nests ops f.body).after h₃ hbody
  exact (createOp_nests _).after h₄ h

/-- In a module without definitions, a body that compiles adds its function. -/
theorem genFunction_compiles {f : FunctionAST D} (hcompile : Compiles ops f) {s : ModuleState D}
    (hgen : s.gen = {}) : ∃ gen, genFunction ops f s = .ok { s.started f with gen } ∧
      ∀ entryOf,
        NestedIn entryOf 0 ({ insertPoint := .atEnd 0 } : OpBuilder D Name) gen.builder := by
  obtain ⟨s₀, hrun, htop⟩ := hcompile
  have hunset : s.gen.builder.insertPoint = .unset := by rw [hgen]
  have hsame : runEntry ops f s = runEntry ops f {} := by
    unfold runEntry ModuleState.started
    rw [hgen]
  rw [genFunction_unset rfl] at hrun
  rw [genFunction_unset hunset, hsame]
  cases hentry : runEntry ops f {} with
  | ok u gen =>
    refine ⟨gen, rfl, fun entryOf => ?_⟩
    have hnested : NestedIn entryOf _ _ _ := genEntry_nested hentry
    exact ⟨hnested.insert, hnested.grows, hnested.changed⟩
  | null gen =>
    rw [hentry] at hrun
    cases hrun
    cases htop
  | abort why =>
    rw [hentry] at hrun
    cases hrun

/-! ## Prototypes, and the item behind them -/

/-- The functions are those of the items, in order, and all in the module. -/
structure ModuleState.Lists (s : ModuleState D) (items : List (Item D)) : Prop where
  topLevel : s.topLevel = List.range s.funcs.length
  funcs : List.Forall₂ FuncOp.IsFor s.funcs items

theorem filterMap_range {α : Type} (l : List α) : (List.range l.length).filterMap (l[·]?) = l := by
  induction l using List.reverseRecOn with
  | nil => rfl
  | append_singleton l a ih =>
    have hfront : (List.range l.length).filterMap ((l ++ [a])[·]?) =
        (List.range l.length).filterMap (l[·]?) := by
      apply List.filterMap_congr
      intro i hi
      exact List.getElem?_append_left (List.mem_range.mp hi)
    rw [List.length_append, List.length_singleton, List.range_succ, List.filterMap_append,
      hfront, ih]
    simp

namespace ModuleState.Lists

variable {s : ModuleState D} {items : List (Item D)}

theorem topLevelOps (h : s.Lists items) : s.topLevelOps = s.funcs := by
  unfold ModuleState.topLevelOps
  rw [h.topLevel]
  exact filterMap_range s.funcs

theorem snoc (h : s.Lists items) {op : FuncOp} {item : Item D} (hop : op.IsFor item)
    (gen : BerlinState D) :
    ModuleState.Lists ⟨gen, s.funcs ++ [op], s.topLevel ++ [s.funcs.length]⟩ (items ++ [item]) := by
  constructor
  · show s.topLevel ++ _ = List.range (s.funcs ++ [op]).length
    rw [h.topLevel, List.length_append, List.length_singleton, List.range_succ]
  · exact List.rel_append h.funcs (.cons hop .nil)

/-- Beside the declarations only the last function can have a block. -/
theorem entryOf_other (h : s.Lists items) (hdecl : ∀ item ∈ items, item.isFunction = false)
    {op : FuncOp} {gen : BerlinState D} {topLevel : List Nat} {func : Nat}
    (hne : func ≠ s.funcs.length) :
    ModuleState.entryOf ⟨gen, s.funcs ++ [op], topLevel⟩ func = none := by
  unfold ModuleState.entryOf
  rw [List.getElem?_append]
  by_cases hlt : func < s.funcs.length
  · rw [if_pos hlt]
    have hlt' : func < items.length := by
      rw [← h.funcs.length_eq]
      exact hlt
    have hfor : s.funcs[func].IsFor items[func] := h.funcs.get hlt hlt'
    have hentry := hfor.2.2.2
    rw [hdecl _ (List.getElem_mem hlt'), Option.isSome_eq_false_iff,
      Option.isNone_iff_eq_none] at hentry
    rw [List.getElem?_eq_getElem hlt]
    exact hentry
  · have hout : func - s.funcs.length ≠ 0 := by omega
    simp [hlt, hout]

end ModuleState.Lists

/-- Only declarations have been seen. -/
theorem genItems_prototypes (ops : FloatOps D) {items : List (Item D)}
    (h : ∀ item ∈ items, item.isFunction = false)
    {s : ModuleState D} {done : List (Item D)} (hs : s.Lists done) (hgen : s.gen = {}) :
    ∃ s', genItems ops items s = .ok s' ∧ s'.Lists (done ++ items) ∧ s'.gen = {} := by
  induction items generalizing s done with
  | nil => exact ⟨s, rfl, by rwa [List.append_nil], hgen⟩
  | cons item items ih =>
    cases item with
    | function f => cases h _ (List.mem_cons_self ..)
    | prototype proto =>
      have hunset : s.gen.builder.insertPoint = .unset := by rw [hgen]
      have hnext : (s.declared proto).Lists (done ++ [.prototype proto]) :=
        hs.snoc ⟨rfl, rfl, rfl, rfl⟩ s.gen
      obtain ⟨s', hrun, hlists, hgen'⟩ :=
        ih (fun i hi => h i (List.mem_cons_of_mem _ hi)) hnext hgen
      refine ⟨s', ?_, by rwa [List.append_assoc] at hlists, hgen'⟩
      show (genPrototype proto s >>= _) = _
      rw [genPrototype_unset hunset]
      exact hrun

/-- A definition that is followed by another item crashes the compiler. -/
theorem genItems_crash {items : List (Item D)}
    (hcompile : ∀ f, .function f ∈ items → Compiles ops f)
    {item : Item D} (hitem : item ∈ items.dropLast) (hdef : item.isFunction = true)
    {s : ModuleState D} (hgen : s.gen = {}) : genItems ops items s = .error .alreadyInBlock := by
  induction items generalizing s with
  | nil => cases hitem
  | cons first rest ih =>
    cases rest with
    | nil => cases hitem
    | cons second rest =>
      cases first with
      | function f =>
        obtain ⟨gen, hrun, hnested⟩ :=
          genFunction_compiles (hcompile f (List.mem_cons_self ..)) hgen
        show (genFunction ops f s >>= _) = _
        rw [hrun]
        show (genItem ops second _ >>= _) = _
        have hinsert : gen.builder.insertPoint = .atEnd 0 := (hnested fun _ => none).insert
        rw [genItem_atEnd (s := { s.started f with gen }) hinsert]
        rfl
      | prototype proto =>
        have hunset : s.gen.builder.insertPoint = .unset := by rw [hgen]
        show (genPrototype proto s >>= _) = _
        rw [genPrototype_unset hunset]
        have hlater : item ∈ (second :: rest).dropLast := by
          rcases List.mem_cons.mp hitem with rfl | hlater
          · cases hdef
          · exact hlater
        exact ih (fun f hf => hcompile f (List.mem_cons_of_mem _ hf)) hlater hgen

/-! ## Whole modules -/

theorem wellBuilt_prototypes {items : List (Item D)} (h : ∀ item ∈ items, item.isFunction = false) :
    ∃ final, WellBuilt ops items final := by
  have hstart : ({} : ModuleState D).Lists [] := ⟨rfl, .nil⟩
  obtain ⟨final, hrun, hlists, _⟩ := genItems_prototypes ops h hstart rfl
  refine ⟨final, hrun, ?_, ?_, ?_⟩
  · rw [hlists.topLevelOps]
    exact hlists.funcs
  · rw [hlists.topLevel]
    exact List.nodup_range
  · intro before f after s s' heq _ _
    have hmem : Item.function f ∈ items := by simp [heq]
    cases h _ hmem

/-- The last definition of a module in which everything else is a prototype. -/
theorem wellBuilt_function {items : List (Item D)} (h : ∀ item ∈ items, item.isFunction = false)
    {f : FunctionAST D} (hcompile : Compiles ops f) :
    ∃ final, WellBuilt ops (items ++ [.function f]) final := by
  have hstart : ({} : ModuleState D).Lists [] := ⟨rfl, .nil⟩
  obtain ⟨s, hrun, hlists, hgen⟩ := genItems_prototypes ops h hstart rfl
  obtain ⟨gen, hfun, hnested⟩ := genFunction_compiles hcompile hgen
  have hfinal : ModuleState.Lists { s.started f with gen } (items ++ [.function f]) :=
    hlists.snoc ⟨rfl, rfl, rfl, rfl⟩ gen
  refine ⟨{ s.started f with gen }, ?_, ?_, ?_, ?_⟩
  · rw [genItems_append, hrun]
    show (genFunction ops f s >>= _) = _
    rw [hfun]
    rfl
  · rw [hfinal.topLevelOps]
    exact hfinal.funcs
  · rw [hfinal.topLevel]
    exact List.nodup_range
  · intro before g after s₁ s₁' heq hbefore hg
    obtain ⟨rfl, hlast⟩ : before = items ∧ [Item.function f] = .function g :: after := by
      rcases List.eq_nil_or_concat after with rfl | ⟨front, last, rfl⟩
      · obtain ⟨hfront, hlast⟩ := List.append_inj' heq rfl
        exact ⟨hfront.symm, hlast⟩
      · have hmem : Item.function g ∈ items := by
          rw [List.concat_eq_append, ← List.cons_append, ← List.append_assoc] at heq
          rw [(List.append_inj' heq rfl).1]
          simp
        cases h _ hmem
    cases hlast
    rw [hrun] at hbefore
    cases hbefore
    rw [hfun] at hg
    cases hg
    have hlength : s.funcs.length = before.length := hlists.funcs.length_eq
    refine ⟨s.funcs.length, s.gen.builder.nextBlock, ?_, ?_, ?_⟩
    · rw [hfinal.topLevel, ← hlength]
      show (List.range (s.funcs ++ [_]).length)[s.funcs.length]? = _
      simp
    · show ((s.funcs ++ [_])[s.funcs.length]?).bind _ = _
      simp
    · intro k hne
      rw [hgen] at hne ⊢
      refine ⟨(hnested _).changed k hne, fun func entry hother hentry => ?_⟩
      have hnone : ModuleState.entryOf { s.started f with gen } func = none :=
        hlists.entryOf_other h hother
      cases hnone.symm.trans hentry

/-- Berlin builds the module as it should exactly when no definition is followed by
another item. -/
theorem wellBuilt_iff_definition_last {items : List (Item D)}
    (hcompile : ∀ f, .function f ∈ items → Compiles ops f) :
    (∃ final, WellBuilt ops items final) ↔ ∀ item ∈ items.dropLast, item.isFunction = false := by
  constructor
  · intro ⟨final, hbuilt⟩ item hitem
    cases hdef : item.isFunction with
    | false => rfl
    | true =>
      have hrun := hbuilt.built
      rw [genItems_crash hcompile hitem hdef rfl] at hrun
      cases hrun
  · intro h
    rcases List.eq_nil_or_concat items with rfl | ⟨front, last, rfl⟩
    · exact wellBuilt_prototypes (by simp)
    rw [List.concat_eq_append] at hcompile h ⊢
    rw [List.dropLast_concat] at h
    cases last with
    | function f => exact wellBuilt_function h (hcompile f (by simp))
    | prototype proto =>
      apply wellBuilt_prototypes
      intro item hitem
      rcases List.mem_append.mp hitem with hitem | hitem
      · exact h item hitem
      · cases List.mem_singleton.mp hitem
        rfl

theorem compiles_of_topLevel {f : FunctionAST D}
    (h : (genFunction ops f {}).toOption.map (·.topLevel) = some [0]) : Compiles ops f := by
  cases hrun : genFunction ops f {} with
  | ok s =>
    rw [hrun] at h
    exact ⟨s, hrun, Option.some.inj h⟩
  | error why =>
    rw [hrun] at h
    cases h

/-- `extern printd(x)` and `def f(x) printd(x)`. -/
def externThenDef : List (Item Int) :=
  [.prototype ⟨text "printd", [text "x"], false, 0⟩,
    .function ⟨⟨text "f", [text "x"], false, 0⟩,
      .callExpr (text "printd") [.variableExpr (text "x")]⟩]

theorem wellBuilt_externThenDef : ∃ final, WellBuilt wholeOps externThenDef final := by
  apply (wellBuilt_iff_definition_last _).mpr
  · decide
  · intro f hf
    obtain rfl : f = ⟨⟨text "f", [text "x"], false, 0⟩,
        .callExpr (text "printd") [.variableExpr (text "x")]⟩ := by
      simpa [externThenDef] using hf
    exact compiles_of_topLevel (by decide +kernel)

/-- `def f() 1` and `def g() 2`. -/
def twoDefinitions : List (Item Int) :=
  [.function ⟨⟨text "f", [], false, 0⟩, .numberExpr 1⟩,
    .function ⟨⟨text "g", [], false, 0⟩, .numberExpr 2⟩]

/-- The second function is created inside the first one. -/
theorem not_wellBuilt_twoDefinitions :
    (∀ f, .function f ∈ twoDefinitions → Compiles wholeOps f) ∧
    genItems wholeOps twoDefinitions {} = .error .alreadyInBlock ∧
    ¬ ∃ final, WellBuilt wholeOps twoDefinitions final := by
  have hcrash : genItems wholeOps twoDefinitions {} = .error .alreadyInBlock := rfl
  refine ⟨?_, hcrash, ?_⟩
  · intro f hf
    have hcases : f = ⟨⟨text "f", [], false, 0⟩, .numberExpr 1⟩ ∨
        f = ⟨⟨text "g", [], false, 0⟩, .numberExpr 2⟩ := by
      simpa [twoDefinitions] using hf
    rcases hcases with rfl | rfl
    · exact compiles_of_topLevel (by decide +kernel)
    · exact compiles_of_topLevel (by decide +kernel)
  · intro ⟨final, hbuilt⟩
    cases hcrash.symm.trans hbuilt.built

end AroundTheWorld.Berlin
