import Mathlib.Data.List.Forall2
import AroundTheWorld.Base.Erasing
import AroundTheWorld.Cairo.Grown
import AroundTheWorld.Cairo.Isolation

/-!
# What Cairo leaves of the symbol table

`genVar` writes back what its names had meant, from the first binding on, and
`genFor` erases the name of its variable. `fate e x` is what becomes of the name
`x` when code has been generated for `e`.
-/

namespace AroundTheWorld.Cairo

open AroundTheWorld.Base AroundTheWorld.Base.Erasing AroundTheWorld.Lex AroundTheWorld.Llvm
open AroundTheWorld.Athens (ExprAST Name)

variable {D α β : Type}

/-- A built-in that reads a register generates no argument, the other ones generate
all but the number of the pointer. -/
def fateCall (callee : Name) (args : List (Name → Fate)) : Name → Fate :=
  if (findRegisterBuiltin callee).isSome then fun _ => .kept
  else if isBuiltinCall callee then fateOfAll (args.drop 1)
  else fateOfAll args

mutual

def fate : ExprAST D → Name → Fate
  | .null, _ => .kept
  | .numberExpr _, _ => .kept
  | .variableExpr _, _ => .kept
  | .unaryExpr _ operand, x => fate operand x
  | .binaryExpr op lhs rhs, x =>
    -- no code is generated for the left side of an assignment
    if op = byte '=' then fate rhs x else (fate lhs x).andThen (fate rhs x)
  | .callExpr callee args, x => fateCall callee (fateArgs args) x
  | .ifExpr cond then_ else_, x => (fate cond x).andThen ((fate then_ x).andThen (fate else_ x))
  | .forExpr varName start end_ step body, x =>
    (fate start x).andThen ((fate end_ x).andThen ((fate step x).andThen
      (if x = varName then .erased else fate body x)))
  | .varExpr varNames body, x => fateOfList (fateBindings varNames) (fate body) x

def fateArgs : List (ExprAST D) → List (Name → Fate)
  | [] => []
  | arg :: args => fate arg :: fateArgs args

def fateBindings : List (Name × ExprAST D) → List (Name × (Name → Fate))
  | [] => []
  | (name, init) :: rest => (name, fate init) :: fateBindings rest

end

theorem fateBindings_names (varNames : List (Name × ExprAST D)) :
    (fateBindings varNames).map (·.1) = varNames.map (·.1) := by
  induction varNames with
  | nil => rfl
  | cons b rest ih => rw [fateBindings, List.map_cons, List.map_cons, ih]

theorem fate_isNull {e : ExprAST D} (h : e.isNull = true) : fate e = fun _ => .kept := by
  rw [ExprAST.eq_null_of_isNull h]
  funext x
  rw [fate]

/-! ## Generators and the table -/

/-- A slot that the function under construction does not have yet. -/
def CairoState.Fresh (s : CairoState D) (cell : Owned) : Prop :=
  cell.function = s.builder.function ∧ s.builder.nextCell ≤ cell.index

structure CairoState.Left (s s' : CairoState D) (fates : Name → Fate) : Prop where
  function : s'.builder.function = s.builder.function
  cells : s.builder.nextCell ≤ s'.builder.nextCell
  table : Changed s.Fresh s.namedValues s'.namedValues fates

theorem CairoState.Left.fresh {s s' : CairoState D} {fates : Name → Fate} (h : s.Left s' fates)
    {cell : Owned} (hc : s'.Fresh cell) : s.Fresh cell :=
  ⟨hc.1.trans h.function, Nat.le_trans h.cells hc.2⟩

theorem CairoState.Left.refl (s : CairoState D) : s.Left s fun _ => .kept :=
  ⟨rfl, Nat.le_refl _, .refl _ _⟩

theorem CairoState.Left.trans {s s' s'' : CairoState D} {f g : Name → Fate} (h : s.Left s' f)
    (h' : s'.Left s'' g) : s.Left s'' fun x => (f x).andThen (g x) where
  function := h'.function.trans h.function
  cells := Nat.le_trans h.cells h'.cells
  table := h.table.trans fun x => (h'.table x).mono fun _ hc => h.fresh hc

/-- What a successful generation has done to `namedValues_`. -/
def Leaves (x : CairoGen D α) (fates : Name → Fate) : Prop :=
  ∀ s a s', x s = .ok a s' → s.Left s' fates

/-- Generators that leave the table alone. -/
abbrev Quiet (x : CairoGen D α) : Prop := Leaves x fun _ => .kept

namespace Leaves

theorem congr {x : CairoGen D α} {f g : Name → Fate} (h : Leaves x f) (heq : ∀ n, g n = f n) :
    Leaves x g := by
  rw [show g = f from funext heq]
  exact h

theorem bind {x : CairoGen D α} {k : α → CairoGen D β} {f g : Name → Fate} (hx : Leaves x f)
    (hk : ∀ a, Leaves (k a) g) : Leaves (x >>= k) fun n => (f n).andThen (g n) := by
  intro s b s'' h
  obtain ⟨a, s', hxa, hka⟩ := Gen.bind_ok h
  exact (hx s a s' hxa).trans (hk a s' b s'' hka)

theorem after {x : CairoGen D α} {k : α → CairoGen D β} {f : Name → Fate} (hx : Quiet x)
    (hk : ∀ a, Leaves (k a) f) : Leaves (x >>= k) f :=
  (hx.bind hk).congr fun n => (Fate.kept_andThen (f n)).symm

theorem before {x : CairoGen D α} {k : α → CairoGen D β} {f : Name → Fate} (hx : Leaves x f)
    (hk : ∀ a, Quiet (k a)) : Leaves (x >>= k) f :=
  hx.bind hk

theorem failed {x : CairoGen D α} {f : Name → Fate} (hx : ∀ s, (x s).state? = none) :
    Leaves x f := by
  intro s a s' h
  have hnone := hx s
  rw [h] at hnone
  cases hnone

/-- A pointer that is tested later: without it nothing is returned. -/
theorem attempt_bind {x : CairoGen D α} {k : Option α → CairoGen D β} {f g : Name → Fate}
    (hx : Leaves x f) (hnone : ∀ s, (k none s).state? = none) (hk : ∀ a, Leaves (k (some a)) g) :
    Leaves (Gen.attempt x >>= k) fun n => (f n).andThen (g n) := by
  intro s b s'' h
  obtain ⟨a, s', hxa, hka⟩ := Gen.bind_ok h
  cases a with
  | none =>
    have hfailed := hnone s'
    rw [hka] at hfailed
    cases hfailed
  | some a => exact (hx s a s' (Gen.attempt_some hxa)).trans (hk a s' b s'' hka)

end Leaves

/-! ## Generators that leave the table alone -/

theorem quiet_pure (a : α) : Quiet (pure a : CairoGen D α) := by
  intro s b s' h
  cases h
  exact .refl _

theorem quiet_complain (line : Text) : Quiet (complain line : CairoGen D α) :=
  .failed fun _ => rfl

/-- A change of the function alone that adds slots at most. -/
def AddsCells (f : Builder D → Builder D) : Prop :=
  ∀ b, (f b).function = b.function ∧ b.nextCell ≤ (f b).nextCell

theorem quiet_build {f : Builder D → α × Builder D} (hf : AddsCells fun b => (f b).2) :
    Quiet (build f) := by
  intro s a s' h
  cases h
  exact ⟨(hf s.builder).1, (hf s.builder).2, .refl _ _⟩

theorem quiet_buildUnit {f : Builder D → Builder D} (hf : AddsCells f) : Quiet (buildUnit f) := by
  intro s a s' h
  cases h
  exact ⟨(hf s.builder).1, (hf s.builder).2, .refl _ _⟩

theorem quiet_emit (i : Instr D) : Quiet (emit i) :=
  quiet_buildUnit fun _ => ⟨rfl, Nat.le_refl _⟩

theorem quiet_emitReg (i : Nat → Instr D) : Quiet (emitReg i) :=
  quiet_build fun _ => ⟨rfl, Nat.le_refl _⟩

theorem quiet_createBlock : Quiet (build (·.createBlock) : CairoGen D Nat) :=
  quiet_build fun _ => ⟨rfl, Nat.le_refl _⟩

theorem quiet_setInsertPoint (l : Nat) : Quiet (buildUnit (·.setInsertPoint l) : CairoGen D Unit) :=
  quiet_buildUnit fun _ => ⟨rfl, Nat.le_refl _⟩

theorem quiet_same {x : CairoGen D α} (hx : ∀ s a s', x s = .ok a s' →
    s'.builder = s.builder ∧ s'.namedValues = s.namedValues) : Quiet x := by
  intro s a s' h
  obtain ⟨hbuilder, hnames⟩ := hx s a s' h
  refine ⟨by rw [hbuilder], Nat.le_of_eq (by rw [hbuilder]), ?_⟩
  rw [hnames]
  exact .refl _ _

theorem quiet_lookupName (name : Name) : Quiet (lookupName name : CairoGen D _) :=
  quiet_same fun _ _ _ h => by cases h; exact ⟨rfl, rfl⟩

theorem quiet_lookupParam (index : Nat) : Quiet (lookupParam index : CairoGen D _) :=
  quiet_same fun _ _ _ h => by cases h; exact ⟨rfl, rfl⟩

theorem quiet_lookupFunction (name : Name) : Quiet (lookupFunction name : CairoGen D _) :=
  quiet_same fun _ _ _ h => by cases h; exact ⟨rfl, rfl⟩

theorem quiet_getOrDeclareIntrinsic (name : Text) :
    Quiet (getOrDeclareIntrinsic name : CairoGen D _) :=
  quiet_same fun _ _ _ h => by cases h; exact ⟨rfl, rfl⟩

theorem quiet_getInsertBlock : Quiet (getInsertBlock : CairoGen D Nat) :=
  quiet_same fun _ _ _ h => by cases h; exact ⟨rfl, rfl⟩

theorem createFBin_addsCells (ops : IntOps D) (op : FBinOp) (lhs rhs : Operand D) :
    AddsCells fun b : Builder D => (b.createFBin ops op lhs rhs).2 := by
  intro b
  unfold Builder.createFBin
  split <;> exact ⟨rfl, Nat.le_refl _⟩

theorem createFCmp_addsCells (ops : IntOps D) (pred : FCmpPred) (lhs rhs : Operand D) :
    AddsCells fun b : Builder D => (b.createFCmp ops pred lhs rhs).2 := by
  intro b
  unfold Builder.createFCmp
  split <;> exact ⟨rfl, Nat.le_refl _⟩

theorem createUIToFP_addsCells (ops : IntOps D) (flag : Flag) :
    AddsCells fun b : Builder D => (b.createUIToFP ops flag).2 := by
  intro b
  unfold Builder.createUIToFP
  split <;> exact ⟨rfl, Nat.le_refl _⟩

theorem createFPToSI_addsCells (ops : IntOps D) (src : Operand D) :
    AddsCells fun b : Builder D => (b.createFPToSI ops src).2 := by
  intro b
  unfold Builder.createFPToSI
  split <;> exact ⟨rfl, Nat.le_refl _⟩

/-! ## Calls and operators -/

section
variable {ops : IntOps D}

theorem quiet_genRegisterBuiltin (intrinsic : Text) :
    Quiet (genRegisterBuiltin intrinsic : CairoGen D (Operand D)) := by
  apply Leaves.after (quiet_getOrDeclareIntrinsic intrinsic)
  intro _
  apply Leaves.after (quiet_emitReg _)
  intro val
  apply Leaves.after (quiet_emitReg _)
  intro reg
  exact quiet_pure _

theorem quiet_genElement (name : Name) (ptrIdx : Nat) (elemI64 : IntOperand) :
    Quiet (genElement name ptrIdx elemI64 : CairoGen D Nat) := by
  apply Leaves.after (quiet_lookupParam ptrIdx)
  intro param
  cases param with
  | none => exact quiet_complain _
  | some param => exact quiet_emitReg _

theorem genLoad_leaves {args : List (ExprAST D)} {gens : List (CairoGen D (Operand D))}
    {fates : List (Name → Fate)} (h : List.Forall₂ Leaves gens fates) :
    Leaves (genLoad ops args gens) (fateOfAll (fates.drop 1)) := by
  unfold genLoad
  split
  · rename_i ptrArg _ _ elem
    obtain - | ⟨-, - | ⟨helem, - | -⟩⟩ := h
    split
    · exact .failed fun _ => rfl
    · apply Leaves.before helem
      intro elemIdx
      apply Leaves.after (quiet_build (createFPToSI_addsCells ops elemIdx))
      intro elemI64
      apply Leaves.after (quiet_genElement _ _ _)
      intro ptr
      apply Leaves.after (quiet_emitReg _)
      intro reg
      exact quiet_pure _
  · exact .failed fun _ => rfl

theorem genStore_leaves {args : List (ExprAST D)} {gens : List (CairoGen D (Operand D))}
    {fates : List (Name → Fate)} (h : List.Forall₂ Leaves gens fates) :
    Leaves (genStore ops args gens) (fateOfAll (fates.drop 1)) := by
  unfold genStore
  split
  · rename_i ptrArg _ _ _ elem val
    obtain - | ⟨-, - | ⟨helem, - | ⟨hval, - | -⟩⟩⟩ := h
    split
    · exact .failed fun _ => rfl
    · apply Leaves.bind helem
      intro elemIdx
      apply Leaves.after (quiet_build (createFPToSI_addsCells ops elemIdx))
      intro elemI64
      apply Leaves.before hval
      intro val
      apply Leaves.after (quiet_genElement _ _ _)
      intro ptr
      apply Leaves.after (quiet_emit _)
      intro _
      exact quiet_pure _
  · exact .failed fun _ => rfl

theorem genAll_leaves {gens : List (CairoGen D (Operand D))} {fates : List (Name → Fate)}
    (h : List.Forall₂ Leaves gens fates) : Leaves (genAll gens) (fateOfAll fates) := by
  induction h with
  | nil => exact quiet_pure _
  | cons hg _ ih =>
    apply Leaves.bind hg
    intro argVal
    apply Leaves.before ih
    intro argVals
    exact quiet_pure _

theorem genCall_leaves {callee : Name} {args : List (ExprAST D)}
    {gens : List (CairoGen D (Operand D))} {fates : List (Name → Fate)}
    (h : List.Forall₂ Leaves gens fates) :
    Leaves (genCall ops callee args gens) (fateCall callee fates) := by
  unfold genCall fateCall
  by_cases hbuiltin : isBuiltinCall callee = true
  · rw [if_pos hbuiltin, if_pos hbuiltin]
    unfold genBuiltinCall
    cases hregister : findRegisterBuiltin callee with
    | some intrinsic => exact quiet_genRegisterBuiltin intrinsic
    | none =>
      dsimp only [Option.isSome_none]
      rw [if_neg Bool.false_ne_true]
      split
      · exact genLoad_leaves h
      split
      · exact genStore_leaves h
      · exact .failed fun _ => rfl
  · have hregister : ¬ (findRegisterBuiltin callee).isSome = true := by
      intro hsome
      exact hbuiltin (by simp [isBuiltinCall, hsome])
    rw [if_neg hbuiltin, if_neg hbuiltin, if_neg hregister]
    apply Leaves.after (quiet_lookupFunction callee)
    intro signature
    cases signature with
    | none => exact .failed fun _ => rfl
    | some signature =>
      apply Leaves.before (genAll_leaves h)
      intro argVals
      unfold createCall
      split
      · apply Leaves.after (quiet_emitReg _)
        intro reg
        exact quiet_pure _
      · exact .failed fun _ => rfl

theorem genAssignment_leaves {lhs : ExprAST D} {rhs : CairoGen D (Operand D)} {f : Name → Fate}
    (hrhs : Leaves rhs f) : Leaves (genAssignment lhs rhs) f := by
  unfold genAssignment
  split
  · exact .failed fun _ => rfl
  · apply Leaves.before hrhs
    intro val
    apply Leaves.after (quiet_lookupName _)
    intro it
    cases it with
    | none => exact quiet_complain _
    | some cell =>
      apply Leaves.after (quiet_emit _)
      intro _
      exact quiet_pure _
  · exact .failed fun _ => rfl

theorem quiet_binaryOp (op : Byte) (lhs rhs : Operand D) : Quiet (binaryOp ops op lhs rhs) := by
  unfold binaryOp
  split
  · exact quiet_build (createFBin_addsCells ops _ lhs rhs)
  split
  · exact quiet_build (createFBin_addsCells ops _ lhs rhs)
  split
  · exact quiet_build (createFBin_addsCells ops _ lhs rhs)
  split
  · apply Leaves.after (quiet_build (createFCmp_addsCells ops _ lhs rhs))
    intro cmp
    exact quiet_build (createUIToFP_addsCells ops cmp)
  · exact quiet_complain _

theorem genUnary_leaves (op : Byte) {operand : CairoGen D (Operand D)} {f : Name → Fate}
    (h : Leaves operand f) : Leaves (genUnary ops op operand) f := by
  unfold genUnary
  split
  · apply Leaves.before h
    intro operand
    exact quiet_build (createFBin_addsCells ops _ _ operand)
  · exact .failed fun _ => rfl

/-! ## Scopes -/

theorem preheader_cell (start end_ step : Operand D) (s : CairoState D) :
    s.Fresh (preheader ops start end_ step s.builder).cell :=
  ⟨rfl, Nat.le_refl _⟩

theorem preheader_addsCells (start end_ step : Operand D) :
    AddsCells fun b : Builder D => (preheader ops start end_ step b).enter := by
  intro b
  have hstart := createFPToSI_addsCells ops start
    (b.createAlloca.2.emit (.store start b.createAlloca.1))
  have hend := createFPToSI_addsCells ops end_
    ((b.createAlloca.2.emit (.store start b.createAlloca.1)).createFPToSI ops start).2
  have hstep := createFPToSI_addsCells ops step
    (((b.createAlloca.2.emit (.store start b.createAlloca.1)).createFPToSI ops start).2.createFPToSI
      ops end_).2
  have hcell : b.nextCell ≤ (b.createAlloca.2.emit (.store start b.createAlloca.1)).nextCell :=
    Nat.le_succ _
  exact ⟨hstep.1.trans (hend.1.trans hstart.1),
    Nat.le_trans hcell (Nat.le_trans hstart.2 (Nat.le_trans hend.2 hstep.2))⟩

/-- The loop erases its variable, whatever the name had meant. -/
theorem genLoop_leaves {varName : Name} {start end_ step : Operand D}
    {body : CairoGen D (Operand D)} {f : Name → Fate} (hbody : Leaves body f) :
    Leaves (genLoop ops varName start end_ step body)
      fun x => if x = varName then .erased else f x := by
  intro s v s' h
  obtain ⟨head, s₁, hhead, h⟩ := Gen.bind_ok h
  rw [genLoopHead_run] at hhead
  cases hhead
  obtain ⟨bodyVal, s₂, hrun, h⟩ := Gen.bind_ok h
  rw [Gen.bind_of_ok (genLoopLatch_run _ s₂)] at h
  cases h
  have hadds : AddsCells fun b : Builder D => (preheader ops start end_ step b).enter :=
    preheader_addsCells start end_ step
  obtain ⟨hfunction, hcells⟩ := hadds s.builder
  have hinner := hbody _ _ _ hrun
  have hnew : s.Fresh (preheader ops start end_ step s.builder).cell :=
    preheader_cell start end_ step s
  refine ⟨hinner.function.trans hfunction, Nat.le_trans hcells hinner.cells, ?_⟩
  have htable : Changed s.Fresh (set s.namedValues varName
      (some (preheader ops start end_ step s.builder).cell)) s₂.namedValues f := by
    intro x
    refine (hinner.table x).mono fun cell hc => ?_
    exact ⟨hc.1.trans hfunction, Nat.le_trans hcells hc.2⟩
  exact htable.erase

theorem genOr_leaves {e : ExprAST D} {default : CairoGen D (Operand D)} (hdefault : Quiet default)
    (he : Leaves (gen ops e) (fate e)) :
    Leaves (if e.isNull then default else gen ops e) (fate e) := by
  split
  · rename_i hnull
    rw [fate_isNull hnull]
    exact hdefault
  · exact he

theorem genArgs_leave {args : List (ExprAST D)} (h : ∀ a ∈ args, Leaves (gen ops a) (fate a)) :
    List.Forall₂ Leaves (genArgs ops args) (fateArgs args) := by
  induction args with
  | nil => exact .nil
  | cons arg args ih =>
    exact .cons (h arg (List.mem_cons_self ..)) (ih fun a ha => h a (List.mem_cons_of_mem _ ha))

theorem restoreNames_eq (olds : List (Name × Option Owned)) (s : CairoState D) :
    restoreNames olds s = .ok () { s with namedValues := restore olds s.namedValues } := by
  induction olds generalizing s with
  | nil => rfl
  | cons b olds ih => exact ih _

/-- Behind the bindings of a list and a body, what is written back has met the fates of
the list. -/
theorem genBindings_leaves {varNames : List (Name × ExprAST D)}
    (hinits : ∀ b ∈ varNames, Leaves (gen ops b.2) (fate b.2)) {body : Name → Fate}
    {s s' s'' : CairoState D} {olds : List (Name × Option Owned)}
    (h : genBindings ops varNames s = .ok olds s') (hbody : s'.Left s'' body) :
    olds.map (·.1) = varNames.map (·.1) ∧
      s.Left { s'' with namedValues := restore olds s''.namedValues }
        (fateOfList (fateBindings varNames) body) := by
  induction varNames generalizing s olds with
  | nil =>
    cases h
    exact ⟨rfl, hbody⟩
  | cons b rest ih =>
    obtain ⟨name, init⟩ := b
    rw [genBindings_cons] at h
    obtain ⟨val, s₁, hinit, h⟩ := Gen.bind_ok h
    obtain ⟨olds, s₂, hrest, h⟩ := Gen.bind_ok h
    cases h
    have hfirst :=
      genOr_leaves (quiet_pure _) (hinits (name, init) (List.mem_cons_self ..)) _ _ _ hinit
    obtain ⟨hnames, hleft⟩ := ih (fun b hb => hinits b (List.mem_cons_of_mem _ hb)) hrest
    have hcell : s₁.Fresh s₁.builder.createAlloca.1 := ⟨rfl, Nat.le_refl _⟩
    have hcells : s₁.builder.nextCell + 1 ≤ s''.builder.nextCell := hleft.cells
    refine ⟨by rw [List.map_cons, List.map_cons, hnames], hleft.function.trans hfirst.function,
      Nat.le_trans hfirst.cells (Nat.le_trans (Nat.le_succ _) hcells), ?_⟩
    have htable : Changed s.Fresh (set s₁.namedValues name (some s₁.builder.createAlloca.1))
        (restore olds s''.namedValues) (fateOfList (fateBindings rest) body) := by
      intro x
      refine (hleft.table x).mono fun cell hc => hfirst.fresh ⟨hc.1, ?_⟩
      exact Nat.le_trans (Nat.le_succ _) hc.2
    have hall := hfirst.table.bind_cons (hfirst.fresh hcell) htable
    intro x
    have hx := hall x
    rw [hnames, ← fateBindings_names] at hx
    exact hx

theorem gen_leaves (e : ExprAST D) : Leaves (gen ops e) (fate e) := by
  induction e using ExprAST.induction with
  | null =>
    rw [gen]
    exact .failed fun _ => rfl
  | numberExpr val =>
    rw [gen]
    exact (quiet_pure _).congr fun x => by rw [fate]
  | variableExpr name =>
    rw [gen]
    apply Leaves.congr (f := fun _ => .kept) _ fun x => by rw [fate]
    apply Leaves.after (quiet_lookupName _)
    intro it
    cases it with
    | none => exact quiet_complain _
    | some cell => exact quiet_build fun _ => ⟨rfl, Nat.le_refl _⟩
  | unaryExpr op operand ih =>
    rw [gen]
    exact (genUnary_leaves op ih).congr fun x => by rw [fate]
  | binaryExpr op lhs rhs ihl ihr =>
    rw [gen]
    by_cases hop : op = byte '='
    · rw [if_pos hop]
      exact (genAssignment_leaves ihr).congr fun x => by rw [fate, if_pos hop]
    · rw [if_neg hop]
      refine Leaves.congr (f := fun x => (fate lhs x).andThen (fate rhs x)) ?_
        fun x => by rw [fate, if_neg hop]
      apply Leaves.attempt_bind ihl
      · exact fun s => Gen.bind_never (fun _ _ => rfl)
      · intro l
        apply Leaves.attempt_bind (g := fun _ => .kept) ihr
        · exact fun _ => rfl
        · exact fun r => quiet_binaryOp op l r
  | callExpr callee args ih =>
    rw [gen]
    exact (genCall_leaves (genArgs_leave ih)).congr fun x => by rw [fate]
  | ifExpr cond then_ else_ ihc iht ihe =>
    rw [gen]
    refine Leaves.congr (f := fun x => (fate cond x).andThen
      ((fate then_ x).andThen (fate else_ x))) ?_ fun x => by rw [fate]
    apply Leaves.bind ihc
    intro cond
    apply Leaves.after (quiet_build (createFCmp_addsCells ops _ cond _))
    intro condCmp
    apply Leaves.after quiet_createBlock
    intro thenBB
    apply Leaves.after quiet_createBlock
    intro elseBB
    apply Leaves.after quiet_createBlock
    intro mergeBB
    apply Leaves.after (quiet_emit _)
    intro _
    apply Leaves.after (quiet_setInsertPoint _)
    intro _
    apply Leaves.bind iht
    intro thenVal
    apply Leaves.after (quiet_emit _)
    intro _
    apply Leaves.after quiet_getInsertBlock
    intro thenEnd
    apply Leaves.after (quiet_setInsertPoint _)
    intro _
    apply Leaves.before ihe
    intro elseVal
    apply Leaves.after (quiet_emit _)
    intro _
    apply Leaves.after quiet_getInsertBlock
    intro elseEnd
    apply Leaves.after (quiet_setInsertPoint _)
    intro _
    apply Leaves.after (quiet_emitReg _)
    intro reg
    exact quiet_pure _
  | forExpr varName start end_ step body ihs ihe ihst ihb =>
    rw [gen]
    refine Leaves.congr (f := fun x => (fate start x).andThen ((fate end_ x).andThen
      ((fate step x).andThen (if x = varName then .erased else fate body x)))) ?_
      fun x => by rw [fate]
    apply Leaves.attempt_bind ihs
    · exact fun s => Gen.bind_never (fun _ _ => rfl)
    · intro start
      apply Leaves.attempt_bind ihe
      · exact fun _ => rfl
      · intro end_
        apply Leaves.bind (genOr_leaves (quiet_pure _) ihst)
        intro step
        exact genLoop_leaves ihb
  | varExpr varNames body ihs ihb =>
    intro s v s' h
    rw [gen] at h
    obtain ⟨olds, s₁, hbindings, h⟩ := Gen.bind_ok h
    obtain ⟨bodyVal, s₂, hattempt, h⟩ := Gen.bind_ok h
    obtain ⟨_, s₃, hrestore, h⟩ := Gen.bind_ok h
    rw [restoreNames_eq] at hrestore
    cases hrestore
    cases bodyVal with
    | none => cases h
    | some v =>
      cases h
      have hleft := (genBindings_leaves ihs hbindings (ihb _ _ _ (Gen.attempt_some hattempt))).2
      rw [show fate (.varExpr varNames body) = fateOfList (fateBindings varNames) (fate body) by
        funext x; rw [fate]]
      exact hleft

end

/-! ## Scopes that end -/

/-- The slots in the table are in the function already, or in another one. -/
def CairoState.Allocated (s : CairoState D) : Prop :=
  ∀ x cell, s.namedValues x = some cell → ¬ s.Fresh cell

/-- The table is what it was exactly when no name is left with a slot of the expression
and no loop has erased a name that was bound. -/
theorem scope_restored_iff (ops : IntOps D) (e : ExprAST D) {s s' : CairoState D} {v : Operand D}
    (hs : s.Allocated) (h : gen ops e s = .ok v s') :
    s'.namedValues = s.namedValues ↔ ∀ x, (fate e x).Restores (s.namedValues x) :=
  (gen_leaves e s v s' h).table.eq_iff hs

/-- In the scope of a parameter `x`. -/
def parameterX : CairoState Int :=
  { builder := { function := 0, nextCell := 1 }
    namedValues := fun name => if name = [byte 'x'] then some ⟨0, 0⟩ else none }

theorem parameterX_allocated : parameterX.Allocated := by
  intro x cell h hfresh
  simp only [parameterX] at h
  split at h
  · cases h
    exact absurd hfresh.2 (by decide)
  · cases h

/-- `var x = 1 in for y = 0, 3, 1 in x`: the binding is written back, and the loop
erases a name that means nothing outside. -/
def shadowing : ExprAST Int :=
  .varExpr [([byte 'x'], .numberExpr 1)]
    (.forExpr [byte 'y'] (.numberExpr 0) (.numberExpr 3) (.numberExpr 1) (.variableExpr [byte 'x']))

theorem scope_restored_shadowing :
    ∃ v s', gen wholeIntOps shadowing parameterX = .ok v s' ∧
      s'.namedValues = parameterX.namedValues := by
  have hfates : ∀ x, (fate shadowing x).Restores (parameterX.namedValues x) := by
    intro x
    by_cases hx : x = [byte 'x']
    · subst hx
      exact .inl (by decide)
    · by_cases hy : x = [byte 'y']
      · subst hy
        exact .inr (by decide)
      · refine .inl ?_
        simp [shadowing, fate, fateOfList, fateBindings, hx, hy]
  obtain ⟨v, s', hgen⟩ : ∃ v s', gen wholeIntOps shadowing parameterX = .ok v s' :=
    Outcome.ok_of_isSome (by decide +kernel)
  exact ⟨v, s', hgen,
    (scope_restored_iff wholeIntOps shadowing parameterX_allocated hgen).mpr hfates⟩

/-- `for x = 0, 3, 1 in 0` erases the parameter, `var x = 1, x = 2 in 0` leaves it with
the slot of the first binding. -/
theorem scope_not_restored :
    parameterX.Allocated ∧ parameterX.namedValues [byte 'x'] = some ⟨0, 0⟩ ∧
    (∃ v s', gen wholeIntOps (.forExpr [byte 'x'] (.numberExpr 0) (.numberExpr 3) (.numberExpr 1)
      (.numberExpr 0)) parameterX = .ok v s' ∧ s'.namedValues [byte 'x'] = none) ∧
    (∃ v s', gen wholeIntOps (.varExpr [([byte 'x'], .numberExpr 1), ([byte 'x'], .numberExpr 2)]
      (.numberExpr 0)) parameterX = .ok v s' ∧ s'.namedValues [byte 'x'] = some ⟨0, 1⟩) := by
  refine ⟨parameterX_allocated, by decide, ?_, ?_⟩
  · exact Outcome.ok_of_state (f := fun s : CairoState Int => s.namedValues [byte 'x'])
      (by decide +kernel)
  · exact Outcome.ok_of_state (f := fun s : CairoState Int => s.namedValues [byte 'x'])
      (by decide +kernel)

end AroundTheWorld.Cairo
