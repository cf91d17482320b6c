import AroundTheWorld.Llvm.Ir

/-!
# The IR builder

The part of `IRBuilder` that appends to a function under construction: it keeps
an insertion block, hands out labels, registers and stack slots, and folds
operations on constants. What is emitted is only ever appended to, so code that
was run once keeps its meaning while the function grows.
-/

namespace AroundTheWorld.Llvm

open AroundTheWorld.Base

/-- A function under construction. `layout` lists the blocks that have been
inserted into it, the entry block first. `allocas` lists the slots, each with the
block it was allocated in: they stand before the code of that block. -/
structure Builder (D F : Type) where
  code : Code D F
  insertBlock : Nat
  nextLabel : Nat
  nextReg : Nat
  nextCell : Nat
  layout : List Nat
  allocas : List (Nat × Nat)

namespace Builder

variable {D F W : Type}

/-- A new function whose entry block is empty. -/
def entry : Builder D F := ⟨fun _ => [], 0, 1, 0, 0, [0], []⟩

def emit (b : Builder D F) (i : Instr D F) : Builder D F :=
  { b with code := fun l => if l = b.insertBlock then b.code l ++ [i] else b.code l }

def bumpReg (b : Builder D F) : Builder D F := { b with nextReg := b.nextReg + 1 }

def setInsertPoint (b : Builder D F) (l : Nat) : Builder D F := { b with insertBlock := l }

/-- `BasicBlock::Create` without a function. -/
def createBlock (b : Builder D F) : Nat × Builder D F :=
  (b.nextLabel, { b with nextLabel := b.nextLabel + 1 })

/-- `TheFunction->insert(TheFunction->end(), BB)`. -/
def appendBlock (b : Builder D F) (l : Nat) : Builder D F := { b with layout := b.layout ++ [l] }

/-- `BasicBlock::Create` at the end of the function. -/
def createBlockIn (b : Builder D F) : Nat × Builder D F :=
  (b.nextLabel, b.createBlock.2.appendBlock b.nextLabel)

/-- `getEntryBlock`: the first block of the function. -/
def entryBlock (b : Builder D F) : Nat := b.layout.headD b.insertBlock

/-- An `alloca` in front of everything in the entry block. -/
def createAlloca (b : Builder D F) : Nat × Builder D F :=
  (b.nextCell,
    { b with nextCell := b.nextCell + 1, allocas := (b.entryBlock, b.nextCell) :: b.allocas })

def createLoad (b : Builder D F) (cell : Nat) : Operand D × Builder D F :=
  (.reg b.nextReg, (b.emit (.load b.nextReg cell)).bumpReg)

def createStore (b : Builder D F) (val : Operand D) (cell : Nat) : Builder D F :=
  b.emit (.store val cell)

def createFBin (ops : FloatOps D) (op : FBinOp) (b : Builder D F) :
    Operand D → Operand D → Operand D × Builder D F
  | .const x, .const y => (.const (ops.fbin op x y), b)
  | lhs, rhs => (.reg b.nextReg, (b.emit (.fbin op b.nextReg lhs rhs)).bumpReg)

def createFCmp (ops : FloatOps D) (pred : FCmpPred) (b : Builder D F) :
    Operand D → Operand D → Flag × Builder D F
  | .const x, .const y => (.const (ops.fcmp pred x y), b)
  | lhs, rhs => (.reg b.nextReg, (b.emit (.fcmp pred b.nextReg lhs rhs)).bumpReg)

def createUIToFP (ops : FloatOps D) (b : Builder D F) : Flag → Operand D × Builder D F
  | .const x => (.const (ops.uitofp x), b)
  | flag => (.reg b.nextReg, (b.emit (.uitofp b.nextReg flag)).bumpReg)

def createCall (b : Builder D F) (callee : F) (args : List (Operand D)) :
    Operand D × Builder D F :=
  (.reg b.nextReg, (b.emit (.call b.nextReg callee args)).bumpReg)

def createBr (b : Builder D F) (target : Nat) : Builder D F := b.emit (.br target)

def createCondBr (b : Builder D F) (cond : Flag) (ifTrue ifFalse : Nat) : Builder D F :=
  b.emit (.condBr cond ifTrue ifFalse)

/-- `CreatePHI` and the `addIncoming` calls that follow it. -/
def createPhi (b : Builder D F) (incoming : List (Operand D × Nat)) : Operand D × Builder D F :=
  (.reg b.nextReg, (b.emit (.phi b.nextReg incoming)).bumpReg)

@[simp] theorem emit_nextCell (b : Builder D F) (i : Instr D F) :
    (b.emit i).nextCell = b.nextCell := rfl

@[simp] theorem createLoad_nextCell (b : Builder D F) (cell : Nat) :
    (b.createLoad cell).2.nextCell = b.nextCell := rfl

@[simp] theorem createStore_nextCell (b : Builder D F) (val : Operand D) (cell : Nat) :
    (b.createStore val cell).nextCell = b.nextCell := rfl

@[simp] theorem createCall_nextCell (b : Builder D F) (callee : F) (args : List (Operand D)) :
    (b.createCall callee args).2.nextCell = b.nextCell := rfl

@[simp] theorem createPhi_nextCell (b : Builder D F) (incoming : List (Operand D × Nat)) :
    (b.createPhi incoming).2.nextCell = b.nextCell := rfl

@[simp] theorem createBr_nextCell (b : Builder D F) (target : Nat) :
    (b.createBr target).nextCell = b.nextCell := rfl

@[simp] theorem createCondBr_nextCell (b : Builder D F) (cond : Flag) (ifTrue ifFalse : Nat) :
    (b.createCondBr cond ifTrue ifFalse).nextCell = b.nextCell := rfl

@[simp] theorem createBlock_nextCell (b : Builder D F) :
    b.createBlock.2.nextCell = b.nextCell := rfl

@[simp] theorem createBlockIn_nextCell (b : Builder D F) :
    b.createBlockIn.2.nextCell = b.nextCell := rfl

@[simp] theorem appendBlock_nextCell (b : Builder D F) (l : Nat) :
    (b.appendBlock l).nextCell = b.nextCell := rfl

@[simp] theorem setInsertPoint_nextCell (b : Builder D F) (l : Nat) :
    (b.setInsertPoint l).nextCell = b.nextCell := rfl

@[simp] theorem createAlloca_nextCell (b : Builder D F) :
    b.createAlloca.2.nextCell = b.nextCell + 1 := rfl

section
variable (ops : FloatOps D) (b : Builder D F)

theorem createFBin_cases (op : FBinOp) (l r : Operand D) :
    (∃ x y, l = .const x ∧ r = .const y ∧
      createFBin ops op b l r = (.const (ops.fbin op x y), b)) ∨
    createFBin ops op b l r = (.reg b.nextReg, (b.emit (.fbin op b.nextReg l r)).bumpReg) := by
  cases l with
  | reg _ => exact .inr rfl
  | const x =>
    cases r with
    | reg _ => exact .inr rfl
    | const y => exact .inl ⟨x, y, rfl, rfl, rfl⟩

theorem createFCmp_cases (pred : FCmpPred) (l r : Operand D) :
    (∃ x y, l = .const x ∧ r = .const y ∧
      createFCmp ops pred b l r = (.const (ops.fcmp pred x y), b)) ∨
    createFCmp ops pred b l r = (.reg b.nextReg, (b.emit (.fcmp pred b.nextReg l r)).bumpReg) := by
  cases l with
  | reg _ => exact .inr rfl
  | const x =>
    cases r with
    | reg _ => exact .inr rfl
    | const y => exact .inl ⟨x, y, rfl, rfl, rfl⟩

theorem createUIToFP_cases (flag : Flag) :
    (∃ x, flag = .const x ∧ createUIToFP ops b flag = (.const (ops.uitofp x), b)) ∨
    createUIToFP ops b flag = (.reg b.nextReg, (b.emit (.uitofp b.nextReg flag)).bumpReg) := by
  cases flag with
  | const x => exact .inl ⟨x, rfl, rfl⟩
  | reg _ => exact .inr rfl

end

@[simp] theorem createFBin_nextCell (ops : FloatOps D) (op : FBinOp) (b : Builder D F)
    (l r : Operand D) : (createFBin ops op b l r).2.nextCell = b.nextCell := by
  rcases createFBin_cases ops b op l r with ⟨_, _, _, _, h⟩ | h
  · rw [h]
  · rw [h]
    rfl

@[simp] theorem createFCmp_nextCell (ops : FloatOps D) (pred : FCmpPred) (b : Builder D F)
    (l r : Operand D) : (createFCmp ops pred b l r).2.nextCell = b.nextCell := by
  rcases createFCmp_cases ops b pred l r with ⟨_, _, _, _, h⟩ | h
  · rw [h]
  · rw [h]
    rfl

@[simp] theorem createUIToFP_nextCell (ops : FloatOps D) (b : Builder D F) (flag : Flag) :
    (createUIToFP ops b flag).2.nextCell = b.nextCell := by
  rcases createUIToFP_cases ops b flag with ⟨_, _, h⟩ | h
  · rw [h]
  · rw [h]
    rfl

/-! ## Growth -/

/-- Code is inserted into a block that exists; the others are still empty. -/
structure Wf (b : Builder D F) : Prop where
  insert_lt : b.insertBlock < b.nextLabel
  fresh : ∀ l, b.nextLabel ≤ l → b.code l = []

/-- From `b` to `b'`, code was appended to the insertion block and to new
blocks only, and the insertion point is one of these. -/
structure Grows (b b' : Builder D F) : Prop where
  prefix_ : ∀ l, b.code l <+: b'.code l
  others : ∀ l, l < b.nextLabel → l ≠ b.insertBlock → b'.code l = b.code l
  label_le : b.nextLabel ≤ b'.nextLabel
  reg_le : b.nextReg ≤ b'.nextReg
  cell_le : b.nextCell ≤ b'.nextCell
  insert : b'.insertBlock = b.insertBlock ∨ b.nextLabel ≤ b'.insertBlock

theorem Grows.refl (b : Builder D F) : Grows b b :=
  ⟨fun _ => List.prefix_rfl, fun _ _ _ => rfl, Nat.le_refl _, Nat.le_refl _, Nat.le_refl _,
    .inl rfl⟩

theorem Grows.trans {b b' b'' : Builder D F} (h : Grows b b') (h' : Grows b' b'') :
    Grows b b'' := by
  have hl := h.label_le
  have hl' := h'.label_le
  refine ⟨fun l => (h.prefix_ l).trans (h'.prefix_ l), ?_, Nat.le_trans hl hl',
    Nat.le_trans h.reg_le h'.reg_le, Nat.le_trans h.cell_le h'.cell_le, ?_⟩
  · intro l hlt hne
    have hne' : l ≠ b'.insertBlock := by
      rcases h.insert with heq | hge
      · rwa [heq]
      · omega
    rw [h'.others l (by omega) hne', h.others l hlt hne]
  · have := h.insert
    have := h'.insert
    omega

instance : Trans (Grows (D := D) (F := F)) Grows Grows := ⟨Grows.trans⟩

theorem Grows.emit (b : Builder D F) (i : Instr D F) : Grows b (b.emit i) := by
  refine ⟨?_, ?_, Nat.le_refl _, Nat.le_refl _, Nat.le_refl _, .inl rfl⟩
  · intro l
    unfold Builder.emit
    by_cases hl : l = b.insertBlock
    · simp [hl]
    · simp [hl]
  · intro l _ hne
    simp [Builder.emit, hne]

theorem Grows.bumpReg (b : Builder D F) : Grows b b.bumpReg :=
  ⟨fun _ => List.prefix_rfl, fun _ _ _ => rfl, Nat.le_refl _, Nat.le_succ _, Nat.le_refl _,
    .inl rfl⟩

theorem Grows.createBlock (b : Builder D F) : Grows b b.createBlock.2 :=
  ⟨fun _ => List.prefix_rfl, fun _ _ _ => rfl, Nat.le_succ _, Nat.le_refl _, Nat.le_refl _,
    .inl rfl⟩

theorem Grows.appendBlock (b : Builder D F) (l : Nat) : Grows b (b.appendBlock l) :=
  ⟨fun _ => List.prefix_rfl, fun _ _ _ => rfl, Nat.le_refl _, Nat.le_refl _, Nat.le_refl _,
    .inl rfl⟩

theorem Grows.createBlockIn (b : Builder D F) : Grows b b.createBlockIn.2 :=
  (Grows.createBlock b).trans (.appendBlock _ _)

theorem Grows.createAlloca (b : Builder D F) : Grows b b.createAlloca.2 :=
  ⟨fun _ => List.prefix_rfl, fun _ _ _ => rfl, Nat.le_refl _, Nat.le_refl _, Nat.le_succ _,
    .inl rfl⟩

/-- The insertion point may move to any block that is new since `b`. -/
theorem Grows.setInsertPoint {b b' : Builder D F} (h : Grows b b') {l : Nat}
    (hl : b.nextLabel ≤ l) : Grows b (b'.setInsertPoint l) :=
  ⟨h.prefix_, h.others, h.label_le, h.reg_le, h.cell_le, .inr hl⟩

theorem Grows.createFBin (ops : FloatOps D) (op : FBinOp) (b : Builder D F) (l r : Operand D) :
    Grows b (createFBin ops op b l r).2 := by
  rcases createFBin_cases ops b op l r with ⟨_, _, _, _, h⟩ | h
  · rw [h]
    exact Grows.refl b
  · rw [h]
    exact (Grows.emit b _).trans (Grows.bumpReg _)

theorem Grows.createFCmp (ops : FloatOps D) (pred : FCmpPred) (b : Builder D F)
    (l r : Operand D) : Grows b (createFCmp ops pred b l r).2 := by
  rcases createFCmp_cases ops b pred l r with ⟨_, _, _, _, h⟩ | h
  · rw [h]
    exact Grows.refl b
  · rw [h]
    exact (Grows.emit b _).trans (Grows.bumpReg _)

theorem Grows.createUIToFP (ops : FloatOps D) (b : Builder D F) (flag : Flag) :
    Grows b (createUIToFP ops b flag).2 := by
  rcases createUIToFP_cases ops b flag with ⟨_, _, h⟩ | h
  · rw [h]
    exact Grows.refl b
  · rw [h]
    exact (Grows.emit b _).trans (Grows.bumpReg _)

theorem Wf.emit {b : Builder D F} (h : b.Wf) (i : Instr D F) : (b.emit i).Wf := by
  refine ⟨h.insert_lt, ?_⟩
  intro l hl
  have hne : l ≠ b.insertBlock := by
    have := h.insert_lt
    have hl' : b.nextLabel ≤ l := hl
    omega
  simp only [Builder.emit, hne, if_false]
  exact h.fresh l hl

theorem Wf.bumpReg {b : Builder D F} (h : b.Wf) : b.bumpReg.Wf := ⟨h.insert_lt, h.fresh⟩

theorem Wf.createBlock {b : Builder D F} (h : b.Wf) : b.createBlock.2.Wf :=
  ⟨Nat.lt_succ_of_lt h.insert_lt, fun l hl => h.fresh l (Nat.le_of_succ_le hl)⟩

theorem Wf.appendBlock {b : Builder D F} (h : b.Wf) (l : Nat) : (b.appendBlock l).Wf :=
  ⟨h.insert_lt, h.fresh⟩

theorem Wf.createBlockIn {b : Builder D F} (h : b.Wf) : b.createBlockIn.2.Wf :=
  h.createBlock.appendBlock _

theorem Wf.createAlloca {b : Builder D F} (h : b.Wf) : b.createAlloca.2.Wf :=
  ⟨h.insert_lt, h.fresh⟩

theorem Wf.setInsertPoint {b : Builder D F} (h : b.Wf) {l : Nat} (hl : l < b.nextLabel) :
    (b.setInsertPoint l).Wf := ⟨hl, h.fresh⟩

theorem Wf.createFBin {b : Builder D F} (h : b.Wf) (ops : FloatOps D) (op : FBinOp)
    (l r : Operand D) : (Builder.createFBin ops op b l r).2.Wf := by
  rcases createFBin_cases ops b op l r with ⟨_, _, _, _, h'⟩ | h'
  · rw [h']
    exact h
  · rw [h']
    exact (h.emit _).bumpReg

theorem Wf.createFCmp {b : Builder D F} (h : b.Wf) (ops : FloatOps D) (pred : FCmpPred)
    (l r : Operand D) : (Builder.createFCmp ops pred b l r).2.Wf := by
  rcases createFCmp_cases ops b pred l r with ⟨_, _, _, _, h'⟩ | h'
  · rw [h']
    exact h
  · rw [h']
    exact (h.emit _).bumpReg

theorem Wf.createUIToFP {b : Builder D F} (h : b.Wf) (ops : FloatOps D) (flag : Flag) :
    (Builder.createUIToFP ops b flag).2.Wf := by
  rcases createUIToFP_cases ops b flag with ⟨_, _, h'⟩ | h'
  · rw [h']
    exact h
  · rw [h']
    exact (h.emit _).bumpReg

theorem createFBin_below (ops : FloatOps D) (op : FBinOp) (b : Builder D F) (l r : Operand D) :
    (Builder.createFBin ops op b l r).1.Below (Builder.createFBin ops op b l r).2.nextReg := by
  rcases createFBin_cases ops b op l r with ⟨_, _, _, _, h⟩ | h
  · rw [h]
    trivial
  · rw [h]
    exact Nat.lt_succ_self _

theorem createFCmp_below (ops : FloatOps D) (pred : FCmpPred) (b : Builder D F)
    (l r : Operand D) :
    (Builder.createFCmp ops pred b l r).1.Below (Builder.createFCmp ops pred b l r).2.nextReg := by
  rcases createFCmp_cases ops b pred l r with ⟨_, _, _, _, h⟩ | h
  · rw [h]
    trivial
  · rw [h]
    exact Nat.lt_succ_self _

theorem createUIToFP_below (ops : FloatOps D) (b : Builder D F) (flag : Flag) :
    (Builder.createUIToFP ops b flag).1.Below (Builder.createUIToFP ops b flag).2.nextReg := by
  rcases createUIToFP_cases ops b flag with ⟨_, _, h⟩ | h
  · rw [h]
    trivial
  · rw [h]
    exact Nat.lt_succ_self _

/-! ## Calls -/

end Builder

def Instr.isCall : Instr D F → Bool
  | .call _ _ _ => true
  | _ => false

namespace Builder

/-- Between `b` and `b'` no call was emitted. -/
def NoNewCall (b b' : Builder D F) : Prop := ∀ l, ∀ i ∈ b'.code l, i.isCall = true → i ∈ b.code l

section
variable (b : Builder D F)

theorem NoNewCall.emit {b b' : Builder D F} (h : NoNewCall b b') {i : Instr D F}
    (hi : i.isCall = false) : NoNewCall b (b'.emit i) := by
  intro l j hj hcall
  by_cases hl : l = b'.insertBlock
  · simp only [Builder.emit, hl, if_true, List.mem_append, List.mem_singleton] at hj
    rcases hj with hj | rfl
    · exact h l j (hl ▸ hj) hcall
    · rw [hi] at hcall
      cases hcall
  · exact h l j (by simpa [Builder.emit, hl] using hj) hcall

theorem NoNewCall.refl : NoNewCall b b := fun _ _ hi _ => hi

@[simp] theorem noNewCall_createLoad (cell : Nat) : NoNewCall b (b.createLoad cell).2 :=
  (NoNewCall.refl b).emit (i := .load b.nextReg cell) rfl

@[simp] theorem noNewCall_createStore (val : Operand D) (cell : Nat) :
    NoNewCall b (b.createStore val cell) := (NoNewCall.refl b).emit rfl

@[simp] theorem noNewCall_createBr (l : Nat) : NoNewCall b (b.createBr l) :=
  (NoNewCall.refl b).emit rfl

@[simp] theorem noNewCall_createCondBr (cond : Flag) (l k : Nat) :
    NoNewCall b (b.createCondBr cond l k) := (NoNewCall.refl b).emit rfl

@[simp] theorem noNewCall_createPhi (incoming : List (Operand D × Nat)) :
    NoNewCall b (b.createPhi incoming).2 :=
  (NoNewCall.refl b).emit (i := .phi b.nextReg incoming) rfl

@[simp] theorem noNewCall_createFBin (ops : FloatOps D) (op : FBinOp) (l r : Operand D) :
    NoNewCall b (createFBin ops op b l r).2 := by
  rcases createFBin_cases ops b op l r with ⟨_, _, _, _, h⟩ | h
  · rw [h]
    exact .refl b
  · rw [h]
    exact (NoNewCall.refl b).emit (i := .fbin op b.nextReg l r) rfl

@[simp] theorem noNewCall_createFCmp (ops : FloatOps D) (pred : FCmpPred) (l r : Operand D) :
    NoNewCall b (createFCmp ops pred b l r).2 := by
  rcases createFCmp_cases ops b pred l r with ⟨_, _, _, _, h⟩ | h
  · rw [h]
    exact .refl b
  · rw [h]
    exact (NoNewCall.refl b).emit (i := .fcmp pred b.nextReg l r) rfl

@[simp] theorem noNewCall_createUIToFP (ops : FloatOps D) (flag : Flag) :
    NoNewCall b (createUIToFP ops b flag).2 := by
  rcases createUIToFP_cases ops b flag with ⟨_, _, h⟩ | h
  · rw [h]
    exact .refl b
  · rw [h]
    exact (NoNewCall.refl b).emit (i := .uitofp b.nextReg flag) rfl

@[simp] theorem noNewCall_createBlock : NoNewCall b b.createBlock.2 := .refl b

@[simp] theorem noNewCall_createBlockIn : NoNewCall b b.createBlockIn.2 := .refl b

@[simp] theorem noNewCall_appendBlock (l : Nat) : NoNewCall b (b.appendBlock l) := .refl b

@[simp] theorem noNewCall_createAlloca : NoNewCall b b.createAlloca.2 := .refl b

@[simp] theorem noNewCall_setInsertPoint (l : Nat) : NoNewCall b (b.setInsertPoint l) := .refl b

/-- After a call was emitted there is this one besides those that were there. -/
theorem mem_createCall {callee : F} {args : List (Operand D)} {l : Nat} {i : Instr D F}
    (h : i ∈ (b.createCall callee args).2.code l) :
    i ∈ b.code l ∨ i = .call b.nextReg callee args := by
  by_cases hl : l = b.insertBlock
  · have h' : i ∈ b.code l ++ [.call b.nextReg callee args] := by
      simpa [createCall, bumpReg, Builder.emit, hl] using h
    simpa using h'
  · exact .inl (by simpa [createCall, bumpReg, Builder.emit, hl] using h)

end

/-! ## Blocks that wait for their code -/

/-- A block that was created and is still empty, behind the insertion point's back. -/
structure Reserved (b : Builder D F) (l : Nat) : Prop where
  lt : l < b.nextLabel
  ne : l ≠ b.insertBlock
  empty : b.code l = []

/-- A new block is empty. -/
theorem Wf.reserved {b : Builder D F} (h : b.Wf) : b.createBlock.2.Reserved b.nextLabel :=
  ⟨Nat.lt_succ_self _, Nat.ne_of_gt h.insert_lt, h.fresh _ (Nat.le_refl _)⟩

theorem Reserved.grows {b b' : Builder D F} {l : Nat} (h : b.Reserved l) (hg : Grows b b') :
    b'.Reserved l := by
  have hlt := h.lt
  refine ⟨Nat.lt_of_lt_of_le hlt hg.label_le, ?_, ?_⟩
  · rcases hg.insert with heq | hge
    · rw [heq]
      exact h.ne
    · omega
  · rw [hg.others l hlt h.ne]
    exact h.empty

theorem Reserved.setInsertPoint {b : Builder D F} {l k : Nat} (h : b.Reserved l) (hne : l ≠ k) :
    (b.setInsertPoint k).Reserved l := ⟨h.lt, hne, h.empty⟩

end Builder

end AroundTheWorld.Llvm
