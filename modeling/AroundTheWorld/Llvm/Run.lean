import AroundTheWorld.Base.Endings
import AroundTheWorld.Llvm.Builder

/-!
# Running what a builder emits

A machine that stands at the insertion point of a builder, in code that has what
the builder emits next, executes exactly that: one lemma for each instruction.
-/

namespace AroundTheWorld.Llvm

open AroundTheWorld.Base

/-- The machine is about to make a call that does not come back. -/
structure Machine.Calls {D F W : Type} (callees : Callees D F W) (code : Code D F)
    (m : Machine D F W) (what : F × List D) : Prop where
  fetch : ∃ dst vals, (code m.block)[m.index]? = some (.call dst what.1 vals) ∧
    vals.map m.val = what.2
  lost : callees what.1 what.2 m.world = none

theorem Machine.Calls.step {D F W : Type} {ops : FloatOps D} {callees : Callees D F W}
    {code : Code D F} {m : Machine D F W} {what : F × List D} (h : m.Calls callees code what) :
    m.step ops callees code = none := by
  obtain ⟨⟨dst, vals, hfetch, hvals⟩, hlost⟩ := h
  rw [Machine.step, hfetch]
  show Option.map _ (callees what.1 (vals.map m.val) m.world) = none
  rw [hvals, hlost]
  rfl

namespace Builder

variable {D F W : Type}

/-- The machine stands at the insertion point. -/
structure At (b : Builder D F) (m : Machine D F W) : Prop where
  block : m.block = b.insertBlock
  index : m.index = (b.code b.insertBlock).length

/-- `code` has all of `b`, and perhaps more behind it. -/
def Within (b : Builder D F) (code : Code D F) : Prop := ∀ l, b.code l <+: code l

theorem Within.of_grows {b b' : Builder D F} {code : Code D F} (h : Grows b b')
    (hw : b'.Within code) : b.Within code := fun l => (h.prefix_ l).trans (hw l)

section
variable {ops : FloatOps D} {callees : Callees D F W} {code : Code D F} {b : Builder D F}
  {m m' : Machine D F W}

/-- Where nothing has been emitted yet, the machine has halted. -/
theorem At.halted (h : b.At m) :
    m.step ops callees b.code = none ∧ ¬ m.Blocked ops callees b.code := by
  apply Machine.halted_at_end
  rw [h.block]
  exact h.index

/-- At the insertion point the machine meets the instruction emitted there. -/
theorem At.fetch {i : Instr D F} (h : b.At m) (hem : Emitted b.code (b.emit i).code code) :
    (code m.block)[m.index]? = some i := by
  rw [h.block, h.index]
  exact hem.fetch ⟨[], (List.append_nil _).trans (if_pos rfl).symm⟩

theorem At.step {i : Instr D F} (h : b.At m) (hem : Emitted b.code (b.emit i).code code) :
    m.step ops callees code = m.exec ops callees i := by
  rw [Machine.step, h.fetch hem]
  rfl

theorem At.blocked {i : Instr D F} (h : b.At m) (hem : Emitted b.code (b.emit i).code code)
    (hexec : m.exec ops callees i = none) : m.Blocked ops callees code :=
  ⟨i, h.fetch hem, hexec⟩

/-- An instruction that does not branch leads to the next insertion point. -/
theorem At.next {i : Instr D F} (h : b.At m) (hblock : m'.block = m.block)
    (hindex : m'.index = m.index + 1) : (b.emit i).At m' := by
  refine ⟨hblock.trans h.block, ?_⟩
  rw [hindex, h.index]
  simp [Builder.emit]

theorem kept_setReg (m : Machine D F W) {n r : Nat} (hr : n ≤ r) (d : D) :
    m.Kept n (m.setReg r d) := by
  refine ⟨?_, fun _ _ => rfl, rfl, rfl, rfl⟩
  intro k hk
  simp [Machine.setReg, Nat.ne_of_lt (Nat.lt_of_lt_of_le hk hr)]

theorem kept_setFlag (m : Machine D F W) {n r : Nat} (hr : n ≤ r) (f : Bool) :
    m.Kept n (m.setFlag r f) := by
  refine ⟨fun _ _ => rfl, ?_, rfl, rfl, rfl⟩
  intro k hk
  simp [Machine.setFlag, Nat.ne_of_lt (Nat.lt_of_lt_of_le hk hr)]

theorem At.bumpReg (h : b.At m) : b.bumpReg.At m := ⟨h.block, h.index⟩

variable (ops callees)

theorem run_createLoad (hm : b.At m) (cell : Nat)
    (hem : Emitted b.code (b.createLoad cell).2.code code) :
    ∃ m', Reaches (Machine.step ops callees code) m m' ∧ (b.createLoad cell).2.At m' ∧
      m'.val (b.createLoad cell).1 = m.mem cell ∧ m.Kept b.nextReg m' := by
  have hat : (b.emit (.load b.nextReg cell)).At (m.setReg b.nextReg (m.mem cell)) := hm.next rfl rfl
  refine ⟨_, Reaches.one (hm.step hem), hat.bumpReg, ?_, kept_setReg m (Nat.le_refl _) _⟩
  simp [createLoad, Machine.val, Machine.setReg]

theorem run_createFBin (hm : b.At m) (op : FBinOp) (l r : Operand D)
    (hem : Emitted b.code (createFBin ops op b l r).2.code code) :
    ∃ m', Reaches (Machine.step ops callees code) m m' ∧ (createFBin ops op b l r).2.At m' ∧
      m'.val (createFBin ops op b l r).1 = ops.fbin op (m.val l) (m.val r) ∧
      m.Kept b.nextReg m' := by
  rcases createFBin_cases ops b op l r with ⟨x, y, rfl, rfl, h⟩ | h
  · rw [h]
    exact ⟨m, Reaches.refl, hm, rfl, Machine.Kept.refl _ _⟩
  · rw [h] at hem ⊢
    have hat : (b.emit (.fbin op b.nextReg l r)).At
        (m.setReg b.nextReg (ops.fbin op (m.val l) (m.val r))) := hm.next rfl rfl
    refine ⟨_, Reaches.one (hm.step hem), hat.bumpReg, ?_, kept_setReg m (Nat.le_refl _) _⟩
    simp [Machine.val, Machine.setReg]

theorem run_createFCmp (hm : b.At m) (pred : FCmpPred) (l r : Operand D)
    (hem : Emitted b.code (createFCmp ops pred b l r).2.code code) :
    ∃ m', Reaches (Machine.step ops callees code) m m' ∧ (createFCmp ops pred b l r).2.At m' ∧
      m'.flag (createFCmp ops pred b l r).1 = ops.fcmp pred (m.val l) (m.val r) ∧
      m.Kept b.nextReg m' := by
  rcases createFCmp_cases ops b pred l r with ⟨x, y, rfl, rfl, h⟩ | h
  · rw [h]
    exact ⟨m, Reaches.refl, hm, rfl, Machine.Kept.refl _ _⟩
  · rw [h] at hem ⊢
    have hat : (b.emit (.fcmp pred b.nextReg l r)).At
        (m.setFlag b.nextReg (ops.fcmp pred (m.val l) (m.val r))) := hm.next rfl rfl
    refine ⟨_, Reaches.one (hm.step hem), hat.bumpReg, ?_, kept_setFlag m (Nat.le_refl _) _⟩
    simp [Machine.flag, Machine.setFlag]

theorem run_createUIToFP (hm : b.At m) (flag : Flag)
    (hem : Emitted b.code (createUIToFP ops b flag).2.code code) :
    ∃ m', Reaches (Machine.step ops callees code) m m' ∧ (createUIToFP ops b flag).2.At m' ∧
      m'.val (createUIToFP ops b flag).1 = ops.uitofp (m.flag flag) ∧ m.Kept b.nextReg m' := by
  rcases createUIToFP_cases ops b flag with ⟨x, rfl, h⟩ | h
  · rw [h]
    exact ⟨m, Reaches.refl, hm, rfl, Machine.Kept.refl _ _⟩
  · rw [h] at hem ⊢
    have hat : (b.emit (.uitofp b.nextReg flag)).At
        (m.setReg b.nextReg (ops.uitofp (m.flag flag))) := hm.next rfl rfl
    refine ⟨_, Reaches.one (hm.step hem), hat.bumpReg, ?_, kept_setReg m (Nat.le_refl _) _⟩
    simp [Machine.val, Machine.setReg]

/-- A store leads behind it, with the value in the cell. -/
theorem run_createStore (hm : b.At m) (val : Operand D) (cell : Nat)
    (hem : Emitted b.code (b.createStore val cell).code code) :
    Reaches (Machine.step ops callees code) m (m.setCell cell (m.val val)) ∧
      (b.createStore val cell).At (m.setCell cell (m.val val)) :=
  ⟨Reaches.one (hm.step hem), hm.next rfl rfl⟩

/-- A call that returns. -/
theorem run_createCall (hm : b.At m) {callee : F} {args : List (Operand D)} {d : D} {world : W}
    (hcall : callees callee (args.map m.val) m.world = some (d, world))
    (hem : Emitted b.code (b.createCall callee args).2.code code) :
    ∃ m', Reaches (Machine.step ops callees code) m m' ∧ (b.createCall callee args).2.At m' ∧
      m'.val (.reg b.nextReg) = d ∧ (∀ r < b.nextReg, m'.regs r = m.regs r) ∧ m'.mem = m.mem ∧
      m'.world = world ∧ m'.calls = m.calls ++ [(callee, args.map m.val)] := by
  have hexec : m.exec ops callees (.call b.nextReg callee args) =
      some { m.setReg b.nextReg d with
        world, calls := m.calls ++ [(callee, args.map m.val)] } := by
    simp [Machine.exec, hcall]
  have hstep : m.step ops callees code = some { m.setReg b.nextReg d with
      world, calls := m.calls ++ [(callee, args.map m.val)] } := (hm.step hem).trans hexec
  have hat : (b.emit (.call b.nextReg callee args)).At { m.setReg b.nextReg d with
      world, calls := m.calls ++ [(callee, args.map m.val)] } := hm.next rfl rfl
  refine ⟨_, Reaches.one hstep, hat.bumpReg, ?_, (kept_setReg m (Nat.le_refl _) d).regs, rfl, rfl,
    rfl⟩
  simp [Machine.val, Machine.setReg]

/-- A call that does not return. -/
theorem blocked_createCall (hm : b.At m) {callee : F} {args : List (Operand D)}
    (hcall : callees callee (args.map m.val) m.world = none)
    (hem : Emitted b.code (b.createCall callee args).2.code code) : m.Blocked ops callees code := by
  apply hm.blocked (i := .call b.nextReg callee args) hem
  simp [Machine.exec, hcall]

theorem step_createBr (hm : b.At m) (l : Nat) (hem : Emitted b.code (b.createBr l).code code) :
    m.step ops callees code = some (m.jump l) := hm.step hem

theorem step_createCondBr (hm : b.At m) (cond : Flag) (l k : Nat)
    (hem : Emitted b.code (b.createCondBr cond l k).code code) :
    m.step ops callees code = some (m.jump (if m.flag cond then l else k)) := hm.step hem

/-- A jump to an empty block stands where the builder inserts after moving there. -/
theorem At.of_jump {l : Nat} (hempty : b.code l = []) (m : Machine D F W) :
    (b.setInsertPoint l).At (m.jump l) := by
  refine ⟨rfl, ?_⟩
  show 0 = (b.code l).length
  rw [hempty]
  rfl

/-- A phi takes the value that belongs to the block the machine came from. -/
theorem run_createPhi (hm : b.At m) {incoming : List (Operand D × Nat)} {v : Operand D} {l : Nat}
    (hfind : incoming.find? (fun entry => entry.2 == m.prev) = some (v, l))
    (hem : Emitted b.code (b.createPhi incoming).2.code code) :
    ∃ m', Reaches (Machine.step ops callees code) m m' ∧ (b.createPhi incoming).2.At m' ∧
      m'.val (.reg b.nextReg) = m.val v ∧ m.Kept b.nextReg m' := by
  have hexec : m.exec ops callees (.phi b.nextReg incoming) =
      some (m.setReg b.nextReg (m.val v)) := by
    simp [Machine.exec, hfind]
  have hat : (b.emit (.phi b.nextReg incoming)).At (m.setReg b.nextReg (m.val v)) :=
    hm.next rfl rfl
  refine ⟨_, Reaches.one ((hm.step hem).trans hexec), hat.bumpReg, ?_,
    kept_setReg m (Nat.le_refl _) _⟩
  simp [Machine.val, Machine.setReg]

/-- The end of a branch: a jump to the block of a phi, and the phi. -/
theorem run_createBr_phi {join : Builder D F} {l k : Nat} {incoming : List (Operand D × Nat)}
    {v : Operand D} (hm : b.At m) (hempty : join.code l = [])
    (hem : Emitted b.code (b.createBr l).code code)
    (hfind : incoming.find? (fun entry => entry.2 == b.insertBlock) = some (v, k))
    (hem' : Emitted join.code ((join.setInsertPoint l).createPhi incoming).2.code code) :
    ∃ m', Reaches (Machine.step ops callees code) m m' ∧
      ((join.setInsertPoint l).createPhi incoming).2.At m' ∧
      m'.val (.reg join.nextReg) = m.val v ∧ m.Kept join.nextReg m' := by
  have hstep := step_createBr ops callees hm l hem
  have hat : (join.setInsertPoint l).At (m.jump l) := At.of_jump hempty m
  have hprev : (m.jump l).prev = b.insertBlock := hm.block
  rw [← hprev] at hfind
  obtain ⟨m', hreach, hat', hval, hkept⟩ := run_createPhi ops callees hat hfind hem'
  refine ⟨m', (Reaches.one hstep).trans hreach, hat', ?_, hkept.regs, hkept.flags, hkept.mem,
    hkept.world, hkept.calls⟩
  cases v with
  | const d => exact hval
  | reg r => exact hval

end

end Builder

end AroundTheWorld.Llvm
