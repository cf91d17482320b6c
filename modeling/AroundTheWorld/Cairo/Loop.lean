import AroundTheWorld.Cairo.Machine

/-!
# The loops of Cairo

`genFor` makes the head of a loop the block that begins with the phi of the loop
variable, and tests behind the body whether to come back to it. The body begins
behind the store of the loop variable, and is executed once for each time the
machine comes by there before it gets to the block behind the loop.
-/

namespace AroundTheWorld.Cairo

open AroundTheWorld.Base AroundTheWorld.Lex AroundTheWorld.Llvm
open AroundTheWorld.Athens (ExprAST Name)

variable {D W : Type}

/-- How the generator has come through a `for`, from state `s` on. -/
structure ForCode (ops : IntOps D) (varName : Name) (start end_ step body : ExprAST D)
    (s : CairoState D) where
  startVal : Operand D
  endVal : Operand D
  stepVal : Operand D
  bodyVal : Operand D
  started : CairoState D
  ended : CairoState D
  stepped : CairoState D
  behind : CairoState D
  genStart : gen ops start s = .ok startVal started
  genEnd : gen ops end_ started = .ok endVal ended
  genStep : (if step.isNull then pure (.const ops.zero) else gen ops step : CairoGen D _) ended =
    .ok stepVal stepped
  genBody : gen ops body
    { stepped with
      builder := (preheader ops startVal endVal stepVal stepped.builder).enter
      namedValues := fun k => if k = varName
        then some (preheader ops startVal endVal stepVal stepped.builder).cell
        else stepped.namedValues k } = .ok bodyVal behind

namespace ForCode

variable {ops : IntOps D} {varName : Name} {start end_ step body : ExprAST D} {s : CairoState D}
  (c : ForCode ops varName start end_ step body s)

def pre : Preheader D := preheader ops c.startVal c.endVal c.stepVal c.stepped.builder

/-- The function where the body begins, where it ends, and behind the loop. -/
def inside : Builder D := c.pre.enter

def final : Builder D := c.pre.head.leave c.behind.builder

/-- Every `for` that is generated is generated so. -/
theorem of_gen {v : Operand D} {s' : CairoState D}
    (h : gen ops (.forExpr varName start end_ step body) s = .ok v s') :
    ∃ c : ForCode ops varName start end_ step body s, s'.builder = c.final := by
  rw [gen] at h
  obtain ⟨startVal, s₁, h₁, h⟩ := Gen.bind_ok h
  obtain ⟨endVal, s₂, h₂, h⟩ := Gen.bind_ok h
  cases startVal with
  | none => cases h
  | some startVal =>
    cases endVal with
    | none => cases h
    | some endVal =>
      obtain ⟨stepVal, s₃, h₃, h⟩ := Gen.bind_ok h
      obtain ⟨head, s₄, h₄, h⟩ := Gen.bind_ok h
      rw [genLoopHead_run] at h₄
      cases h₄
      obtain ⟨bodyVal, s₅, h₅, h⟩ := Gen.bind_ok h
      rw [Gen.bind_of_ok (genLoopLatch_run _ s₅)] at h
      cases h
      exact ⟨⟨startVal, endVal, stepVal, bodyVal, s₁, s₂, s₃, s₅, Gen.attempt_some h₁,
        Gen.attempt_some h₂, h₃, h₅⟩, rfl⟩

/-- What `code` has of the loop: everything behind the step in the block where
the machine is then, and the new blocks, but for the one behind the loop. -/
structure Holds (code : Code D) : Prop where
  here : ∀ i ins, (c.stepped.builder.code c.stepped.builder.insertBlock).length ≤ i →
    (c.final.code c.stepped.builder.insertBlock)[i]? = some ins →
      (code c.stepped.builder.insertBlock)[i]? = some ins
  new : ∀ l, c.stepped.builder.nextLabel ≤ l → l ≠ c.pre.head.afterBB → code l = c.final.code l

theorem holds_final : c.Holds c.final.code := ⟨fun _ _ _ h => h, fun _ _ _ => rfl⟩

variable {c}

/-- Where the step has been generated, the operands are still there. -/
theorem stepped_spec (hs : s.builder.Wf) : c.stepped.builder.Wf ∧
    InRegs c.startVal c.stepped.builder ∧ InRegs c.endVal c.stepped.builder ∧
    InRegs c.stepVal c.stepped.builder := by
  obtain ⟨hstarted, hstart⟩ := gen_extends ops start s c.startVal c.started hs c.genStart
  obtain ⟨hended, hend⟩ := gen_extends ops end_ _ c.endVal c.ended hstarted.wf c.genEnd
  have hstep : Extends InRegs (if step.isNull then pure (.const ops.zero) else gen ops step) := by
    split
    · exact .pure fun _ => trivial
    · exact gen_extends ops step
  obtain ⟨hstepped, hstepVal⟩ := hstep _ c.stepVal c.stepped hended.wf c.genStep
  exact ⟨hstepped.wf, Operand.Below.mono hstart (Nat.le_trans hended.regs hstepped.regs),
    Operand.Below.mono hend hstepped.regs, hstepVal⟩

theorem grown_pre (hs : s.builder.Wf) : c.stepped.builder.Grown c.pre.builder :=
  preheader_grown ops c.startVal c.endVal c.stepVal (stepped_spec hs).1

theorem grown_inside (hs : s.builder.Wf) : c.stepped.builder.Grown c.inside :=
  Preheader.enter_grown (grown_pre hs)

theorem grown_behind (hs : s.builder.Wf) : c.inside.Grown c.behind.builder :=
  (gen_extends ops body _ c.bodyVal c.behind (grown_inside hs).wf c.genBody).1

/-! ## The code of the loop -/

theorem pre_empty (hs : s.builder.Wf) : c.pre.builder.code c.pre.head.loopBB = [] :=
  (grown_pre hs).wf.empty _ (Nat.le_refl _)

theorem pre_insert (hs : s.builder.Wf) : c.pre.builder.insertBlock < c.pre.head.loopBB :=
  (grown_pre hs).wf.insert

theorem inside_code (hs : s.builder.Wf) : c.inside.code c.pre.head.loopBB =
    [.phiInt c.pre.head.iv [(c.pre.startI64, c.pre.builder.insertBlock)],
      .sitofp (c.pre.head.iv + 1) c.pre.head.iv, .store (.reg (c.pre.head.iv + 1)) c.pre.cell] := by
  have hempty := pre_empty (c := c) hs
  have hne : ¬ c.pre.head.loopBB = c.pre.builder.insertBlock := Nat.ne_of_gt (pre_insert hs)
  unfold inside Preheader.enter
  simp only [Preheader.head] at hempty hne ⊢
  simp [Builder.emitReg, Builder.emit, Builder.bumpReg, Builder.setInsertPoint, hempty, hne]

theorem inside_here (hs : s.builder.Wf) : c.inside.code c.pre.builder.insertBlock =
    c.pre.builder.code c.pre.builder.insertBlock ++ [.br c.pre.head.loopBB] := by
  have hne : ¬ c.pre.builder.insertBlock = c.pre.head.loopBB := Nat.ne_of_lt (pre_insert hs)
  unfold inside Preheader.enter
  simp only [Preheader.head] at hne ⊢
  simp [Builder.emitReg, Builder.emit, Builder.bumpReg, Builder.setInsertPoint, hne]

end ForCode

/-- The test behind the body, with the register of the next value. -/
def LoopHead.test (head : LoopHead) (next : Nat) : List (Instr D) :=
  [.add next (.reg head.iv) head.stepI64, .icmpSLT (next + 1) (.reg next) head.endI64,
    .condBr (.reg (next + 1)) head.loopBB head.afterBB]

theorem LoopHead.leave_code (head : LoopHead) (b : Builder D) (l : Nat) : (head.leave b).code l =
    (b.code l ++ if l = b.insertBlock then head.test b.nextReg else []).map
      (Instr.addIncoming head.iv (.reg b.nextReg, b.insertBlock)) := by
  unfold LoopHead.leave
  by_cases hl : l = b.insertBlock
  · subst hl
    simp [LoopHead.test, Builder.emitReg, Builder.emit, Builder.bumpReg, Builder.setInsertPoint,
      Builder.addIncoming]
  · simp [Builder.emitReg, Builder.emit, Builder.bumpReg, Builder.setInsertPoint,
      Builder.addIncoming, hl]

namespace ForCode

variable {ops : IntOps D} {varName : Name} {start end_ step body : ExprAST D} {s : CairoState D}
  {c : ForCode ops varName start end_ step body s}

/-- The body ends in a block of the loop. -/
theorem behind_insert (hs : s.builder.Wf) : c.behind.builder.insertBlock = c.pre.head.loopBB ∨
    c.pre.head.loopBB + 2 ≤ c.behind.builder.insertBlock := (grown_behind hs).insert

/-- What is new in the body is not the phi of the loop. -/
theorem addIncoming_new (entry : IntOperand × Nat) {i : Instr D} (hi : c.inside.New i) :
    i.addIncoming c.pre.head.iv entry = i := by
  apply Instr.addIncoming_of_ne
  intro hdst
  have hle : c.pre.head.iv + 2 ≤ c.pre.head.iv := hi.dst _ hdst
  omega

/-- The block of the loop: its head, then the body. -/
theorem final_head (hs : s.builder.Wf) : ∃ more, c.final.code c.pre.head.loopBB =
    [.phiInt c.pre.head.iv [(c.pre.startI64, c.pre.builder.insertBlock),
        (.reg c.behind.builder.nextReg, c.behind.builder.insertBlock)],
      .sitofp (c.pre.head.iv + 1) c.pre.head.iv,
      .store (.reg (c.pre.head.iv + 1)) c.pre.cell] ++ more := by
  obtain ⟨more, hcode, _⟩ := (grown_behind (c := c) hs).code c.pre.head.loopBB
  rw [inside_code hs] at hcode
  have hfinal := c.pre.head.leave_code c.behind.builder c.pre.head.loopBB
  have hmap : ([.phiInt c.pre.head.iv [(c.pre.startI64, c.pre.builder.insertBlock)],
      .sitofp (c.pre.head.iv + 1) c.pre.head.iv,
      .store (.reg (c.pre.head.iv + 1)) c.pre.cell] : List (Instr D)).map
        (Instr.addIncoming c.pre.head.iv
          (.reg c.behind.builder.nextReg, c.behind.builder.insertBlock)) =
      [.phiInt c.pre.head.iv [(c.pre.startI64, c.pre.builder.insertBlock),
          (.reg c.behind.builder.nextReg, c.behind.builder.insertBlock)],
        .sitofp (c.pre.head.iv + 1) c.pre.head.iv,
        .store (.reg (c.pre.head.iv + 1)) c.pre.cell] := by
    simp [Instr.addIncoming]
  rw [hcode, List.append_assoc, List.map_append, hmap] at hfinal
  exact ⟨_, hfinal⟩

/-- The end of the body and the test behind it. -/
theorem final_test (hs : s.builder.Wf) {k : Nat} {ins : Instr D}
    (hk : (c.pre.head.test c.behind.builder.nextReg : List (Instr D))[k]? = some ins) :
    (c.final.code c.behind.builder.insertBlock)[(c.behind.builder.code
      c.behind.builder.insertBlock).length + k]? = some ins := by
  have hle : c.pre.head.iv + 2 ≤ c.behind.builder.nextReg := (grown_behind hs).regs
  have hsame : ins.addIncoming c.pre.head.iv
      (.reg c.behind.builder.nextReg, c.behind.builder.insertBlock) = ins := by
    apply Instr.addIncoming_of_ne
    intro hdst
    have hmem : ins ∈ c.pre.head.test c.behind.builder.nextReg := List.mem_of_getElem? hk
    simp only [LoopHead.test, List.mem_cons, List.not_mem_nil, or_false] at hmem
    rcases hmem with rfl | rfl | rfl
    · have heq := Option.some.inj hdst
      omega
    · have heq := Option.some.inj hdst
      omega
    · cases hdst
  have hfinal := c.pre.head.leave_code c.behind.builder c.behind.builder.insertBlock
  rw [if_pos rfl] at hfinal
  show ((c.pre.head.leave c.behind.builder).code _)[_]? = _
  rw [hfinal, List.getElem?_map, List.getElem?_append_right (Nat.le_add_right _ _),
    Nat.add_sub_cancel_left, hk, Option.map_some, hsame]

/-- The body stands in the code as it was generated. -/
theorem hasPiece {code : Code D} (hs : s.builder.Wf) (hcode : c.Holds code) :
    HasPiece c.inside c.behind.builder code := by
  intro l i hl hlow hhigh hend
  have hloop : c.stepped.builder.nextLabel ≤ c.pre.head.loopBB := (grown_pre hs).labels
  have hnew : c.stepped.builder.nextLabel ≤ l ∧ l ≠ c.pre.head.afterBB := by
    rcases hl with rfl | hl
    · refine ⟨hloop, ?_⟩
      show c.pre.head.loopBB ≠ c.pre.head.loopBB + 1
      omega
    · have hl : c.pre.head.loopBB + 2 ≤ l := hl
      refine ⟨by omega, ?_⟩
      show l ≠ c.pre.head.loopBB + 1
      omega
  rw [hcode.new l hnew.1 hnew.2]
  show ((c.pre.head.leave c.behind.builder).code l)[i]? = _
  rw [LoopHead.leave_code, List.getElem?_map]
  by_cases hi : i < (c.behind.builder.code l).length
  · rw [List.getElem?_append_left hi]
    obtain ⟨more, hsplit, hmore⟩ := (grown_behind (c := c) hs).code l
    have hmem : ∃ ins, (c.behind.builder.code l)[i]? = some ins := ⟨_, List.getElem?_eq_getElem hi⟩
    obtain ⟨ins, hins⟩ := hmem
    have hins' := hins
    rw [hsplit, List.getElem?_append_right hlow] at hins'
    rw [hins, Option.map_some, addIncoming_new _ (hmore ins (List.mem_of_getElem? hins')).2]
  · have heq : i = (c.behind.builder.code l).length := by omega
    have hne : ¬ l = c.behind.builder.insertBlock := fun h => hend ⟨h, heq⟩
    rw [if_neg hne, List.append_nil, List.getElem?_eq_none (by omega)]
    rfl

/-- The code in front of the loop, up to the branch into it. -/
theorem final_here (hs : s.builder.Wf) : c.final.code c.pre.builder.insertBlock =
    c.pre.builder.code c.pre.builder.insertBlock ++ [.br c.pre.head.loopBB] := by
  have hlt := pre_insert (c := c) hs
  have hbehind : c.behind.builder.code c.pre.builder.insertBlock =
      c.inside.code c.pre.builder.insertBlock := by
    obtain ⟨more, hsplit, hmore⟩ := (grown_behind (c := c) hs).code c.pre.builder.insertBlock
    have hempty : more = [] := by
      apply List.eq_nil_iff_forall_not_mem.mpr
      intro i hi
      have hwhere : c.pre.builder.insertBlock = c.pre.head.loopBB ∨
        c.pre.head.loopBB + 2 ≤ c.pre.builder.insertBlock := (hmore i hi).1
      omega
    rw [hsplit, hempty, List.append_nil]
  have hne : ¬ c.pre.builder.insertBlock = c.behind.builder.insertBlock := by
    have hinsert := behind_insert (c := c) hs
    omega
  have hregs : ∀ i ∈ c.pre.builder.code c.pre.builder.insertBlock, ∀ r, i.dst = some r →
      r < c.pre.head.iv := (grown_pre hs).wf.regs _
  show (c.pre.head.leave c.behind.builder).code _ = _
  rw [LoopHead.leave_code, if_neg hne, List.append_nil, hbehind, inside_here hs, List.map_append,
    map_addIncoming_of_lt hregs]
  rfl

/-! ## Running the loop -/

section
variable {device : Device D W} {code : Code D} {m : Machine D W}

/-- The machine is behind the loop. -/
def Left (c : ForCode ops varName start end_ step body s) (m : Machine D W) : Prop :=
  m.block = c.pre.head.afterBB

theorem code_loop (hs : s.builder.Wf) (hcode : c.Holds code) {l : Nat}
    (hl : l = c.pre.head.loopBB ∨ c.pre.head.loopBB + 2 ≤ l) : code l = c.final.code l := by
  have hloop : c.stepped.builder.nextLabel ≤ c.pre.head.loopBB := (grown_pre hs).labels
  apply hcode.new l
  · omega
  · show l ≠ c.pre.head.loopBB + 1
    omega

/-- At the head of the loop the machine takes the value that belongs to where it
came from, and gets to the body. -/
theorem head_run (device : Device D W) (hs : s.builder.Wf) (hcode : c.Holds code)
    (hblock : m.block = c.pre.head.loopBB) (hindex : m.index = 0) {entry : IntOperand × Nat}
    (hfind : [(c.pre.startI64, c.pre.builder.insertBlock),
      (.reg c.behind.builder.nextReg, c.behind.builder.insertBlock)].find?
        (fun entry => entry.2 == m.prev) = some entry) :
    ∃ m', Arrives (Machine.step ops device code) c.inside.At c.Left m m' ∧ c.inside.At m' ∧
      m'.ints c.pre.head.iv = m.int entry.1 ∧ m'.mem c.pre.cell = ops.sitofp (m.int entry.1) ∧
      Machine.Kept c.pre.head.iv m m' := by
  obtain ⟨more, hhead⟩ := final_head (c := c) hs
  have hhere := code_loop hs hcode (.inl rfl)
  rw [hhead] at hhere
  have hlen : (c.inside.code c.inside.insertBlock).length = 3 :=
    congrArg List.length (inside_code hs)
  have hnot : ∀ m' : Machine D W, m'.index < 3 → ¬ c.inside.At m' := by
    intro m' hlt hat
    have heq := hat.index
    omega
  have hin : ∀ m' : Machine D W, m'.block = c.pre.head.loopBB → ¬ c.Left m' := by
    intro m' heq hleft
    have hafter : m'.block = c.pre.head.loopBB + 1 := hleft
    omega
  let m₁ := m.setInt c.pre.head.iv (m.int entry.1)
  let m₂ := m₁.setReg (c.pre.head.iv + 1) (ops.sitofp (m₁.ints c.pre.head.iv))
  let m₃ := m₂.setCell c.pre.cell (m₂.val (.reg (c.pre.head.iv + 1)))
  have hstep₁ : m.step ops device code = some m₁ := by
    rw [Machine.step_of_fetch (by rw [hblock, hindex, hhere]; rfl)]
    show Option.map _ _ = _
    rw [hfind]
    rfl
  have hfetch₂ : (code m₁.block)[m₁.index]? =
      some (.sitofp (c.pre.head.iv + 1) c.pre.head.iv) := by
    show (code m.block)[m.index + 1]? = _
    rw [hblock, hindex, hhere]
    rfl
  have hstep₂ : m₁.step ops device code = some m₂ := Machine.step_of_fetch hfetch₂
  have hfetch₃ : (code m₂.block)[m₂.index]? =
      some (.store (.reg (c.pre.head.iv + 1)) c.pre.cell) := by
    show (code m.block)[m.index + 1 + 1]? = _
    rw [hblock, hindex, hhere]
    rfl
  have hstep₃ : m₂.step ops device code = some m₃ := Machine.step_of_fetch hfetch₃
  have hat : c.inside.At m₃ := by
    refine ⟨hblock, ?_⟩
    rw [hlen]
    show m.index + 1 + 1 + 1 = 3
    rw [hindex]
  have hiv : m₁.ints c.pre.head.iv = m.int entry.1 := if_pos rfl
  refine ⟨m₃, ?_, hat, hiv, ?_, ?_⟩
  · apply Arrives.skip hstep₁ (hnot m₁ (by show m.index + 1 < 3; omega)) (hin m₁ hblock)
    apply Arrives.skip hstep₂ (hnot m₂ (by show m.index + 1 + 1 < 3; omega)) (hin m₂ hblock)
    exact .here hstep₃ hat
  · show (if c.pre.cell = c.pre.cell then _ else _) = _
    rw [if_pos rfl]
    show (if c.pre.head.iv + 1 = c.pre.head.iv + 1 then _ else _) = _
    rw [if_pos rfl, hiv]
  · have hkept₁ : Machine.Kept c.pre.head.iv m m₁ := .setInt (Nat.le_refl _) _
    have hkept₂ : Machine.Kept c.pre.head.iv m₁ m₂ := .setReg (Nat.le_succ _) _
    exact (hkept₁.trans hkept₂).trans (.of_eq rfl rfl rfl)

/-- Behind the body the next value is computed and compared with the bound. -/
theorem test_run (device : Device D W) (hs : s.builder.Wf) (hcode : c.Holds code)
    (hat : c.behind.builder.At m) :
    ∃ m', Quiet (Machine.step ops device code) c.inside.At c.Left m m' ∧
      m'.ints c.behind.builder.nextReg = wrap64 (m.ints c.pre.head.iv + m.int c.pre.stepI64) ∧
      m'.block = m.block ∧ Machine.Kept c.behind.builder.nextReg m m' ∧
      m'.step ops device code = some (m'.jump (if m'.ints c.behind.builder.nextReg <
        m'.int c.pre.endI64 then c.pre.head.loopBB else c.pre.head.afterBB)) := by
  have hinsert := behind_insert (c := c) hs
  have hhere := code_loop hs hcode hinsert
  have hle : c.pre.head.iv + 2 ≤ c.behind.builder.nextReg := (grown_behind hs).regs
  have hfetch : ∀ {k : Nat} {ins : Instr D} (m' : Machine D W), m'.block = m.block →
      m'.index = m.index + k →
      (c.pre.head.test c.behind.builder.nextReg : List (Instr D))[k]? = some ins →
      (code m'.block)[m'.index]? = some ins := by
    intro k ins m' hblock hindex hk
    rw [hblock, hindex, hat.block, hat.index, hhere]
    exact final_test hs hk
  -- behind the test the machine is not where the body begins
  have hnot : ∀ m' : Machine D W, m'.block = m.block → m.index < m'.index → ¬ c.inside.At m' := by
    intro m' hblock hindex hat'
    have hloop : m.block = c.inside.insertBlock := hblock.symm.trans hat'.block
    obtain ⟨more, hsplit, _⟩ := (grown_behind (c := c) hs).code c.inside.insertBlock
    have hlen : (c.inside.code c.inside.insertBlock).length ≤ m.index := by
      rw [hat.index, ← hat.block, hloop, hsplit, List.length_append]
      omega
    have heq := hat'.index
    omega
  have hin : ∀ m' : Machine D W, m'.block = m.block → ¬ c.Left m' := by
    intro m' hblock hleft
    have hafter : m'.block = c.pre.head.loopBB + 1 := hleft
    rw [hblock, hat.block] at hafter
    omega
  let m₁ := m.setInt c.behind.builder.nextReg
    (wrap64 (m.ints c.pre.head.iv + m.int c.pre.stepI64))
  let m₂ := m₁.setFlag (c.behind.builder.nextReg + 1)
    (decide (m₁.ints c.behind.builder.nextReg < m₁.int c.pre.endI64))
  have hstep₁ : m.step ops device code = some m₁ :=
    Machine.step_of_fetch (hfetch (k := 0) m rfl rfl rfl)
  have hstep₂ : m₁.step ops device code = some m₂ :=
    Machine.step_of_fetch (hfetch (k := 1) m₁ rfl rfl rfl)
  have hstep₃ : m₂.step ops device code = some (m₂.jump (if m₂.flag (.reg
      (c.behind.builder.nextReg + 1)) then c.pre.head.loopBB else c.pre.head.afterBB)) :=
    Machine.step_of_fetch (hfetch (k := 2) m₂ rfl rfl rfl)
  refine ⟨m₂, ?_, if_pos rfl, rfl, ?_, ?_⟩
  · apply Quiet.head hstep₁ (hnot m₁ rfl (Nat.lt_succ_self _)) (hin m₁ rfl)
    exact .one hstep₂ (hnot m₂ rfl (by show m.index < m.index + 1 + 1; omega)) (hin m₂ rfl)
  · have hkept₁ : Machine.Kept c.behind.builder.nextReg m m₁ := .setInt (Nat.le_refl _) _
    exact hkept₁.trans (.setFlag (Nat.le_succ _) _)
  · have hflag : m₂.flag (.reg (c.behind.builder.nextReg + 1)) =
        decide (m₂.ints c.behind.builder.nextReg < m₂.int c.pre.endI64) := if_pos rfl
    rw [hstep₃, hflag]
    simp only [decide_eq_true_eq]

/-! ## In front of the loop -/

/-- The machine has come from `m` to the insertion point of `b` in the block in
front of the loop. -/
structure Ran (c : ForCode ops varName start end_ step body s) (device : Device D W) (code : Code D)
    (b : Builder D) (m m' : Machine D W) : Prop where
  quiet : Quiet (Machine.step ops device code) c.inside.At c.Left m m'
  at_ : b.At m'
  insert : b.insertBlock = c.stepped.builder.insertBlock
  low : (c.stepped.builder.code b.insertBlock).length ≤ (b.code b.insertBlock).length

/-- In front of the loop the machine is neither in the body nor behind the loop. -/
theorem not_in_loop (hs : s.builder.Wf) (hblock : m.block = c.stepped.builder.insertBlock) :
    ¬ c.inside.At m ∧ ¬ c.Left m := by
  have hlt := (stepped_spec (c := c) hs).1.insert
  have hloop : c.stepped.builder.nextLabel ≤ c.pre.head.loopBB := (grown_pre hs).labels
  constructor
  · intro hat
    have heq : m.block = c.pre.head.loopBB := hat.block
    omega
  · intro hleft
    have heq : m.block = c.pre.head.loopBB + 1 := hleft
    omega

theorem Ran.emit {b : Builder D} {i : Instr D} {m₀ m' : Machine D W} (hs : s.builder.Wf)
    (hcode : c.Holds code) (h : Ran c device code b m₀ m)
    (hpart : (b.emit i).code b.insertBlock <+: c.final.code b.insertBlock)
    (hexec : m.exec ops device i = some m') (hblock : m'.block = m.block)
    (hindex : m'.index = m.index + 1) : Ran c device code (b.emit i) m₀ m' := by
  have hemit : (b.emit i).code b.insertBlock = b.code b.insertBlock ++ [i] := if_pos rfl
  have hfetch : (code m.block)[m.index]? = some i := by
    obtain ⟨more, hmore⟩ := hpart
    have hlow := h.low
    rw [hemit] at hmore
    rw [h.at_.block, h.at_.index]
    rw [h.insert] at hlow hmore ⊢
    apply hcode.here _ _ hlow
    rw [← hmore]
    simp
  have hpos : m'.block = c.stepped.builder.insertBlock := by rw [hblock, h.at_.block, h.insert]
  obtain ⟨hbody, hleft⟩ := not_in_loop (c := c) hs hpos
  refine ⟨h.quiet.trans (.one ((Machine.step_of_fetch hfetch).trans hexec) hbody hleft),
    ⟨hblock.trans h.at_.block, ?_⟩, h.insert, ?_⟩
  · show m'.index = ((b.emit i).code b.insertBlock).length
    rw [hindex, h.at_.index, hemit, List.length_append]
    rfl
  · show _ ≤ ((b.emit i).code b.insertBlock).length
    rw [hemit, List.length_append]
    exact Nat.le_trans h.low (Nat.le_add_right _ _)

theorem Ran.createFPToSI {b : Builder D} {m₀ : Machine D W} (hs : s.builder.Wf)
    (hcode : c.Holds code) (h : Ran c device code b m₀ m) (src : Operand D)
    (hpart : (b.createFPToSI ops src).2.code b.insertBlock <+: c.final.code b.insertBlock) :
    ∃ m', Ran c device code (b.createFPToSI ops src).2 m₀ m' ∧
      m'.int (b.createFPToSI ops src).1 = ops.fptosi (m.val src) ∧ Machine.Kept b.nextReg m m' := by
  cases src with
  | const x => exact ⟨m, h, rfl, .refl⟩
  | reg r =>
    have hemit := h.emit hs hcode (i := .fptosi b.nextReg (.reg r)) hpart rfl rfl rfl
    exact ⟨_, ⟨hemit.quiet, ⟨hemit.at_.block, hemit.at_.index⟩, hemit.insert, hemit.low⟩,
      if_pos rfl, .setInt (Nat.le_refl _) _⟩

theorem pre_insertBlock (c : ForCode ops varName start end_ step body s) :
    c.pre.builder.insertBlock = c.stepped.builder.insertBlock :=
  (createFPToSI_insert ops c.stepVal _).trans
    ((createFPToSI_insert ops c.endVal _).trans (createFPToSI_insert ops c.startVal _))

/-- What has been emitted on the way to the loop is in its code. -/
theorem part_of_grown (hs : s.builder.Wf) {b : Builder D} (h : b.Grown c.pre.builder)
    (hinsert : b.insertBlock = c.stepped.builder.insertBlock) :
    b.code b.insertBlock <+: c.final.code b.insertBlock := by
  obtain ⟨more, hmore, _⟩ := h.code b.insertBlock
  rw [hinsert, ← pre_insertBlock c] at hmore ⊢
  rw [final_here hs, hmore, List.append_assoc]
  exact List.prefix_append _ _

/-- Bound and step are constants or registers that are older than the loop. -/
theorem pre_below (hs : s.builder.Wf) :
    (∀ r, c.pre.endI64 = .reg r → r < c.pre.head.iv) ∧
      ∀ r, c.pre.stepI64 = .reg r → r < c.pre.head.iv := by
  have hwf := (stepped_spec (c := c) hs).1
  constructor
  · intro r hr
    have hbelow := createFPToSI_below ops c.endVal _ r hr
    have hgrown := createFPToSI_grown ops c.stepVal (.refl (createFPToSI_grown ops c.endVal
      (createFPToSI_grown ops c.startVal (((Builder.Grown.refl hwf).createAlloca).emit
        (i := .store c.startVal c.pre.cell) rfl (List.forall_mem_nil _)))).wf)
    exact Nat.lt_of_lt_of_le hbelow hgrown.regs
  · intro r hr
    exact createFPToSI_below ops c.stepVal _ r hr

/-- The bounds and the step are converted in front of the loop. -/
theorem pre_run (device : Device D W) (hs : s.builder.Wf) (hcode : c.Holds code)
    (hat : c.stepped.builder.At m) : ∃ m', Ran c device code c.pre.builder m m' ∧
      m'.int c.pre.startI64 = ops.fptosi (m.val c.startVal) ∧
      m'.int c.pre.endI64 = ops.fptosi (m.val c.endVal) ∧
      m'.int c.pre.stepI64 = ops.fptosi (m.val c.stepVal) := by
  obtain ⟨hwf, hstart, hend, hstepVal⟩ := stepped_spec (c := c) hs
  let b₁ := c.stepped.builder.createAlloca.2
  let b₂ := b₁.emit (.store c.startVal c.pre.cell)
  let b₃ := (b₂.createFPToSI ops c.startVal).2
  let b₄ := (b₃.createFPToSI ops c.endVal).2
  have hg₁ : c.stepped.builder.Grown b₁ := (Builder.Grown.refl hwf).createAlloca
  have hg₂ : b₁.Grown b₂ := (Builder.Grown.refl hg₁.wf).emit rfl (List.forall_mem_nil _)
  have hg₃ : b₂.Grown b₃ := createFPToSI_grown ops c.startVal (.refl hg₂.wf)
  have hg₄ : b₃.Grown b₄ := createFPToSI_grown ops c.endVal (.refl hg₃.wf)
  have hg₅ : b₄.Grown c.pre.builder := createFPToSI_grown ops c.stepVal (.refl hg₄.wf)
  have hran₀ : Ran c device code c.stepped.builder m m := ⟨.refl, hat, rfl, Nat.le_refl _⟩
  have hpart₁ : b₁.code b₁.insertBlock <+: c.final.code b₁.insertBlock :=
    part_of_grown hs (((hg₂.trans hg₃).trans hg₄).trans hg₅) rfl
  have hemit := hran₀.emit hs hcode (i := .alloca c.pre.cell) hpart₁ rfl rfl rfl
  have hran₁ : Ran c device code b₁ m m.next :=
    ⟨hemit.quiet, ⟨hemit.at_.block, hemit.at_.index⟩, rfl, hemit.low⟩
  have hran₂ := hran₁.emit hs hcode (i := .store c.startVal c.pre.cell)
    (part_of_grown hs ((hg₃.trans hg₄).trans hg₅) rfl) rfl rfl rfl
  have hpart₃ := part_of_grown hs (hg₄.trans hg₅) (createFPToSI_insert ops c.startVal b₂)
  rw [show b₃.insertBlock = b₂.insertBlock from createFPToSI_insert ops c.startVal b₂] at hpart₃
  obtain ⟨m₃, hran₃, hint₃, hkept₃⟩ := hran₂.createFPToSI hs hcode c.startVal hpart₃
  have hpart₄ := part_of_grown hs hg₅ ((createFPToSI_insert ops c.endVal b₃).trans hran₃.insert)
  rw [show b₄.insertBlock = b₃.insertBlock from createFPToSI_insert ops c.endVal b₃] at hpart₄
  obtain ⟨m₄, hran₄, hint₄, hkept₄⟩ := hran₃.createFPToSI hs hcode c.endVal hpart₄
  have hpart₅ := part_of_grown (c := c) hs (.refl hg₅.wf) (pre_insertBlock c)
  rw [show c.pre.builder.insertBlock = b₄.insertBlock from createFPToSI_insert ops c.stepVal b₄]
    at hpart₅
  obtain ⟨m₅, hran₅, hint₅, hkept₅⟩ := hran₄.createFPToSI hs hcode c.stepVal hpart₅
  -- registers that have been handed out are not written again
  have hstored : Machine.Kept b₂.nextReg m (m.next.setCell c.pre.cell (m.next.val c.startVal)) :=
    .of_eq rfl rfl rfl
  have hkept : Machine.Kept b₂.nextReg m m₃ := hstored.trans hkept₃
  have hkept' : Machine.Kept b₂.nextReg m m₄ := hkept.trans (hkept₄.mono hg₃.regs)
  have hregs : c.stepped.builder.nextReg ≤ b₂.nextReg := (hg₁.trans hg₂).regs
  refine ⟨m₅, hran₅, ?_, ?_, ?_⟩
  · have hbelow := createFPToSI_below ops c.startVal b₂
    have hsame := hkept₄.int hbelow
    have hsame' := (hkept₅.mono hg₄.regs).int hbelow
    exact hsame'.trans (hsame.trans hint₃)
  · have hsame := hkept₅.int (createFPToSI_below ops c.endVal b₃)
    rw [hkept.val (Operand.Below.mono hend hregs)] at hint₄
    exact hsame.trans hint₄
  · rw [hkept'.val (Operand.Below.mono hstepVal hregs)] at hint₅
    exact hint₅

theorem entered_run (device : Device D W) (hs : s.builder.Wf) (hcode : c.Holds code)
    (hat : c.stepped.builder.At m) :
    ∃ m', Arrives (Machine.step ops device code) c.inside.At c.Left m m' ∧ c.inside.At m' ∧
      m'.ints c.pre.head.iv = ops.fptosi (m.val c.startVal) ∧
      m'.mem c.pre.cell = ops.sitofp (ops.fptosi (m.val c.startVal)) ∧
      m'.int c.pre.endI64 = ops.fptosi (m.val c.endVal) ∧
      m'.int c.pre.stepI64 = ops.fptosi (m.val c.stepVal) := by
  obtain ⟨m₁, hran, hstart, hend, hstep⟩ := pre_run device hs hcode hat
  have hinsert := pre_insertBlock c
  have hlt := pre_insert (c := c) hs
  have hfetch : (code m₁.block)[m₁.index]? = some (.br c.pre.head.loopBB) := by
    have hhere := final_here (c := c) hs
    have hlow := hran.low
    rw [hran.at_.block, hran.at_.index]
    rw [hinsert] at hhere hlow ⊢
    apply hcode.here _ _ hlow
    rw [hhere]
    simp
  have hstepped : m₁.step ops device code = some (m₁.jump c.pre.head.loopBB) :=
    Machine.step_of_fetch hfetch
  have hbody : ¬ c.inside.At (m₁.jump c.pre.head.loopBB) := by
    intro hat'
    have hlen : (c.inside.code c.inside.insertBlock).length = 3 :=
      congrArg List.length (inside_code hs)
    have hindex : 0 = (c.inside.code c.inside.insertBlock).length := hat'.index
    omega
  have hleft : ¬ c.Left (m₁.jump c.pre.head.loopBB) := by
    intro hafter
    have heq : c.pre.head.loopBB = c.pre.head.loopBB + 1 := hafter
    omega
  have hprev : (m₁.jump c.pre.head.loopBB).prev = c.pre.builder.insertBlock := hran.at_.block
  have hfind : [(c.pre.startI64, c.pre.builder.insertBlock),
      (.reg c.behind.builder.nextReg, c.behind.builder.insertBlock)].find?
        (fun entry => entry.2 == (m₁.jump c.pre.head.loopBB).prev) =
      some (c.pre.startI64, c.pre.builder.insertBlock) := by
    rw [hprev]
    simp
  obtain ⟨m₂, harrives, hat₂, hiv, hmem, hkept⟩ := head_run device hs hcode rfl rfl hfind
  have hjump : Machine.Kept c.pre.head.iv m₁ (m₁.jump c.pre.head.loopBB) := .of_eq rfl rfl rfl
  have hkept' := hjump.trans hkept
  have hvalue : (m₁.jump c.pre.head.loopBB).int c.pre.startI64 = ops.fptosi (m.val c.startVal) :=
    hstart
  obtain ⟨hendBelow, hstepBelow⟩ := pre_below (c := c) hs
  refine ⟨m₂, hran.quiet.arrives (.skip hstepped hbody hleft harrives), hat₂, ?_, ?_, ?_, ?_⟩
  · exact hiv.trans hvalue
  · rw [hmem, hvalue]
  · exact (hkept'.int hendBelow).trans hend
  · exact (hkept'.int hstepBelow).trans hstep

/-! ## The iterations -/

variable (c device code m)

/-- The bounds and the step as the loop takes them. -/
def lower : Int := ops.fptosi (m.val c.startVal)

def upper : Int := ops.fptosi (m.val c.endVal)

def stepI64 : Int := ops.fptosi (m.val c.stepVal)

/-- The body is executed for the `k`-th time in the state `m'`. -/
def Iteration (k : Nat) (m' : Machine D W) : Prop :=
  Visits (Machine.step ops device code) c.inside.At c.Left m k m'

/-- The body is executed for the `k`-th time, with the loop variable at `v`. -/
def Executes (k : Nat) (v : D) : Prop :=
  ∃ m', c.Iteration device code m k m' ∧ m'.mem c.pre.cell = v

/-- Every execution of the body comes to its end. -/
def BodyReturns : Prop :=
  ∀ k m', c.Iteration device code m k m' →
    ∃ m'', Reaches (Machine.step ops device code) m' m'' ∧ c.behind.builder.At m''

/-- No sum that the loop computes leaves the 64 bits. -/
def NoOverflow (lo hi step : Int) : Prop :=
  -2 ^ 63 ≤ lo ∧ ∀ k : Nat, k = 0 ∨ lo + k * step < hi → lo + (k + 1) * step < 2 ^ 63

/-- The state in which the body is executed for the `k`-th time. -/
structure AtIteration (k : Nat) (m' : Machine D W) : Prop where
  at_ : c.inside.At m'
  before : k = 0 ∨ c.lower m + k * c.stepI64 m < c.upper m
  iv : m'.ints c.pre.head.iv = c.lower m + k * c.stepI64 m
  cell : m'.mem c.pre.cell = ops.sitofp (c.lower m + k * c.stepI64 m)
  upper : m'.int c.pre.endI64 = c.upper m
  step : m'.int c.pre.stepI64 = c.stepI64 m

variable {c device code m}

/-- From one execution of the body to the test behind it. -/
theorem AtIteration.test (hs : s.builder.Wf) (hcode : c.Holds code)
    (hstep : 0 ≤ c.stepI64 m) (hover : NoOverflow (c.lower m) (c.upper m) (c.stepI64 m)) {k : Nat}
    {m' : Machine D W} (h : c.AtIteration m k m')
    (hreturns : ∃ m'', Reaches (Machine.step ops device code) m' m'' ∧ c.behind.builder.At m'') :
    ∃ m'', Quiet (Machine.step ops device code) c.inside.At c.Left m' m'' ∧
      m''.ints c.behind.builder.nextReg = c.lower m + (k + 1) * c.stepI64 m ∧
      m''.block = c.behind.builder.insertBlock ∧ Machine.Kept c.inside.nextReg m' m'' ∧
      m''.step ops device code = some (m''.jump
        (if c.lower m + (k + 1) * c.stepI64 m < c.upper m then c.pre.head.loopBB
          else c.pre.head.afterBB)) := by
  have hgrown := grown_behind (c := c) hs
  have hstop : ∀ t : Machine D W, c.Left t →
      ¬ (t.block = c.inside.insertBlock ∨ c.inside.nextLabel ≤ t.block) := by
    intro t hleft hwhere
    have hafter : t.block = c.pre.head.loopBB + 1 := hleft
    have hwhere : t.block = c.pre.head.loopBB ∨ c.pre.head.loopBB + 2 ≤ t.block := hwhere
    omega
  have hinside : Inside c.inside c.behind.builder m' := by
    obtain ⟨more, hsplit, _⟩ := hgrown.code c.inside.insertBlock
    refine ⟨.inl ⟨h.at_.block, Nat.le_of_eq h.at_.index.symm⟩, ?_⟩
    rw [h.at_.block, h.at_.index, hsplit, List.length_append]
    exact Nat.le_add_right _ _
  obtain ⟨t, ⟨n, hsteps⟩, hend⟩ := hreturns
  obtain ⟨m₁, hat₁, hquiet₁, hkept₁⟩ := hinside.run (grown_inside hs).wf hgrown
    (hasPiece hs hcode) hstop hsteps hend
  obtain ⟨m₂, hquiet₂, hnext, hblock, hkept₂, hjump⟩ := test_run device hs hcode hat₁
  obtain ⟨hendBelow, hstepBelow⟩ := pre_below (c := c) hs
  have hkept := hkept₁.trans (hkept₂.mono hgrown.regs)
  have hinsideReg : c.inside.nextReg = c.pre.head.iv + 2 := rfl
  have hiv : m₁.ints c.pre.head.iv = c.lower m + k * c.stepI64 m := by
    rw [hkept₁.ints _ (by omega), h.iv]
  have hstep₁ : m₁.int c.pre.stepI64 = c.stepI64 m := by
    rw [hkept₁.int fun r hr => Nat.lt_of_lt_of_le (hstepBelow r hr) (by omega), h.step]
  have hupper : m₂.int c.pre.endI64 = c.upper m := by
    rw [hkept.int fun r hr => Nat.lt_of_lt_of_le (hendBelow r hr) (by omega), h.upper]
  have hsum : c.lower m + k * c.stepI64 m + c.stepI64 m = c.lower m + (k + 1) * c.stepI64 m := by
    rw [Int.add_mul, Int.one_mul, Int.add_assoc]
  have hnonneg : 0 ≤ ((k : Int) + 1) * c.stepI64 m := Int.mul_nonneg (by omega) hstep
  have hlow := hover.1
  rw [hiv, hstep₁, hsum, wrap64_eq (by omega) (hover.2 k h.before)] at hnext
  refine ⟨m₂, hquiet₁.trans hquiet₂, hnext, hblock.trans hat₁.block, hkept, ?_⟩
  rw [hjump, hnext, hupper]

/-- Below the bound the body is executed again. -/
theorem AtIteration.again (hs : s.builder.Wf) (hcode : c.Holds code)
    (hstep : 0 ≤ c.stepI64 m) (hover : NoOverflow (c.lower m) (c.upper m) (c.stepI64 m)) {k : Nat}
    {m' : Machine D W} (h : c.AtIteration m k m')
    (hreturns : ∃ m'', Reaches (Machine.step ops device code) m' m'' ∧ c.behind.builder.At m'')
    (hmore : c.lower m + (k + 1) * c.stepI64 m < c.upper m) :
    ∃ m'', Arrives (Machine.step ops device code) c.inside.At c.Left m' m'' ∧
      c.AtIteration m (k + 1) m'' := by
  obtain ⟨t, hquiet, hnext, hblock, hkept, hjump⟩ := h.test hs hcode hstep hover hreturns
  rw [if_pos hmore] at hjump
  have hbody : ¬ c.inside.At (t.jump c.pre.head.loopBB) := by
    intro hat
    have hlen : (c.inside.code c.inside.insertBlock).length = 3 :=
      congrArg List.length (inside_code hs)
    have hindex : 0 = (c.inside.code c.inside.insertBlock).length := hat.index
    omega
  have hleft : ¬ c.Left (t.jump c.pre.head.loopBB) := by
    intro hafter
    have heq : c.pre.head.loopBB = c.pre.head.loopBB + 1 := hafter
    omega
  have hprev : (t.jump c.pre.head.loopBB).prev = c.behind.builder.insertBlock := hblock
  have hne : c.pre.builder.insertBlock ≠ c.behind.builder.insertBlock := by
    have hlt := pre_insert (c := c) hs
    have hinsert := behind_insert (c := c) hs
    omega
  have hfind : [(c.pre.startI64, c.pre.builder.insertBlock),
      (.reg c.behind.builder.nextReg, c.behind.builder.insertBlock)].find?
        (fun entry => entry.2 == (t.jump c.pre.head.loopBB).prev) =
      some (.reg c.behind.builder.nextReg, c.behind.builder.insertBlock) := by
    rw [hprev]
    simp [hne]
  obtain ⟨m'', harrives, hat, hiv, hmem, hkept'⟩ := head_run device hs hcode rfl rfl hfind
  have hvalue : (t.jump c.pre.head.loopBB).int (.reg c.behind.builder.nextReg) =
      c.lower m + (k + 1) * c.stepI64 m := hnext
  rw [hvalue] at hiv hmem
  obtain ⟨hendBelow, hstepBelow⟩ := pre_below (c := c) hs
  have hinsideReg : c.inside.nextReg = c.pre.head.iv + 2 := rfl
  have hjumped : Machine.Kept c.pre.head.iv t (t.jump c.pre.head.loopBB) := .of_eq rfl rfl rfl
  have hall : Machine.Kept c.pre.head.iv m' m'' :=
    ((hkept.mono (by omega)).trans hjumped).trans hkept'
  refine ⟨m'', hquiet.arrives (.skip hjump hbody hleft harrives), hat, .inr ?_, ?_, ?_, ?_, ?_⟩
  · rw [Int.natCast_add, Int.natCast_one]
    exact hmore
  · rw [Int.natCast_add, Int.natCast_one]
    exact hiv
  · rw [Int.natCast_add, Int.natCast_one]
    exact hmem
  · exact (hall.int hendBelow).trans h.upper
  · exact (hall.int hstepBelow).trans h.step

/-- Else the loop is left. -/
theorem AtIteration.last (hs : s.builder.Wf) (hcode : c.Holds code)
    (hstep : 0 ≤ c.stepI64 m) (hover : NoOverflow (c.lower m) (c.upper m) (c.stepI64 m)) {k : Nat}
    {m' : Machine D W} (h : c.AtIteration m k m')
    (hreturns : ∃ m'', Reaches (Machine.step ops device code) m' m'' ∧ c.behind.builder.At m'')
    (hmore : ¬ c.lower m + (k + 1) * c.stepI64 m < c.upper m) (m'' : Machine D W) :
    ¬ Arrives (Machine.step ops device code) c.inside.At c.Left m' m'' := by
  obtain ⟨t, hquiet, _, _, _, hjump⟩ := h.test hs hcode hstep hover hreturns
  rw [if_neg hmore] at hjump
  apply hquiet.stopped hjump _ rfl
  intro hat
  have heq : c.pre.head.loopBB + 1 = c.pre.head.loopBB := hat.block
  omega

/-- The iterations of a loop whose step is not negative: a first one, and then as
long as the variable is below the bound. -/
theorem executes_iff (hs : s.builder.Wf) (hcode : c.Holds code) (hat : c.stepped.builder.At m)
    (hreturns : c.BodyReturns device code m) (hstep : 0 ≤ c.stepI64 m)
    (hover : NoOverflow (c.lower m) (c.upper m) (c.stepI64 m)) (k : Nat) (v : D) :
    c.Executes device code m k v ↔ (k = 0 ∨ c.lower m + k * c.stepI64 m < c.upper m) ∧
      v = ops.sitofp (c.lower m + k * c.stepI64 m) := by
  have hfirst : ∃ m', Arrives (Machine.step ops device code) c.inside.At c.Left m m' ∧
      c.AtIteration m 0 m' := by
    obtain ⟨m', harrives, hat', hiv, hmem, hend, hstepped⟩ := entered_run device hs hcode hat
    refine ⟨m', harrives, hat', .inl rfl, ?_, ?_, hend, hstepped⟩
    · rw [hiv]
      simp [lower]
    · rw [hmem]
      simp [lower]
  have hagain : ∀ k m', Visits (Machine.step ops device code) c.inside.At c.Left m k m' →
      c.AtIteration m k m' → c.lower m + (k + 1) * c.stepI64 m < c.upper m →
      ∃ m'', Arrives (Machine.step ops device code) c.inside.At c.Left m' m'' ∧
        c.AtIteration m (k + 1) m'' :=
    fun k m' hvisit hinv hmore => hinv.again hs hcode hstep hover (hreturns k m' hvisit) hmore
  have hlast : ∀ k m', Visits (Machine.step ops device code) c.inside.At c.Left m k m' →
      c.AtIteration m k m' → ¬ c.lower m + (k + 1) * c.stepI64 m < c.upper m →
      ∀ m'', ¬ Arrives (Machine.step ops device code) c.inside.At c.Left m' m'' :=
    fun k m' hvisit hinv hmore => hinv.last hs hcode hstep hover (hreturns k m' hvisit) hmore
  have hrun := visits_of_inv hfirst hagain hlast k
  constructor
  · intro ⟨m', hvisit, hv⟩
    obtain ⟨hinv, _⟩ := hrun.1 m' hvisit
    exact ⟨hinv.before, hv.symm.trans hinv.cell⟩
  · intro ⟨hbefore, hv⟩
    have hall : ∀ j < k, c.lower m + ((j : Int) + 1) * c.stepI64 m < c.upper m := by
      intro j hj
      rcases hbefore with rfl | hlt
      · omega
      · have hle : ((j : Int) + 1) * c.stepI64 m ≤ k * c.stepI64 m :=
          Int.mul_le_mul_of_nonneg_right (by omega) hstep
        omega
    obtain ⟨m', hvisit, hinv⟩ := hrun.2 hall
    exact ⟨m', hvisit, hinv.cell.trans hv.symm⟩

end

end ForCode

end AroundTheWorld.Cairo
