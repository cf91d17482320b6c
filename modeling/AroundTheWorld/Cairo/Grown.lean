import AroundTheWorld.Base.Growth
import AroundTheWorld.Cairo.Codegen

/-!
# What the code generator adds to a function

Code is only added: behind the insertion point and to new blocks, in new
registers, with branches to new blocks. The phi of a loop gets its second entry
when the loop is closed; it is new as well while the loop is generated.
-/

namespace AroundTheWorld.Cairo

open AroundTheWorld.Base AroundTheWorld.Lex AroundTheWorld.Llvm
open AroundTheWorld.Athens (ExprAST FunctionAST PrototypeAST Name)

variable {D : Type}

theorem Instr.addIncoming_dst (reg : Nat) (entry : IntOperand × Nat) (i : Instr D) :
    (i.addIncoming reg entry).dst = i.dst := by
  cases i with
  | phiInt dst incoming =>
    show (if dst = reg then Instr.phiInt dst (incoming ++ [entry])
      else Instr.phiInt dst incoming).dst = some dst
    split <;> rfl
  | _ => rfl

theorem Instr.addIncoming_targets (reg : Nat) (entry : IntOperand × Nat) (i : Instr D) :
    (i.addIncoming reg entry).targets = i.targets := by
  cases i with
  | phiInt dst incoming =>
    show (if dst = reg then Instr.phiInt dst (incoming ++ [entry])
      else Instr.phiInt dst incoming).targets = []
    split <;> rfl
  | _ => rfl

/-- Only the phi that writes the register gets the entry. -/
theorem Instr.addIncoming_of_ne {reg : Nat} {entry : IntOperand × Nat} {i : Instr D}
    (h : i.dst ≠ some reg) : i.addIncoming reg entry = i := by
  cases i with
  | phiInt dst incoming =>
    have hne : dst ≠ reg := fun heq => h (congrArg some heq)
    exact if_neg hne
  | _ => rfl

theorem map_addIncoming_of_lt {reg : Nat} {entry : IntOperand × Nat} {is : List (Instr D)}
    (h : ∀ i ∈ is, ∀ r, i.dst = some r → r < reg) : is.map (Instr.addIncoming reg entry) = is := by
  have hsame : ∀ i ∈ is, i.addIncoming reg entry = i := by
    intro i hi
    apply Instr.addIncoming_of_ne
    intro hdst
    exact Nat.lt_irrefl _ (h i hi reg hdst)
  rw [List.map_congr_left hsame, List.map_id']

namespace Builder

/-- The insertion point is in a block that exists, the others are empty, and what
has been emitted writes registers that have been handed out. -/
structure Wf (b : Builder D) : Prop where
  insert : b.insertBlock < b.nextLabel
  empty : ∀ l, b.nextLabel ≤ l → b.code l = []
  regs : ∀ l, ∀ i ∈ b.code l, ∀ r, i.dst = some r → r < b.nextReg

/-- The instruction writes a register that is new since `b`, and branches to
blocks that are. -/
structure New (b : Builder D) (i : Instr D) : Prop where
  dst : ∀ r, i.dst = some r → b.nextReg ≤ r
  targets : ∀ l ∈ i.targets, b.nextLabel ≤ l

structure Grown (b b' : Builder D) : Prop where
  wf : b'.Wf
  regs : b.nextReg ≤ b'.nextReg
  labels : b.nextLabel ≤ b'.nextLabel
  insert : b'.insertBlock = b.insertBlock ∨ b.nextLabel ≤ b'.insertBlock
  code : ∀ l, ∃ more, b'.code l = b.code l ++ more ∧
    ∀ i ∈ more, (l = b.insertBlock ∨ b.nextLabel ≤ l) ∧ b.New i

namespace Grown

variable {b b' b'' : Builder D}

theorem refl (hb : b.Wf) : Grown b b :=
  ⟨hb, Nat.le_refl _, Nat.le_refl _, .inl rfl,
    fun _ => ⟨[], (List.append_nil _).symm, List.forall_mem_nil _⟩⟩

theorem trans (h : Grown b b') (h' : Grown b' b'') : Grown b b'' := by
  have hlabels := h.labels
  refine ⟨h'.wf, Nat.le_trans h.regs h'.regs, Nat.le_trans h.labels h'.labels, ?_, fun l => ?_⟩
  · rcases h'.insert with heq | hle
    · rw [heq]
      exact h.insert
    · exact .inr (by omega)
  · obtain ⟨more, hcode, hmore⟩ := h.code l
    obtain ⟨more', hcode', hmore'⟩ := h'.code l
    refine ⟨more ++ more', by rw [hcode', hcode, List.append_assoc], fun i hi => ?_⟩
    rcases List.mem_append.mp hi with hi | hi
    · exact hmore i hi
    · obtain ⟨hwhere, hnew⟩ := hmore' i hi
      constructor
      · rcases hwhere with rfl | hle
        · exact h.insert
        · exact .inr (by omega)
      · exact ⟨fun r hr => Nat.le_trans h.regs (hnew.dst r hr),
          fun t ht => Nat.le_trans h.labels (hnew.targets t ht)⟩

/-- Other fields than these have no part in it. -/
theorem of_eq (h : Grown b b') (hcode : b''.code = b'.code)
    (hinsert : b''.insertBlock = b'.insertBlock)
    (hlabel : b''.nextLabel = b'.nextLabel) (hreg : b''.nextReg = b'.nextReg) : Grown b b'' := by
  refine ⟨⟨?_, ?_, ?_⟩, ?_, ?_, ?_, ?_⟩
  · rw [hinsert, hlabel]
    exact h.wf.insert
  · rw [hcode, hlabel]
    exact h.wf.empty
  · rw [hcode, hreg]
    exact h.wf.regs
  · rw [hreg]
    exact h.regs
  · rw [hlabel]
    exact h.labels
  · rw [hinsert]
    exact h.insert
  · rw [hcode]
    exact h.code

/-- An instruction at the insertion point, with a register that is handed out by
the same call or before. -/
theorem append (h : Grown b b') {i : Instr D} {n : Nat} (hn : b'.nextReg ≤ n)
    (hi : ∀ r, i.dst = some r → r < n) (hnew : b.New i) :
    Grown b { b'.emit i with nextReg := n } := by
  have hregs := h.regs
  refine ⟨⟨h.wf.insert, fun l hl => ?_, fun l j hj r hr => ?_⟩, by show b.nextReg ≤ n; omega,
    h.labels, h.insert, fun l => ?_⟩
  · have hne : l ≠ b'.insertBlock := by
      have hlt := h.wf.insert
      show l ≠ b'.insertBlock
      have hle : b'.nextLabel ≤ l := hl
      omega
    show (if l = b'.insertBlock then _ else _) = _
    rw [if_neg hne]
    exact h.wf.empty l hl
  · have hj : j ∈ (if l = b'.insertBlock then b'.code l ++ [i] else b'.code l) := hj
    have hcase : j ∈ b'.code l ∨ j = i := by
      split at hj
      · simpa using hj
      · exact .inl hj
    rcases hcase with hj | rfl
    · exact Nat.lt_of_lt_of_le (h.wf.regs l j hj r hr) hn
    · exact hi r hr
  · obtain ⟨more, hcode, hmore⟩ := h.code l
    show ∃ more, (if l = b'.insertBlock then b'.code l ++ [i] else b'.code l) = b.code l ++ more ∧ _
    by_cases hl : l = b'.insertBlock
    · refine ⟨more ++ [i], by rw [if_pos hl, hcode, List.append_assoc], fun j hj => ?_⟩
      rcases List.mem_append.mp hj with hj | hj
      · exact hmore j hj
      · obtain rfl := List.mem_singleton.mp hj
        exact ⟨by rw [hl]; exact h.insert, hnew⟩
    · exact ⟨more, by rw [if_neg hl, hcode], hmore⟩

theorem emit (h : Grown b b') {i : Instr D} (hi : i.dst = none)
    (htargets : ∀ l ∈ i.targets, b.nextLabel ≤ l) : Grown b (b'.emit i) :=
  h.append (Nat.le_refl _) (fun r hr => by rw [hi] at hr; cases hr)
    { dst := fun r hr => by rw [hi] at hr; cases hr
      targets := htargets }

theorem emitReg (h : Grown b b') {i : Nat → Instr D} (hi : ∀ r, (i r).dst = some r)
    (htargets : ∀ r, (i r).targets = []) : Grown b (b'.emitReg i).2 := by
  refine h.append (Nat.le_succ _) (fun r hr => ?_) ⟨fun r hr => ?_, fun l hl => ?_⟩
  · rw [hi] at hr
    obtain rfl := Option.some.inj hr
    exact Nat.lt_succ_self _
  · rw [hi] at hr
    obtain rfl := Option.some.inj hr
    exact h.regs
  · rw [htargets] at hl
    cases hl

theorem createBlock (h : Grown b b') : Grown b b'.createBlock.2 :=
  ⟨⟨Nat.lt_succ_of_lt h.wf.insert, fun l hl => h.wf.empty l (Nat.le_of_succ_le hl), h.wf.regs⟩,
    h.regs, Nat.le_succ_of_le h.labels, h.insert, h.code⟩

theorem setInsertPoint (h : Grown b b') {l : Nat} (hl : b.nextLabel ≤ l) (hl' : l < b'.nextLabel) :
    Grown b (b'.setInsertPoint l) :=
  ⟨⟨hl', h.wf.empty, h.wf.regs⟩, h.regs, h.labels, .inr hl, h.code⟩

theorem createAlloca (h : Grown b b') : Grown b b'.createAlloca.2 := by
  have hemit : Grown b (b'.emit (.alloca ⟨b'.function, b'.nextCell⟩)) :=
    h.emit rfl (List.forall_mem_nil _)
  exact hemit.of_eq rfl rfl rfl rfl

/-- The phi of a loop that is new gets an entry. -/
theorem addIncoming (hb : b.Wf) (h : Grown b b') {reg : Nat} (hreg : b.nextReg ≤ reg)
    (entry : IntOperand × Nat) : Grown b (b'.addIncoming reg entry) := by
  refine ⟨⟨h.wf.insert, fun l hl => ?_, fun l j hj r hr => ?_⟩, h.regs, h.labels,
    h.insert, fun l => ?_⟩
  · show (b'.code l).map _ = []
    rw [h.wf.empty l hl]
    rfl
  · obtain ⟨i, hi, rfl⟩ := List.mem_map.mp hj
    rw [Instr.addIncoming_dst] at hr
    exact h.wf.regs l i hi r hr
  · obtain ⟨more, hcode, hmore⟩ := h.code l
    refine ⟨more.map (Instr.addIncoming reg entry), ?_, fun j hj => ?_⟩
    · show (b'.code l).map _ = _
      rw [hcode, List.map_append, map_addIncoming_of_lt fun i hi r hr =>
        Nat.lt_of_lt_of_le (hb.regs l i hi r hr) hreg]
    · obtain ⟨i, hi, rfl⟩ := List.mem_map.mp hj
      obtain ⟨hwhere, hnew⟩ := hmore i hi
      refine ⟨hwhere, ?_, ?_⟩
      · rw [Instr.addIncoming_dst]
        exact hnew.dst
      · rw [Instr.addIncoming_targets]
        exact hnew.targets

end Grown

end Builder

/-! ## Code that only adds -/

instance builder_growth : Growth (Builder.Wf (D := D)) Builder.Grown :=
  ⟨Builder.Grown.refl, Builder.Grown.trans, Builder.Grown.wf⟩

/-- The code adds to the function, and what it returns satisfies `Q` at its end. -/
abbrev Extends {α : Type} (Q : α → Builder D → Prop) (x : CairoGen D α) : Prop :=
  Gen.Extends Builder.Wf Builder.Grown CairoState.builder Q x

/-- The operand is a constant or a register that has been handed out. -/
def InRegs (v : Operand D) (b : Builder D) : Prop := v.Below b.nextReg

theorem inRegs_lasting : Lasting Builder.Grown (InRegs (D := D)) :=
  fun _ _ _ hgrown hv => Operand.Below.mono hv hgrown.regs

theorem complain_extends {α : Type} (line : Text) (Q : α → Builder D → Prop) :
    Extends Q (complain line) := .failed fun _ => rfl

section
variable {α : Type}

theorem build_extends {f : Builder D → α × Builder D} {Q : α → Builder D → Prop}
    (hf : ∀ b : Builder D, b.Wf → b.Grown (f b).2 ∧ Q (f b).1 (f b).2) : Extends Q (build f) := by
  intro s a s' hwf hrun
  cases hrun
  exact hf s.builder hwf

theorem emitReg_extends {i : Nat → Instr D} (hi : ∀ r, (i r).dst = some r)
    (htargets : ∀ r, (i r).targets = []) : Extends (fun r b => r < b.nextReg) (emitReg i) :=
  build_extends fun b hwf =>
    ⟨(Builder.Grown.refl hwf).emitReg hi htargets, Nat.lt_succ_self b.nextReg⟩

theorem emit_extends {i : Instr D} (hi : i.dst = none) (htargets : i.targets = []) :
    Extends Any (emit i) := by
  intro s a s' hwf hrun
  cases hrun
  refine ⟨(Builder.Grown.refl hwf).emit hi fun l hl => ?_, trivial⟩
  rw [htargets] at hl
  cases hl

/-- An instruction whose register is returned. -/
theorem emitReg_pure_extends {i : Nat → Instr D} (hi : ∀ r, (i r).dst = some r)
    (htargets : ∀ r, (i r).targets = []) :
    Extends InRegs (do
      let reg ← emitReg i
      pure (.reg reg) : CairoGen D (Operand D)) := by
  apply (emitReg_extends hi htargets).carry
  · exact fun _ _ _ hgrown hreg => Nat.lt_of_lt_of_le hreg hgrown.regs
  · exact fun _ => .pure fun _ hreg => hreg

theorem Builder.emitReg_grown {b : Builder D} (hwf : b.Wf) {i : Nat → Instr D}
    (hi : ∀ r, (i r).dst = some r) (htargets : ∀ r, (i r).targets = []) :
    b.Grown (b.emitReg i).2 ∧ InRegs (Operand.reg (b.emitReg i).1 : Operand D) (b.emitReg i).2 :=
  ⟨(Builder.Grown.refl hwf).emitReg hi htargets, Nat.lt_succ_self _⟩

theorem createFBin_extends (ops : IntOps D) (op : FBinOp) (lhs rhs : Operand D) :
    Extends InRegs (build (·.createFBin ops op lhs rhs)) := by
  apply build_extends
  intro b hwf
  unfold Builder.createFBin
  split
  · exact ⟨Builder.Grown.refl hwf, trivial⟩
  · exact Builder.emitReg_grown hwf (i := (.fbin op · lhs rhs)) (fun _ => rfl) fun _ => rfl

theorem createFCmp_grown (ops : IntOps D) (pred : FCmpPred) (lhs rhs : Operand D) {b : Builder D}
    (hwf : b.Wf) : b.Grown (b.createFCmp ops pred lhs rhs).2 := by
  unfold Builder.createFCmp
  split
  · exact Builder.Grown.refl hwf
  · exact (Builder.Grown.refl hwf).emitReg (i := (.fcmp pred · lhs rhs)) (fun _ => rfl) fun _ => rfl

theorem createUIToFP_extends (ops : IntOps D) (flag : Flag) :
    Extends InRegs (build (·.createUIToFP ops flag)) := by
  apply build_extends
  intro b hwf
  unfold Builder.createUIToFP
  split
  · exact ⟨Builder.Grown.refl hwf, trivial⟩
  · exact Builder.emitReg_grown hwf (i := (.uitofp · flag)) (fun _ => rfl) fun _ => rfl

theorem createFPToSI_grown (ops : IntOps D) (src : Operand D) {b b' : Builder D} (h : b.Grown b') :
    b.Grown (b'.createFPToSI ops src).2 := by
  unfold Builder.createFPToSI
  split
  · exact h
  · exact h.emitReg (i := (.fptosi · src)) (fun _ => rfl) fun _ => rfl

theorem createFPToSI_insert (ops : IntOps D) (src : Operand D) (b : Builder D) :
    (b.createFPToSI ops src).2.insertBlock = b.insertBlock := by
  cases src <;> rfl

theorem createFPToSI_below (ops : IntOps D) (src : Operand D) (b : Builder D) (r : Nat)
    (h : (b.createFPToSI ops src).1 = .reg r) : r < (b.createFPToSI ops src).2.nextReg := by
  cases src with
  | const x => cases h
  | reg k =>
    cases h
    exact Nat.lt_succ_self _

theorem createLoad_extends (cell : Owned) :
    Extends InRegs (build (·.createLoad cell) : CairoGen D _) :=
  build_extends fun _ hwf =>
    Builder.emitReg_grown hwf (i := (.load · cell)) (fun _ => rfl) fun _ => rfl

theorem lookupName_extends (name : Name) : Extends Any (lookupName name : CairoGen D _) :=
  .of_same fun _ _ _ hrun => by cases hrun; rfl

theorem bindName_extends (name : Name) (cell : Option Owned) :
    Extends Any (bindName name cell : CairoGen D Unit) :=
  .of_same fun _ _ _ hrun => by cases hrun; rfl

theorem lookupFunction_extends (name : Name) : Extends Any (lookupFunction name : CairoGen D _) :=
  .of_same fun _ _ _ hrun => by cases hrun; rfl

theorem restoreNames_same (olds : List (Name × Option Owned)) {s s' : CairoState D}
    (h : restoreNames olds s = .ok () s') : s'.builder = s.builder := by
  induction olds generalizing s with
  | nil =>
    cases h
    rfl
  | cons p olds ih => exact (ih h).trans rfl

/-! ## Constructs of the generator -/

variable {ops : IntOps D}

theorem genRegisterBuiltin_extends (intrinsic : Text) :
    Extends InRegs (genRegisterBuiltin intrinsic : CairoGen D (Operand D)) := by
  unfold genRegisterBuiltin
  have hdeclare : Extends Any (getOrDeclareIntrinsic intrinsic : CairoGen D Unit) :=
    .of_same fun _ _ _ hrun => by cases hrun; rfl
  apply hdeclare.bind
  intro _
  apply (emitReg_extends (i := (.callIntrinsic · intrinsic)) (fun _ => rfl) fun _ => rfl).bind
  intro val
  exact emitReg_pure_extends (i := (.sitofp · val)) (fun _ => rfl) fun _ => rfl

theorem genElement_extends (name : Name) (ptrIdx : Nat) (elemI64 : IntOperand) :
    Extends Any (genElement name ptrIdx elemI64 : CairoGen D Nat) := by
  unfold genElement
  have hlookup : Extends Any (lookupParam ptrIdx : CairoGen D _) :=
    .of_same fun _ _ _ hrun => by cases hrun; rfl
  apply hlookup.bind
  intro param
  cases param with
  | none => exact complain_extends _ _
  | some param => exact (emitReg_extends (fun _ => rfl) fun _ => rfl).any

theorem createFPToSI_extends (ops : IntOps D) (src : Operand D) :
    Extends Any (build (·.createFPToSI ops src)) :=
  build_extends fun _ hwf => ⟨createFPToSI_grown ops src (.refl hwf), trivial⟩

/-- Everything in the list adds, and returns an operand. -/
def AllExtend (gens : List (CairoGen D (Operand D))) : Prop := ∀ g ∈ gens, Extends InRegs g

theorem genAll_extends {gens : List (CairoGen D (Operand D))} (h : AllExtend gens) :
    Extends Any (genAll gens) := by
  induction gens with
  | nil => exact .pure fun _ => trivial
  | cons g gens ih =>
    apply (h g (List.mem_cons_self ..)).bind
    intro argVal
    apply (ih fun x hx => h x (List.mem_cons_of_mem _ hx)).bind
    exact fun _ => .pure fun _ => trivial

theorem genLoad_extends (args : List (ExprAST D)) {gens : List (CairoGen D (Operand D))}
    (h : AllExtend gens) : Extends InRegs (genLoad ops args gens) := by
  unfold genLoad
  split
  · rename_i ptrArg _ ptr elem
    cases literalIndex ops ptrArg with
    | none => exact complain_extends _ _
    | some ptrIdx =>
      apply (h elem (by simp)).bind
      intro elemIdx
      apply (createFPToSI_extends ops elemIdx).bind
      intro elemI64
      apply (genElement_extends _ ptrIdx elemI64).bind
      intro ptr
      exact emitReg_pure_extends (i := (.loadPtr · ptr)) (fun _ => rfl) fun _ => rfl
  · exact complain_extends _ _

theorem genStore_extends (args : List (ExprAST D)) {gens : List (CairoGen D (Operand D))}
    (h : AllExtend gens) : Extends InRegs (genStore ops args gens) := by
  unfold genStore
  split
  · rename_i ptrArg _ _ ptr elem val
    cases literalIndex ops ptrArg with
    | none => exact complain_extends _ _
    | some ptrIdx =>
      apply (h elem (by simp)).bind
      intro elemIdx
      apply (createFPToSI_extends ops elemIdx).bind
      intro elemI64
      apply (h val (by simp)).carry inRegs_lasting
      intro val
      apply (genElement_extends _ ptrIdx elemI64).bind
      intro ptr
      exact (emit_extends rfl rfl).bind fun _ => .pure fun _ hval => hval
  · exact complain_extends _ _

theorem genCall_extends (callee : Name) (args : List (ExprAST D))
    {gens : List (CairoGen D (Operand D))} (h : AllExtend gens) :
    Extends InRegs (genCall ops callee args gens) := by
  unfold genCall
  split
  · unfold genBuiltinCall
    cases findRegisterBuiltin callee with
    | some intrinsic => exact genRegisterBuiltin_extends intrinsic
    | none =>
      dsimp only
      split
      · exact genLoad_extends args h
      split
      · exact genStore_extends args h
      · exact .failed fun _ => rfl
  · apply (lookupFunction_extends callee).bind
    intro signature
    cases signature with
    | none => exact complain_extends _ _
    | some signature =>
      apply (genAll_extends h).bind
      intro argVals
      unfold createCall
      split
      · exact emitReg_pure_extends (i := (.call · callee argVals)) (fun _ => rfl) fun _ => rfl
      · exact .failed fun _ => rfl

theorem genAssignment_extends (lhs : ExprAST D) {rhs : CairoGen D (Operand D)}
    (h : Extends InRegs rhs) : Extends InRegs (genAssignment lhs rhs) := by
  cases lhs with
  | null => exact .failed fun _ => rfl
  | variableExpr name =>
    apply h.carry inRegs_lasting
    intro v
    apply (lookupName_extends name).bind
    intro it
    cases it with
    | none => exact complain_extends _ _
    | some cell => exact (emit_extends rfl rfl).bind fun _ => .pure fun _ hv => hv
  | _ => exact complain_extends _ _

theorem binaryOp_extends (op : Byte) (lhs rhs : Operand D) :
    Extends InRegs (binaryOp ops op lhs rhs) := by
  unfold binaryOp
  split
  · exact createFBin_extends ops .fadd lhs rhs
  split
  · exact createFBin_extends ops .fsub lhs rhs
  split
  · exact createFBin_extends ops .fmul lhs rhs
  split
  · have hcmp : Extends Any (build (·.createFCmp ops .ult lhs rhs)) :=
      build_extends fun _ hwf => ⟨createFCmp_grown ops .ult lhs rhs hwf, trivial⟩
    exact hcmp.bind fun cmp => createUIToFP_extends ops cmp
  · exact complain_extends _ _

theorem genUnary_extends (op : Byte) {operand : CairoGen D (Operand D)}
    (h : Extends InRegs operand) : Extends InRegs (genUnary ops op operand) := by
  unfold genUnary
  split
  · exact h.bind fun v => createFBin_extends ops .fsub (.const ops.zero) v
  · exact complain_extends _ _

/-! ## Loops and branches -/

/-- What `genFor` has put in front of the loop: the slot of the variable, the
bounds, and the function so far. -/
structure Preheader (D : Type) where
  cell : Owned
  startI64 : IntOperand
  endI64 : IntOperand
  stepI64 : IntOperand
  builder : Builder D

def preheader (ops : IntOps D) (start end_ step : Operand D) (b : Builder D) : Preheader D :=
  let (cell, b) := b.createAlloca
  let (startI64, b) := (b.emit (.store start cell)).createFPToSI ops start
  let (endI64, b) := b.createFPToSI ops end_
  let (stepI64, b) := b.createFPToSI ops step
  ⟨cell, startI64, endI64, stepI64, b⟩

namespace Preheader

def head (p : Preheader D) : LoopHead where
  loopBB := p.builder.nextLabel
  afterBB := p.builder.nextLabel + 1
  iv := p.builder.nextReg
  stepI64 := p.stepI64
  endI64 := p.endI64

/-- The function where the body begins. -/
def enter (p : Preheader D) : Builder D :=
  let b := ({ p.builder with nextLabel := p.builder.nextLabel + 2 }.emit
    (.br p.builder.nextLabel)).setInsertPoint p.builder.nextLabel
  let (iv, b) := b.emitReg (.phiInt · [(p.startI64, p.builder.insertBlock)])
  let (ivFP, b) := b.emitReg (.sitofp · iv)
  b.emit (.store (.reg ivFP) p.cell)

end Preheader

/-- The function behind the loop, from where the body ends. -/
def LoopHead.leave (head : LoopHead) (b : Builder D) : Builder D :=
  let (nextVal, b) := b.emitReg (.add · (.reg head.iv) head.stepI64)
  let (endCmp, b) := b.emitReg (.icmpSLT · (.reg nextVal) head.endI64)
  let b := b.emit (.condBr (.reg endCmp) head.loopBB head.afterBB)
  (b.addIncoming head.iv (.reg nextVal, b.insertBlock)).setInsertPoint head.afterBB

theorem genLoopHead_run (varName : Name) (start end_ step : Operand D) (s : CairoState D) :
    genLoopHead ops varName start end_ step s =
      .ok (preheader ops start end_ step s.builder).head
        { s with
          builder := (preheader ops start end_ step s.builder).enter
          namedValues := fun k => if k = varName
            then some (preheader ops start end_ step s.builder).cell else s.namedValues k } := rfl

theorem genLoopLatch_run (head : LoopHead) (s : CairoState D) :
    genLoopLatch head s = .ok () { s with builder := head.leave s.builder } := rfl

theorem preheader_grown (ops : IntOps D) (start end_ step : Operand D) {b : Builder D}
    (hwf : b.Wf) :
    b.Grown (preheader ops start end_ step b).builder := by
  have hcell := (Builder.Grown.refl hwf).createAlloca
  have hstore : b.Grown (b.createAlloca.2.emit (.store start b.createAlloca.1)) :=
    hcell.emit rfl (List.forall_mem_nil _)
  exact createFPToSI_grown ops step
    (createFPToSI_grown ops end_ (createFPToSI_grown ops start hstore))

theorem Preheader.enter_grown {p : Preheader D} {b : Builder D} (h : b.Grown p.builder) :
    b.Grown p.enter := by
  have hlabels := h.labels
  have hblocks : b.Grown { p.builder with nextLabel := p.builder.nextLabel + 2 } :=
    h.createBlock.createBlock
  have hbr : b.Grown ({ p.builder with nextLabel := p.builder.nextLabel + 2 }.emit
      (.br p.builder.nextLabel)) := hblocks.emit rfl (List.forall_mem_singleton.mpr hlabels)
  have hloop :=
    hbr.setInsertPoint hlabels (by show p.builder.nextLabel < p.builder.nextLabel + 2; omega)
  have hphi := hloop.emitReg (i := (.phiInt · [(p.startI64, p.builder.insertBlock)]))
    (fun _ => rfl) fun _ => rfl
  have hiv := hphi.emitReg (i := (.sitofp · p.builder.nextReg)) (fun _ => rfl) fun _ => rfl
  exact hiv.emit rfl (List.forall_mem_nil _)

theorem LoopHead.leave_grown {head : LoopHead} {b b' : Builder D} (hwf : b.Wf) (h : b.Grown b')
    (hloop : b.nextLabel ≤ head.loopBB) (hafter : b.nextLabel ≤ head.afterBB)
    (hafter' : head.afterBB < b'.nextLabel) (hiv : b.nextReg ≤ head.iv) :
    b.Grown (head.leave b') := by
  have hnext := h.emitReg (i := (.add · (.reg head.iv) head.stepI64)) (fun _ => rfl) fun _ => rfl
  have hcmp := hnext.emitReg (i := (.icmpSLT · (.reg b'.nextReg) head.endI64))
    (fun _ => rfl) fun _ => rfl
  have hbr := hcmp.emit (i := .condBr (.reg (b'.nextReg + 1)) head.loopBB head.afterBB) rfl (by
    intro l hl
    rcases List.mem_cons.mp hl with rfl | hl
    · exact hloop
    · obtain rfl := List.mem_singleton.mp hl
      exact hafter)
  have hphi := Builder.Grown.addIncoming hwf hbr hiv (.reg b'.nextReg, b'.insertBlock)
  exact hphi.setInsertPoint hafter hafter'

theorem genLoop_extends (varName : Name) (start end_ step : Operand D)
    {body : CairoGen D (Operand D)} (h : Extends InRegs body) :
    Extends InRegs (genLoop ops varName start end_ step body) := by
  intro s v s' hwf hrun
  obtain ⟨head, s₁, hhead, hrun⟩ := Gen.bind_ok hrun
  rw [genLoopHead_run] at hhead
  cases hhead
  obtain ⟨_, s₂, hbody, hrun⟩ := Gen.bind_ok hrun
  rw [Gen.bind_of_ok (genLoopLatch_run _ s₂)] at hrun
  cases hrun
  have hpre := preheader_grown ops start end_ step hwf
  have henter := Preheader.enter_grown hpre
  obtain ⟨hgrown, _⟩ := h _ _ _ henter.wf hbody
  have hlabels := hgrown.labels
  have hprelabels := hpre.labels
  refine ⟨LoopHead.leave_grown hwf (henter.trans hgrown) hprelabels ?_ ?_ hpre.regs, trivial⟩
  · show s.builder.nextLabel ≤ (preheader ops start end_ step s.builder).builder.nextLabel + 1
    omega
  · exact hlabels

/-- The function at the start of the first branch, with the labels that follow. -/
def Builder.enterThen (cond : Flag) (b : Builder D) : Builder D :=
  ({ b with nextLabel := b.nextLabel + 3 }.emit
    (.condBr cond b.nextLabel (b.nextLabel + 1))).setInsertPoint b.nextLabel

def Builder.enterElse (thenBB : Nat) (b : Builder D) : Builder D :=
  (b.emit (.br (thenBB + 2))).setInsertPoint (thenBB + 1)

def Builder.merge (thenBB : Nat) (thenVal : Operand D) (thenEnd : Nat) (elseVal : Operand D)
    (b : Builder D) : Nat × Builder D :=
  ((b.emit (.br (thenBB + 2))).setInsertPoint (thenBB + 2)).emitReg
    (.phi · [(thenVal, thenEnd), (elseVal, b.insertBlock)])

section
variable {b b₁ b₂ : Builder D}

theorem Builder.enterThen_grown (hwf : b.Wf) (cond : Flag) : b.Grown (b.enterThen cond) := by
  have hblocks : b.Grown { b with nextLabel := b.nextLabel + 3 } :=
    (Builder.Grown.refl hwf).createBlock.createBlock.createBlock
  have hbr := hblocks.emit (i := .condBr cond b.nextLabel (b.nextLabel + 1)) rfl (by
    intro l hl
    rcases List.mem_cons.mp hl with rfl | hl
    · exact Nat.le_refl _
    · obtain rfl := List.mem_singleton.mp hl
      exact Nat.le_succ _)
  exact hbr.setInsertPoint (Nat.le_refl _) (by show b.nextLabel < b.nextLabel + 3; omega)

theorem Builder.enterElse_grown (h : b.Grown b₁) (hlabels : b.nextLabel + 3 ≤ b₁.nextLabel) :
    b.Grown (b₁.enterElse b.nextLabel) := by
  have hbr := h.emit (i := .br (b.nextLabel + 2)) rfl
    (List.forall_mem_singleton.mpr (Nat.le_add_right _ _))
  exact hbr.setInsertPoint (Nat.le_add_right _ _)
    (by show b.nextLabel + 1 < b₁.nextLabel; omega)

theorem Builder.merge_grown (h : b.Grown b₂) (hlabels : b.nextLabel + 3 ≤ b₂.nextLabel)
    (thenVal : Operand D) (thenEnd : Nat) (elseVal : Operand D) :
    b.Grown (b₂.merge b.nextLabel thenVal thenEnd elseVal).2 := by
  have hbr := h.emit (i := .br (b.nextLabel + 2)) rfl
    (List.forall_mem_singleton.mpr (Nat.le_add_right _ _))
  have hmerge := hbr.setInsertPoint (l := b.nextLabel + 2) (Nat.le_add_right _ _)
    (by show b.nextLabel + 2 < b₂.nextLabel; omega)
  exact hmerge.emitReg (i := (.phi · [(thenVal, thenEnd), (elseVal, b₂.insertBlock)]))
    (fun _ => rfl) fun _ => rfl

end

theorem genIf_run (cond then_ else_ : ExprAST D) :
    gen ops (.ifExpr cond then_ else_) = (do
      let cond ← gen ops cond
      let condCmp ← build (·.createFCmp ops .une cond (.const ops.zero))
      fun s => (gen ops then_ >>= fun thenVal s₁ =>
        (gen ops else_ >>= fun elseVal s₂ => Outcome.ok
            (Operand.reg
              (s₂.builder.merge s.builder.nextLabel thenVal s₁.builder.insertBlock elseVal).1)
            { s₂ with builder :=
              (s₂.builder.merge s.builder.nextLabel thenVal s₁.builder.insertBlock elseVal).2 })
          { s₁ with builder := s₁.builder.enterElse s.builder.nextLabel })
        { s with builder := s.builder.enterThen condCmp }) := by
  rw [gen]
  rfl

theorem genIf_extends {cond then_ else_ : ExprAST D} (hcond : Extends InRegs (gen ops cond))
    (hthen : Extends InRegs (gen ops then_)) (helse : Extends InRegs (gen ops else_)) :
    Extends InRegs (gen ops (.ifExpr cond then_ else_)) := by
  rw [genIf_run]
  apply hcond.bind
  intro c
  have hcmp : Extends Any (build (·.createFCmp ops .une c (.const ops.zero))) :=
    build_extends fun _ hwf => ⟨createFCmp_grown ops .une c _ hwf, trivial⟩
  apply hcmp.bind
  intro cmp s v s' hwf hrun
  obtain ⟨thenVal, s₁, hrun₁, hrun⟩ := Gen.bind_ok hrun
  obtain ⟨elseVal, s₂, hrun₂, hrun⟩ := Gen.bind_ok hrun
  cases hrun
  have henter := Builder.enterThen_grown hwf cmp
  obtain ⟨hgrown₁, _⟩ := hthen _ _ _ henter.wf hrun₁
  have hlabels₁ : s.builder.nextLabel + 3 ≤ s₁.builder.nextLabel := hgrown₁.labels
  have helse' := Builder.enterElse_grown (henter.trans hgrown₁) hlabels₁
  obtain ⟨hgrown₂, _⟩ := helse _ _ _ helse'.wf hrun₂
  have hlabels₂ : s₁.builder.nextLabel ≤ s₂.builder.nextLabel := hgrown₂.labels
  exact ⟨Builder.merge_grown (helse'.trans hgrown₂) (Nat.le_trans hlabels₁ hlabels₂) _ _ _,
    Nat.lt_succ_self _⟩

theorem genBindings_extends {varNames : List (Name × ExprAST D)}
    (hinit : ∀ p ∈ varNames, Extends InRegs (gen ops p.2)) :
    Extends Any (genBindings ops varNames) := by
  induction varNames with
  | nil =>
    rw [genBindings]
    exact .pure fun _ => trivial
  | cons p rest ih =>
    obtain ⟨name, init⟩ := p
    rw [genBindings]
    have hval : Extends Any (if init.isNull then pure (.const ops.zero) else gen ops init) := by
      split
      · exact .pure fun _ => trivial
      · exact (hinit _ (List.mem_cons_self ..)).any
    apply hval.bind
    intro initVal
    have halloca : Extends Any (build (·.createAlloca) : CairoGen D Owned) :=
      build_extends fun _ hwf => ⟨(Builder.Grown.refl hwf).createAlloca, trivial⟩
    apply halloca.bind
    intro alloca
    apply (emit_extends (i := .store initVal alloca) rfl rfl).bind
    intro _
    apply (lookupName_extends name).bind
    intro it
    apply (bindName_extends name _).bind
    intro _
    apply (ih fun q hq => hinit q (List.mem_cons_of_mem _ hq)).bind
    exact fun _ => .pure fun _ => trivial

theorem genArgs_extend {args : List (ExprAST D)} (h : ∀ a ∈ args, Extends InRegs (gen ops a)) :
    AllExtend (genArgs ops args) := by
  induction args with
  | nil => exact List.forall_mem_nil _
  | cons a args ih =>
    intro g hg
    rcases List.mem_cons.mp hg with rfl | hg
    · exact h a (List.mem_cons_self ..)
    · exact ih (fun b hb => h b (List.mem_cons_of_mem _ hb)) g hg

theorem genVar_extends {varNames : List (Name × ExprAST D)} {body : ExprAST D}
    (hinit : ∀ p ∈ varNames, Extends InRegs (gen ops p.2)) (hbody : Extends InRegs (gen ops body)) :
    Extends InRegs (gen ops (.varExpr varNames body)) := by
  rw [gen]
  apply (genBindings_extends hinit).in_scope hbody inRegs_lasting
  · exact fun olds s _ s' hrun => restoreNames_same olds hrun
  · exact fun _ => rfl
  · exact fun _ => rfl

/-- The code generator only adds to the function, and returns an operand of it. -/
theorem gen_extends (ops : IntOps D) (e : ExprAST D) : Extends InRegs (gen ops e) := by
  induction e using ExprAST.induction with
  | null =>
    rw [gen]
    exact .failed fun _ => rfl
  | numberExpr val =>
    rw [gen]
    exact .pure fun _ => trivial
  | variableExpr name =>
    rw [gen]
    apply (lookupName_extends name).bind
    intro it
    cases it with
    | none => exact complain_extends _ _
    | some cell => exact createLoad_extends cell
  | unaryExpr op operand ih =>
    rw [gen]
    exact genUnary_extends op ih
  | binaryExpr op lhs rhs ihl ihr =>
    rw [gen]
    split
    · exact genAssignment_extends lhs ihr
    · apply ihl.attempts ihr fun a b => binaryOp_extends op a b
      · exact fun _ _ => rfl
      · intro l _
        cases l <;> rfl
  | callExpr callee args ih =>
    rw [gen]
    exact genCall_extends callee args (genArgs_extend ih)
  | ifExpr cond then_ else_ ihc iht ihe => exact genIf_extends ihc iht ihe
  | forExpr varName start end_ step body ihstart ihend ihstep ihbody =>
    rw [gen]
    apply ihstart.attempts ihend
    · intro start end_
      have hstep :
          Extends InRegs (if step.isNull then pure (.const ops.zero) else gen ops step) := by
        split
        · exact .pure fun _ => trivial
        · exact ihstep
      exact hstep.bind fun step => genLoop_extends varName start end_ step ihbody
    · exact fun _ _ => rfl
    · intro l _
      cases l <;> rfl
  | varExpr varNames body ihinit ihbody => exact genVar_extends ihinit ihbody

end

end AroundTheWorld.Cairo
