import AroundTheWorld.Base.Growth
import AroundTheWorld.Berlin.MlirGen

/-!
# What Berlin's code generator adds

A generator that succeeds has only appended: to the block where it was started
and to blocks that are new, and it inserts there again in the end.
-/

namespace AroundTheWorld.Mlir

variable {D F : Type}

namespace OpBuilder

/-- Operations go to a block that exists, and the others are empty. -/
structure Wf (b : OpBuilder D F) : Prop where
  insert : ∃ q, b.insertPoint = .atEnd q ∧ q < b.nextBlock
  empty : ∀ k, b.nextBlock ≤ k → b.blocks k = []

structure Grown (b b' : OpBuilder D F) : Prop where
  wf : b'.Wf
  values : b.nextValue ≤ b'.nextValue
  labels : b.nextBlock ≤ b'.nextBlock
  insert : ∀ q, b'.insertPoint = .atEnd q → b.insertPoint = .atEnd q ∨ b.nextBlock ≤ q
  code : ∀ k, ∃ more, b'.blocks k = b.blocks k ++ more ∧
    (more ≠ [] → b.insertPoint = .atEnd k ∨ b.nextBlock ≤ k)

namespace Grown

variable {b b' b'' : OpBuilder D F}

theorem refl (hb : b.Wf) : Grown b b :=
  ⟨hb, Nat.le_refl _, Nat.le_refl _, fun _ h => .inl h,
    fun _ => ⟨[], (List.append_nil _).symm, fun h => absurd rfl h⟩⟩

theorem trans (h : Grown b b') (h' : Grown b' b'') : Grown b b'' := by
  have hlabels := h.labels
  refine ⟨h'.wf, Nat.le_trans h.values h'.values, Nat.le_trans h.labels h'.labels, ?_, ?_⟩
  · intro q hq
    rcases h'.insert q hq with hq | hle
    · exact h.insert q hq
    · exact .inr (by omega)
  · intro k
    obtain ⟨more, hcode, hwhere⟩ := h.code k
    obtain ⟨more', hcode', hwhere'⟩ := h'.code k
    refine ⟨more ++ more', by rw [hcode', hcode, List.append_assoc], fun hne => ?_⟩
    by_cases hnil : more = []
    · have hne' : more' ≠ [] := by
        intro hnil'
        rw [hnil, hnil'] at hne
        exact hne rfl
      rcases hwhere' hne' with hk | hle
      · exact h.insert k hk
      · exact .inr (by omega)
    · exact hwhere hnil

theorem newValue (h : Grown b b') : Grown b b'.newValue.2 :=
  ⟨⟨h.wf.insert, h.wf.empty⟩, Nat.le_succ_of_le h.values, h.labels, h.insert, h.code⟩

theorem newBlock (h : Grown b b') : Grown b b'.newBlock.2 := by
  obtain ⟨q, hq, hlt⟩ := h.wf.insert
  exact ⟨⟨⟨q, hq, Nat.lt_succ_of_lt hlt⟩, fun k hk => h.wf.empty k (Nat.le_of_succ_le hk)⟩,
    h.values, Nat.le_succ_of_le h.labels, h.insert, h.code⟩

theorem setInsertPoint (h : Grown b b') {q : Nat}
    (hq : b.insertPoint = .atEnd q ∨ b.nextBlock ≤ q) (hlt : q < b'.nextBlock) :
    Grown b (b'.setInsertPoint (.atEnd q)) := by
  refine ⟨⟨⟨q, rfl, hlt⟩, h.wf.empty⟩, h.values, h.labels, ?_, h.code⟩
  intro q' heq
  cases heq
  exact hq

/-- Back from a region to where the builder was before. -/
theorem back (hb : b.Wf) (h : Grown b b') : Grown b (b'.setInsertPoint b.insertPoint) := by
  obtain ⟨q, hq, hlt⟩ := hb.insert
  rw [hq]
  exact h.setInsertPoint (.inl hq) (Nat.lt_of_lt_of_le hlt h.labels)

theorem prefix_ (h : Grown b b') (k : Nat) : b.blocks k <+: b'.blocks k := by
  obtain ⟨more, hcode, -⟩ := h.code k
  exact ⟨more, hcode.symm⟩

/-- A block that is not inserted into. -/
theorem untouched (h : Grown b b') {k : Nat} (hlt : k < b.nextBlock)
    (hne : b.insertPoint ≠ .atEnd k) : b'.blocks k = b.blocks k := by
  obtain ⟨more, hcode, hwhere⟩ := h.code k
  have hnil : more = [] := by
    by_contra hmore
    rcases hwhere hmore with hk | hle
    · exact hne hk
    · omega
  rw [hcode, hnil, List.append_nil]

/-- An operation at the insertion point. -/
theorem insert_op (h : Grown b b') {op : Op D F} (hop : b'.insert op = some b'') : Grown b b'' := by
  obtain ⟨q, hq, hlt⟩ := h.wf.insert
  unfold OpBuilder.insert at hop
  rw [hq] at hop
  cases hop
  refine ⟨⟨⟨q, rfl, hlt⟩, fun k hk => ?_⟩, h.values, h.labels,
    fun q' heq => h.insert q' (hq.trans heq), fun k => ?_⟩
  · have hne : k ≠ q := by
      have hle : b'.nextBlock ≤ k := hk
      omega
    show (if k = q then _ else _) = _
    rw [if_neg hne]
    exact h.wf.empty k hk
  · obtain ⟨more, hcode, hwhere⟩ := h.code k
    show ∃ more, (if k = q then b'.blocks k ++ [op] else b'.blocks k) = b.blocks k ++ more ∧ _
    by_cases hk : k = q
    · subst hk
      exact ⟨more ++ [op], by rw [if_pos rfl, hcode, List.append_assoc], fun _ => h.insert k hq⟩
    · exact ⟨more, by rw [if_neg hk, hcode], hwhere⟩

end Grown

end OpBuilder

end AroundTheWorld.Mlir

namespace AroundTheWorld.Berlin

open AroundTheWorld.Base AroundTheWorld.Lex AroundTheWorld.Mlir
open AroundTheWorld.Athens (ExprAST Name)
open AroundTheWorld.Llvm (FloatOps)

variable {D : Type}

/-- The builder adds, and inserts where it did before in the end. -/
def Appends (b b' : OpBuilder D Name) : Prop := b.Grown b' ∧ b'.insertPoint = b.insertPoint

instance builder_growth : Growth (OpBuilder.Wf (D := D) (F := Name)) Appends where
  refl hb := ⟨.refl hb, rfl⟩
  trans h h' := ⟨h.1.trans h'.1, h'.2.trans h.2⟩
  wf h := h.1.wf

/-- The code adds, inserts where it did before in the end, and what it returns
satisfies `Q` then. -/
abbrev Extends {α : Type} (Q : α → OpBuilder D Name → Prop) (x : BerlinGen D α) : Prop :=
  Gen.Extends OpBuilder.Wf Appends BerlinState.builder Q x

/-- The value has been handed out. -/
def InValues (v : Nat) (b : OpBuilder D Name) : Prop := v < b.nextValue

theorem inValues_lasting : Lasting (Appends (D := D)) InValues :=
  fun _ _ _ happends hv => Nat.lt_of_lt_of_le hv happends.1.values

theorem complain_extends {α : Type} (line : Text) (Q : α → OpBuilder D Name → Prop) :
    Extends Q (complain line) := .failed fun _ => rfl

/-! ## Operations -/

theorem createOp_ok {op : Op D Name} {s s' : BerlinState D} (h : createOp op s = .ok () s') :
    ∃ b, s.builder.insert op = some b ∧ s' = { s with builder := b } := by
  unfold createOp at h
  split at h
  · cases h
  · cases h
    exact ⟨_, by assumption, rfl⟩

theorem createOp_extends (op : Op D Name) : Extends Any (createOp op) := by
  intro s _ s' hwf hrun
  obtain ⟨b, hinsert, rfl⟩ := createOp_ok hrun
  have hgrown := (OpBuilder.Grown.refl hwf).insert_op hinsert
  exact ⟨⟨hgrown, (OpBuilder.insert_some hinsert).2.2⟩, trivial⟩

theorem create_extends (op : Nat → Op D Name) : Extends InValues (create op) := by
  intro s v s' hwf hrun
  obtain ⟨dst, s₁, hdst, hrun⟩ := Gen.bind_ok hrun
  cases hdst
  obtain ⟨_, s₂, hop, hrun⟩ := Gen.bind_ok hrun
  cases hrun
  have hnew := (OpBuilder.Grown.refl hwf).newValue
  obtain ⟨⟨hgrown, hinsert⟩, _⟩ := createOp_extends _ _ _ s' hnew.wf hop
  exact ⟨⟨hnew.trans hgrown, hinsert⟩,
    Nat.lt_of_lt_of_le (Nat.lt_succ_self _) hgrown.values⟩

theorem lookupName_extends (name : Name) : Extends Any (lookupName name : BerlinGen D _) :=
  .of_same fun _ _ _ hrun => by cases hrun; rfl

theorem bindName_extends (name : Name) (value : Option Nat) :
    Extends Any (bindName name value : BerlinGen D Unit) :=
  .of_same fun _ _ _ hrun => by cases hrun; rfl

theorem restoreNames_same (olds : List (Name × Option Nat)) {s s' : BerlinState D}
    (h : restoreNames olds s = .ok () s') : s'.builder = s.builder := by
  induction olds generalizing s with
  | nil =>
    cases h
    rfl
  | cons p olds ih => exact (ih h).trans rfl

section
variable {ops : FloatOps D}

theorem binaryOp_extends (op : Byte) (lhs rhs : Nat) :
    Extends InValues (binaryOp op lhs rhs : BerlinGen D Nat) := by
  unfold binaryOp
  split
  · exact create_extends _
  split
  · exact create_extends _
  split
  · exact create_extends _
  split
  · apply (create_extends _).bind
    intro cmp
    apply (create_extends _).bind
    exact fun ext => create_extends _
  · exact complain_extends _ _

theorem unaryOp_extends (op : Byte) (operand : Nat) :
    Extends InValues (unaryOp ops op operand) := by
  unfold unaryOp
  split
  · exact (create_extends _).bind fun zeroVal => create_extends _
  · exact create_extends _

theorem genAssignment_extends (lhs : ExprAST D) {rhs : BerlinGen D Nat} (h : Extends InValues rhs) :
    Extends InValues (genAssignment lhs rhs) := by
  cases lhs with
  | null => exact .failed fun _ => rfl
  | variableExpr name =>
    apply h.carry inValues_lasting
    intro v
    apply (lookupName_extends name).bind
    intro it
    cases it with
    | none => exact complain_extends _ _
    | some memref => exact (createOp_extends _).bind fun _ => .pure fun _ hv => hv
  | _ => exact complain_extends _ _

theorem genArgs_extend {args : List (ExprAST D)} (h : ∀ a ∈ args, Extends InValues (gen ops a)) :
    Extends Any (genArgs ops args) := by
  induction args with
  | nil =>
    rw [genArgs]
    exact .pure fun _ => trivial
  | cons a args ih =>
    rw [genArgs]
    apply (h a (List.mem_cons_self ..)).bind
    intro argVal
    apply (ih fun b hb => h b (List.mem_cons_of_mem _ hb)).bind
    exact fun _ => .pure fun _ => trivial

theorem genBindings_extends {varNames : List (Name × ExprAST D)}
    (hinit : ∀ p ∈ varNames, Extends InValues (gen ops p.2)) :
    Extends Any (genBindings ops varNames) := by
  induction varNames with
  | nil =>
    rw [genBindings]
    exact .pure fun _ => trivial
  | cons p rest ih =>
    obtain ⟨name, init⟩ := p
    rw [genBindings]
    have hval : Extends Any (if init.isNull then defaultF64Zero ops else gen ops init) := by
      split
      · exact (create_extends _).any
      · exact (hinit _ (List.mem_cons_self ..)).any
    apply hval.bind
    intro initVal
    apply (create_extends _).bind
    intro alloca
    apply (createOp_extends _).bind
    intro _
    apply (lookupName_extends name).bind
    intro it
    apply (bindName_extends name _).bind
    intro _
    apply (ih fun q hq => hinit q (List.mem_cons_of_mem _ hq)).bind
    exact fun _ => .pure fun _ => trivial

/-- The value of a `var` is that of its body. -/
theorem genVar_extends {varNames : List (Name × ExprAST D)} {body : ExprAST D}
    (hinit : ∀ p ∈ varNames, Extends InValues (gen ops p.2))
    (hbody : Extends InValues (gen ops body)) :
    Extends InValues (gen ops (.varExpr varNames body)) := by
  rw [gen]
  apply (genBindings_extends hinit).in_scope hbody inValues_lasting
  · exact fun olds s _ s' hrun => restoreNames_same olds hrun
  · exact fun _ => rfl
  · exact fun _ => rfl

/-- Both regions of an `scf.if` are new blocks, and the operation stands in front
of what follows. -/
theorem genIf_extends {cond then_ else_ : ExprAST D} (hcond : Extends InValues (gen ops cond))
    (hthen : Extends InValues (gen ops then_)) (helse : Extends InValues (gen ops else_)) :
    Extends InValues (gen ops (.ifExpr cond then_ else_)) := by
  rw [gen]
  apply hcond.bind
  intro condVal
  apply (create_extends _).bind
  intro zeroVal
  apply (create_extends _).bind
  intro i1 s v s' hwf hrun
  obtain ⟨after, s₁, hafter, hrun⟩ := Gen.bind_ok hrun
  cases hafter
  obtain ⟨thenBlock, s₂, hblock, hrun⟩ := Gen.bind_ok hrun
  cases hblock
  obtain ⟨elseBlock, s₃, hblock, hrun⟩ := Gen.bind_ok hrun
  cases hblock
  have hblocks := ((OpBuilder.Grown.refl hwf).newBlock).newBlock
  obtain ⟨result, s₄, hresult, hrun⟩ := Gen.bind_ok hrun
  obtain ⟨⟨hop, _⟩, hresultVal⟩ := create_extends _ _ _ _ hblocks.wf hresult
  have h₄ := hblocks.trans hop
  have hlabels₄ : s.builder.nextBlock + 2 ≤ s₄.builder.nextBlock := hop.labels
  obtain ⟨_, s₅, hset, hrun⟩ := Gen.bind_ok hrun
  cases hset
  have h₅ := h₄.setInsertPoint (q := s.builder.nextBlock) (.inr (Nat.le_refl _)) (by omega)
  obtain ⟨thenVal, s₆, hrun₆, hrun⟩ := Gen.bind_ok hrun
  obtain ⟨⟨h₆, _⟩, _⟩ := hthen _ _ _ h₅.wf hrun₆
  obtain ⟨_, s₇, hyield, hrun⟩ := Gen.bind_ok hrun
  obtain ⟨⟨h₇, _⟩, _⟩ := createOp_extends _ _ _ _ h₆.wf hyield
  have hto₇ := (h₅.trans h₆).trans h₇
  have hlabels₇ : s₄.builder.nextBlock ≤ s₇.builder.nextBlock := (h₆.trans h₇).labels
  obtain ⟨_, s₈, hset, hrun⟩ := Gen.bind_ok hrun
  cases hset
  have h₈ := hto₇.setInsertPoint (q := s.builder.nextBlock + 1) (.inr (Nat.le_succ _)) (by omega)
  obtain ⟨elseVal, s₉, hrun₉, hrun⟩ := Gen.bind_ok hrun
  obtain ⟨⟨h₉, _⟩, _⟩ := helse _ _ _ h₈.wf hrun₉
  obtain ⟨_, s₁₀, hyield, hrun⟩ := Gen.bind_ok hrun
  obtain ⟨⟨h₁₀, _⟩, _⟩ := createOp_extends _ _ _ _ h₉.wf hyield
  have hall := (h₈.trans h₉).trans h₁₀
  cases hrun
  refine ⟨⟨hall.back hwf, rfl⟩, ?_⟩
  have hvalues : s₄.builder.nextValue ≤ s₁₀.builder.nextValue :=
    Nat.le_trans (h₆.trans h₇).values (h₉.trans h₁₀).values
  exact Nat.lt_of_lt_of_le hresultVal hvalues

/-- The body of an `scf.for` is a new block. -/
theorem genLoop_extends (varName : Name) (startF64 endF64 stepF64 : Nat) {body : BerlinGen D Nat}
    (hbody : Extends InValues body) :
    Extends InValues (genLoop ops varName startF64 endF64 stepF64 body) := by
  unfold genLoop
  apply (create_extends _).bind
  intro startI64
  apply (create_extends _).bind
  intro endI64
  apply (create_extends _).bind
  intro stepI64
  apply (create_extends _).bind
  intro lb
  apply (create_extends _).bind
  intro ub
  apply (create_extends _).bind
  intro step s v s' hwf hrun
  obtain ⟨after, s₁, hafter, hrun⟩ := Gen.bind_ok hrun
  cases hafter
  obtain ⟨bodyBlock, s₂, hblock, hrun⟩ := Gen.bind_ok hrun
  cases hblock
  obtain ⟨iv, s₃, hiv, hrun⟩ := Gen.bind_ok hrun
  cases hiv
  have hnew := ((OpBuilder.Grown.refl hwf).newBlock).newValue
  obtain ⟨_, s₄, hfor, hrun⟩ := Gen.bind_ok hrun
  obtain ⟨⟨h₄, _⟩, _⟩ := createOp_extends _ _ _ _ hnew.wf hfor
  have hto₄ := hnew.trans h₄
  have hlabels₄ : s.builder.nextBlock + 1 ≤ s₄.builder.nextBlock := h₄.labels
  obtain ⟨_, s₅, hset, hrun⟩ := Gen.bind_ok hrun
  cases hset
  have h₅ := hto₄.setInsertPoint (q := s.builder.nextBlock) (.inr (Nat.le_refl _)) (by omega)
  obtain ⟨ivI64, s₆, hrun₆, hrun⟩ := Gen.bind_ok hrun
  obtain ⟨⟨h₆, _⟩, _⟩ := create_extends _ _ _ _ h₅.wf hrun₆
  obtain ⟨ivF64, s₇, hrun₇, hrun⟩ := Gen.bind_ok hrun
  obtain ⟨⟨h₇, _⟩, _⟩ := create_extends _ _ _ _ h₆.wf hrun₇
  obtain ⟨varAlloca, s₈, hrun₈, hrun⟩ := Gen.bind_ok hrun
  obtain ⟨⟨h₈, _⟩, _⟩ := create_extends _ _ _ _ h₇.wf hrun₈
  obtain ⟨_, s₉, hrun₉, hrun⟩ := Gen.bind_ok hrun
  obtain ⟨⟨h₉, _⟩, _⟩ := createOp_extends _ _ _ _ h₈.wf hrun₉
  obtain ⟨saved, s₁₀, hsaved, hrun⟩ := Gen.bind_ok hrun
  cases hsaved
  obtain ⟨_, s₁₁, hbind, hrun⟩ := Gen.bind_ok hrun
  cases hbind
  obtain ⟨bodyVal, s₁₂, hrun₁₂, hrun⟩ := Gen.bind_ok hrun
  obtain ⟨_, s₁₃, hbind, hrun⟩ := Gen.bind_ok hrun
  cases hbind
  cases bodyVal with
  | none => cases hrun
  | some bodyVal =>
    obtain ⟨⟨h₁₂, _⟩, _⟩ := hbody _ _ _ (by exact h₉.wf) (Gen.attempt_some hrun₁₂)
    have hall := ((((h₅.trans h₆).trans h₇).trans h₈).trans h₉).trans h₁₂
    obtain ⟨_, s₁₄, hset, hrun⟩ := Gen.bind_ok hrun
    cases hset
    have hback := hall.back hwf
    obtain ⟨⟨hzero, hinsert⟩, hv⟩ :=
      create_extends (.constant · ops.zero) _ _ _ (by exact hback.wf) hrun
    exact ⟨⟨hback.trans hzero, hinsert⟩, hv⟩

/-- The code generator only adds, and returns a value that has been handed out. -/
theorem gen_extends (ops : FloatOps D) (e : ExprAST D) : Extends InValues (gen ops e) := by
  induction e using ExprAST.induction with
  | null =>
    rw [gen]
    exact .failed fun _ => rfl
  | numberExpr val =>
    rw [gen]
    exact create_extends _
  | variableExpr name =>
    rw [gen]
    apply (lookupName_extends name).bind
    intro it
    cases it with
    | none => exact complain_extends _ _
    | some memref => exact create_extends _
  | unaryExpr op operand ih =>
    rw [gen]
    exact ih.bind fun v => unaryOp_extends op v
  | binaryExpr op lhs rhs ihl ihr =>
    rw [gen]
    split
    · exact genAssignment_extends lhs ihr
    · apply ihl.attempts ihr fun a b => binaryOp_extends op a b
      · exact fun _ _ => rfl
      · intro l _
        cases l <;> rfl
  | callExpr callee args ih =>
    rw [gen]
    exact (genArgs_extend ih).bind fun argVals => create_extends _
  | ifExpr cond then_ else_ ihc iht ihe => exact genIf_extends ihc iht ihe
  | forExpr varName start end_ step body ihstart ihend ihstep ihbody =>
    rw [gen]
    apply ihstart.attempts ihend
    · intro startF64 endF64
      have hstep :
          Extends InValues
            (if step.isNull then create (.constant · ops.unit) else gen ops step) := by
        split
        · exact create_extends _
        · exact ihstep
      exact hstep.bind fun stepF64 => genLoop_extends varName startF64 endF64 stepF64 ihbody
    · exact fun _ _ => rfl
    · intro l _
      cases l <;> rfl
  | varExpr varNames body ihinit ihbody => exact genVar_extends ihinit ihbody

end

end AroundTheWorld.Berlin
