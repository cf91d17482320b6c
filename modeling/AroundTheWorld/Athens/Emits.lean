import AroundTheWorld.Athens.CodegenSpec

/-!
# Code generation only appends

What has been emitted stays: a successful call of `codegen` appends to the
insertion block and to new blocks, and its value is a constant or a register that
has been handed out.
-/

namespace AroundTheWorld.Athens

open AroundTheWorld.Base AroundTheWorld.Lex AroundTheWorld.Llvm

variable {D : Type}

/-- From `s` to `s'` code was appended, and `v` is a value behind it. -/
structure Emitted (s s' : AthensState D) (v : Operand D) : Prop where
  grows : s.builder.Grows s'.builder
  wf : s'.builder.Wf
  below : v.Below s'.builder.nextReg

section
variable {ops : FloatOps D}

theorem binaryOp_emitted {op : Byte} {l r v : Operand D} {s s' : AthensState D}
    (hwf : s.builder.Wf) (h : binaryOp ops op l r s = .ok v s') : Emitted s s' v := by
  rcases binaryOp_ok h with ⟨fop, -, rfl, rfl⟩ | ⟨-, flag, b, hb, rfl, rfl⟩ | ⟨-, -, rfl, m, rfl⟩
  · exact ⟨.createFBin _ _ _ _ _, hwf.createFBin _ _ _ _, Builder.createFBin_below _ _ _ _ _⟩
  · have hb' : b = (Builder.createFCmp ops .ult s.builder l r).2 := congrArg Prod.snd hb
    subst hb'
    exact ⟨(Builder.Grows.createFCmp _ _ _ _ _).trans (.createUIToFP _ _ _),
      (hwf.createFCmp _ _ _ _).createUIToFP _ _, Builder.createUIToFP_below _ _ _⟩
  · exact ⟨(Builder.Grows.emit _ _).trans (.bumpReg _), (hwf.emit _).bumpReg, Nat.lt_succ_self _⟩

theorem codegenOr_emitted {e : ExprAST D} {default : D} {s s' : AthensState D} {v : Operand D}
    (he : ∀ s s' v, s.builder.Wf → codegen ops e s = .ok v s' → Emitted s s' v)
    (hwf : s.builder.Wf) (h : codegenOr ops default e s = .ok v s') : Emitted s s' v := by
  rcases codegenOr_ok h with ⟨-, rfl, rfl⟩ | ⟨-, h⟩
  · exact ⟨.refl _, hwf, trivial⟩
  · exact he s s' v hwf h

theorem codegenArgs_emitted {args : List (ExprAST D)}
    (hargs : ∀ a ∈ args, ∀ s s' v, s.builder.Wf → codegen ops a s = .ok v s' → Emitted s s' v)
    {s s' : AthensState D} {vs : List (Operand D)} (hwf : s.builder.Wf)
    (h : codegenArgs ops args s = .ok vs s') : s.builder.Grows s'.builder ∧ s'.builder.Wf := by
  induction args generalizing s vs with
  | nil =>
    rw [codegenArgs] at h
    cases h
    exact ⟨.refl _, hwf⟩
  | cons arg args ih =>
    obtain ⟨v, s₁, rest, harg, hrest, rfl⟩ := codegenArgs_cons_ok h
    have hfirst := hargs arg (by simp) s s₁ v hwf harg
    have hothers := ih (fun a ha => hargs a (by simp [ha])) hfirst.wf hrest
    exact ⟨hfirst.grows.trans hothers.1, hothers.2⟩

theorem codegenBindings_emitted {varNames : List (Name × ExprAST D)}
    (hinits : ∀ b ∈ varNames, ∀ s s' v, s.builder.Wf → codegen ops b.2 s = .ok v s' →
      Emitted s s' v) {s s' : AthensState D} {olds : List (Option Nat)} (hwf : s.builder.Wf)
    (h : codegenBindings ops varNames s = .ok olds s') :
    s.builder.Grows s'.builder ∧ s'.builder.Wf := by
  induction varNames generalizing s olds with
  | nil =>
    rw [codegenBindings] at h
    cases h
    exact ⟨.refl _, hwf⟩
  | cons b rest ih =>
    obtain ⟨y, init⟩ := b
    obtain ⟨initVal, s₁, olds', hinit, hrest, rfl⟩ := codegenBindings_cons_ok h
    have hfirst := codegenOr_emitted (hinits (y, init) (by simp)) hwf hinit
    have hothers := ih (fun b hb => hinits b (by simp [hb])) (hfirst.wf.createAlloca.emit _) hrest
    exact ⟨((hfirst.grows.trans (.createAlloca _)).trans (.emit _ _)).trans hothers.1, hothers.2⟩

/-! ## Arms and loops -/

theorem ifHead_wf {b : Builder D Name} (hwf : b.Wf) (flag : Flag) :
    (ifHead b flag).Wf ∧ b.Grows (ifHead b flag) ∧ (ifHead b flag).code b.nextLabel = [] ∧
      (ifHead b flag).Reserved (b.nextLabel + 1) ∧ (ifHead b flag).Reserved (b.nextLabel + 2) := by
  have h₁ := hwf.createBlockIn
  have h₂ := h₁.createBlock
  have h₃ := h₂.createBlock
  have hbr := Builder.Grows.emit b.createBlockIn.2.createBlock.2.createBlock.2
    (.condBr flag b.nextLabel (b.nextLabel + 1))
  have hr := hwf.reserved.grows (.appendBlock _ b.nextLabel)
  have hr₀ := ((hr.grows (.createBlock _)).grows (.createBlock _)).grows hbr
  have hr₁ := (h₁.reserved.grows (.createBlock _)).grows hbr
  have hr₂ := h₂.reserved.grows hbr
  have hgrows := (((Builder.Grows.createBlockIn b).trans (.createBlock _)).trans
    (.createBlock _)).trans hbr
  refine ⟨(h₃.emit _).setInsertPoint hr₀.lt, hgrows.setInsertPoint (Nat.le_refl _), hr₀.empty,
    ?_, ?_⟩
  · exact hr₁.setInsertPoint (Nat.succ_ne_self _)
  · apply hr₂.setInsertPoint
    show b.nextLabel + 1 + 1 ≠ b.nextLabel
    omega

theorem elseHead_wf {b b₂ : Builder D Name} (hwf : b.Wf) {flag : Flag} (hwf₂ : b₂.Wf)
    (h : (ifHead b flag).Grows b₂) : (elseHead b b₂).Wf ∧ b.Grows (elseHead b b₂) ∧
      (elseHead b b₂).code (b.nextLabel + 1) = [] ∧
      (elseHead b b₂).Reserved (b.nextLabel + 2) := by
  obtain ⟨-, hgrows, -, helse, hmerge⟩ := ifHead_wf hwf flag
  have hbr := (h.trans (.emit b₂ (.br (b.nextLabel + 2)))).trans (.appendBlock _ (b.nextLabel + 1))
  have helse' := helse.grows hbr
  refine ⟨((hwf₂.emit _).appendBlock _).setInsertPoint helse'.lt, ?_, helse'.empty, ?_⟩
  · exact (hgrows.trans hbr).setInsertPoint (Nat.le_succ _)
  · exact (hmerge.grows hbr).setInsertPoint (Nat.succ_ne_self _)

/-- The two arms end in different blocks, and the phi stands first in its own. -/
theorem ifMerge_wf {b b₂ b₃ : Builder D Name} (hwf : b.Wf) {flag : Flag} (hwf₂ : b₂.Wf)
    (h : (ifHead b flag).Grows b₂) (hwf₃ : b₃.Wf) (h' : (elseHead b b₂).Grows b₃) :
    (ifMerge b b₃).Wf ∧ b.Grows (ifMerge b b₃) ∧ (ifMerge b b₃).code (b.nextLabel + 2) = [] ∧
      b₂.insertBlock ≠ b₃.insertBlock := by
  obtain ⟨-, hgrows, -, hmerge⟩ := elseHead_wf hwf hwf₂ h
  have hbr := (h'.trans (.emit b₃ (.br (b.nextLabel + 2)))).trans (.appendBlock _ (b.nextLabel + 2))
  have hmerge' := hmerge.grows hbr
  refine ⟨((hwf₃.emit _).appendBlock _).setInsertPoint hmerge'.lt, ?_, hmerge'.empty, ?_⟩
  · exact (hgrows.trans hbr).setInsertPoint (Nat.le_add_right _ 2)
  · have hthen : b₂.insertBlock = b.nextLabel ∨ b.nextLabel + 3 ≤ b₂.insertBlock := h.insert
    have helse : b₃.insertBlock = b.nextLabel + 1 ∨ b₂.nextLabel ≤ b₃.insertBlock := h'.insert
    have hlt := hwf₂.insert_lt
    omega

theorem forHead_wf {b : Builder D Name} (hwf : b.Wf) (cell : Nat) (startVal : Operand D) :
    (forHead b cell startVal).Wf ∧ b.Grows (forHead b cell startVal) ∧
      (forHead b cell startVal).code b.nextLabel = [] := by
  have h₁ := hwf.emit (.store startVal cell)
  have hr := (h₁.reserved.grows (.appendBlock _ b.nextLabel)).grows (.emit _ (.br b.nextLabel))
  have hgrows := ((Builder.Grows.emit b (.store startVal cell)).trans (.createBlockIn _)).trans
    (.emit _ (.br b.nextLabel))
  exact ⟨(h₁.createBlockIn.emit _).setInsertPoint hr.lt, hgrows.setInsertPoint (Nat.le_refl _),
    hr.empty⟩

theorem forEnd_wf {b : Builder D Name} (hwf : b.Wf) (cell : Nat) (next : Operand D) (flag : Flag)
    (loopBB : Nat) : (forEnd b cell next flag loopBB).Wf ∧
      b.Grows (forEnd b cell next flag loopBB) ∧
      (forEnd b cell next flag loopBB).code b.nextLabel = [] := by
  have h₁ := hwf.emit (.store next cell)
  have hr := (h₁.reserved.grows (.appendBlock _ b.nextLabel)).grows
    (.emit _ (.condBr flag loopBB b.nextLabel))
  have hgrows := ((Builder.Grows.emit b (.store next cell)).trans (.createBlockIn _)).trans
    (.emit _ (.condBr flag loopBB b.nextLabel))
  exact ⟨(h₁.createBlockIn.emit _).setInsertPoint hr.lt, hgrows.setInsertPoint (Nat.le_refl _),
    hr.empty⟩

/-- From the end of a loop's last expression to the builder behind the loop. -/
theorem forTail_grows {b b₅ b₆ : Builder D Name} {c loopBB : Nat} {flag : Flag}
    {endV stepVal next : Operand D} (hwf : b.Wf)
    (hb₅ : (flag, b₅) = Builder.createFCmp ops .one b endV (.const ops.zero))
    (hb₆ : (next, b₆) =
      Builder.createFBin ops .fadd (b₅.createLoad c).2 (b₅.createLoad c).1 stepVal) :
    b₆.Wf ∧ b.Grows (forEnd b₆ c next flag loopBB) := by
  have hbuilder₅ : b₅ = _ := congrArg Prod.snd hb₅
  have hbuilder₆ : b₆ = _ := congrArg Prod.snd hb₆
  have hwf₅ : b₅.Wf := hbuilder₅ ▸ hwf.createFCmp _ _ _ _
  have hwf₆ : b₆.Wf := hbuilder₆ ▸ (hwf₅.emit _).bumpReg.createFBin _ _ _ _
  refine ⟨hwf₆, ?_⟩
  calc b.Grows b₅ := hbuilder₅ ▸ .createFCmp _ _ _ _ _
    Builder.Grows _ (b₅.createLoad c).2 := (Builder.Grows.emit _ _).trans (.bumpReg _)
    Builder.Grows _ b₆ := hbuilder₆ ▸ .createFBin _ _ _ _ _
    Builder.Grows _ _ := (forEnd_wf hwf₆ c next flag loopBB).2.1

theorem codegen_emitted (e : ExprAST D) : ∀ s s' v, s.builder.Wf → codegen ops e s = .ok v s' →
    Emitted s s' v := by
  induction e using ExprAST.induction with
  | null =>
    intro s s' v _ h
    exact absurd h codegen_null
  | numberExpr val =>
    intro s s' v hwf h
    obtain ⟨rfl, rfl⟩ := codegen_number_ok h
    exact ⟨.refl _, hwf, trivial⟩
  | variableExpr name =>
    intro s s' v hwf h
    obtain ⟨a, -, rfl, rfl⟩ := codegen_variable_ok h
    exact ⟨(Builder.Grows.emit _ _).trans (.bumpReg _), (hwf.emit _).bumpReg, Nat.lt_succ_self _⟩
  | unaryExpr op operand ih =>
    intro s s' v hwf h
    obtain ⟨operandV, s₁, m, hoperand, rfl, rfl⟩ := codegen_unary_ok h
    have hop := ih s s₁ operandV hwf hoperand
    exact ⟨(hop.grows.trans (.emit _ _)).trans (.bumpReg _), (hop.wf.emit _).bumpReg,
      Nat.lt_succ_self _⟩
  | binaryExpr op lhs rhs ihl ihr =>
    intro s s' v hwf h
    by_cases hop : op = byte '='
    · subst hop
      obtain ⟨name, s₁, cell, -, hrhs, -, rfl⟩ := codegen_assign_ok h
      have hr := ihr s s₁ v hwf hrhs
      exact ⟨hr.grows.trans (.emit _ _), hr.wf.emit _, hr.below⟩
    · obtain ⟨l, s₁, r, s₂, hl, hr, h⟩ := codegen_binary_ok hop h
      have h₁ := ihl s s₁ l hwf hl
      have h₂ := ihr s₁ s₂ r h₁.wf hr
      have h₃ := binaryOp_emitted h₂.wf h
      exact ⟨(h₁.grows.trans h₂.grows).trans h₃.grows, h₃.wf, h₃.below⟩
  | callExpr callee args ih =>
    intro s s' v hwf h
    obtain ⟨m, argsV, s₁, hargs, rfl, rfl⟩ := codegen_call_ok h
    have hwf' : ({ s with theModule := m } : AthensState D).builder.Wf := hwf
    obtain ⟨hgrows, hwf₁⟩ := codegenArgs_emitted ih hwf' hargs
    exact ⟨(hgrows.trans (.emit _ _)).trans (.bumpReg _), (hwf₁.emit _).bumpReg,
      Nat.lt_succ_self _⟩
  | ifExpr cond then_ else_ ihc iht ihe =>
    intro s s' v hwf h
    obtain ⟨condV, s₁, b, flag, thenV, s₂, elseV, s₃, hcond, hb, hthen, helse, rfl, rfl⟩ :=
      codegen_if_ok h
    have h₁ := ihc s s₁ condV hwf hcond
    obtain ⟨hwfb, hgrowsb⟩ : b.Wf ∧ s₁.builder.Grows b := by
      rw [show b = _ from congrArg Prod.snd hb]
      exact ⟨h₁.wf.createFCmp _ _ _ _, .createFCmp _ _ _ _ _⟩
    have h₂ := iht _ _ _ (ifHead_wf hwfb flag).1 hthen
    have h₃ := ihe _ _ _ (elseHead_wf hwfb h₂.wf h₂.grows).1 helse
    obtain ⟨hwf₄, hgrows₄, -, -⟩ := ifMerge_wf hwfb h₂.wf h₂.grows h₃.wf h₃.grows
    refine ⟨?_, (hwf₄.emit _).bumpReg, Nat.lt_succ_self _⟩
    exact (((h₁.grows.trans hgrowsb).trans hgrows₄).trans (.emit _ _)).trans (.bumpReg _)
  | forExpr varName start end_ step body ihs ihe ihst ihb =>
    intro s s' v hwf h
    obtain ⟨startVal, s₁, bodyVal, s₂, stepVal, s₃, endV, s₄, flag, b₅, next, b₆, hstart, hbody,
      hstep, hend, hb₅, hb₆, rfl, rfl⟩ := codegen_for_ok h
    have h₁ := ihs _ _ _ hwf.createAlloca hstart
    obtain ⟨hwf₂, hgrows₂, -⟩ := forHead_wf h₁.wf s.builder.nextCell startVal
    have h₂ := ihb _ _ _ hwf₂ hbody
    have h₃ := codegenOr_emitted ihst h₂.wf hstep
    have h₄ := ihe _ _ _ h₃.wf hend
    obtain ⟨hwf₆, hgrows₆⟩ := forTail_grows h₄.wf hb₅ hb₆
    refine ⟨?_, (forEnd_wf hwf₆ _ _ _ _).1, trivial⟩
    calc s.builder.Grows s.builder.createAlloca.2 := .createAlloca _
      Builder.Grows _ s₁.builder := h₁.grows
      Builder.Grows _ (forHead s₁.builder s.builder.nextCell startVal) := hgrows₂
      Builder.Grows _ s₂.builder := h₂.grows
      Builder.Grows _ s₃.builder := h₃.grows
      Builder.Grows _ s₄.builder := h₄.grows
      Builder.Grows _ _ := hgrows₆
  | varExpr varNames body ihs ihb =>
    intro s s' v hwf h
    obtain ⟨olds, s₁, s₂, hbindings, hbody, hrestore⟩ := codegen_var_ok h
    obtain ⟨t, ht⟩ := restoreNames_ok (varNames.map (·.1)) olds s₂
    rw [ht] at hrestore
    cases hrestore
    obtain ⟨hgrows, hwf₁⟩ := codegenBindings_emitted ihs hwf hbindings
    have hb := ihb s₁ s₂ v hwf₁ hbody
    exact ⟨hgrows.trans hb.grows, hb.wf, hb.below⟩

end

end AroundTheWorld.Athens
