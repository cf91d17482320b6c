import AroundTheWorld.Athens.Codegen

/-!
# What a call of `codegen` that returns a value has done

One inversion lemma for each kind of expression: the calls on its children with
the states between them, and the builder calls around these. Everything that is
proved about successful code generation starts from here.
-/

namespace AroundTheWorld.Athens

open AroundTheWorld.Base AroundTheWorld.Lex AroundTheWorld.Llvm

variable {D α β : Type}

/-! ## Sequencing -/

/-- The state with another builder. -/
def AthensState.withBuilder (s : AthensState D) (b : Builder D Name) : AthensState D :=
  { s with builder := b }

/-- The state with one name bound anew. -/
def AthensState.withName (s : AthensState D) (name : Name) (cell : Option Nat) : AthensState D :=
  { s with namedValues := fun k => if k = name then cell else s.namedValues k }

@[simp] theorem AthensState.withBuilder_builder (s : AthensState D) (b : Builder D Name) :
    (s.withBuilder b).builder = b := rfl

@[simp] theorem AthensState.withBuilder_namedValues (s : AthensState D) (b : Builder D Name) :
    (s.withBuilder b).namedValues = s.namedValues := rfl

@[simp] theorem AthensState.withName_builder (s : AthensState D) (name : Name)
    (cell : Option Nat) : (s.withName name cell).builder = s.builder := rfl

theorem build_bind (f : Builder D Name → α × Builder D Name) (g : α → AthensGen D β)
    (s : AthensState D) : (build f >>= g) s = g (f s.builder).1 (s.withBuilder (f s.builder).2) :=
  rfl

theorem buildUnit_bind (f : Builder D Name → Builder D Name) (g : Unit → AthensGen D β)
    (s : AthensState D) : (buildUnit f >>= g) s = g () (s.withBuilder (f s.builder)) := rfl

theorem getInsertBlock_bind (g : Nat → AthensGen D β) (s : AthensState D) :
    (getInsertBlock >>= g) s = g s.builder.insertBlock s := rfl

theorem lookupName_bind (name : Name) (g : Option Nat → AthensGen D β) (s : AthensState D) :
    (lookupName name >>= g) s = g (s.namedValues name) s := rfl

theorem bindName_bind (name : Name) (cell : Option Nat) (g : Unit → AthensGen D β)
    (s : AthensState D) : (bindName name cell >>= g) s = g () (s.withName name cell) := rfl

/-- `getFunction` may declare a function and changes nothing else. -/
theorem getFunction_ok {name : Name} {s s' : AthensState D} {r : Option (List Name)}
    (h : getFunction name s = .ok r s') : ∃ m, s' = { s with theModule := m } := by
  unfold getFunction at h
  split at h
  · cases h
    exact ⟨_, rfl⟩
  · split at h
    · obtain ⟨args, s₁, hargs, h⟩ := Gen.bind_ok h
      cases h
      unfold PrototypeAST.codegen at hargs
      split at hargs <;> cases hargs <;> exact ⟨_, rfl⟩
    · cases h
      exact ⟨_, rfl⟩

theorem createCall_ok {callee : Name} {params : List Name} {args : List (Operand D)}
    {s s' : AthensState D} {v : Operand D} (h : createCall callee params args s = .ok v s') :
    v = .reg s.builder.nextReg ∧ s' = s.withBuilder (s.builder.createCall callee args).2 := by
  unfold createCall at h
  split at h
  · cases h
    exact ⟨rfl, rfl⟩
  · cases h

/-- A call behind a `getFunction` that has found something. -/
theorem lookup_call_ok {name : Name} {s s' : AthensState D} {v : Operand D}
    {args : List (Operand D)} {missing : AthensGen D (Operand D)}
    (hmissing : ∀ s v s', missing s ≠ .ok v s')
    (h : (getFunction name >>= fun f => match f with
      | none => missing
      | some params => createCall name params args) s = .ok v s') :
    v = .reg s.builder.nextReg ∧ ∃ m, s' = ({ s with theModule := m }).withBuilder
      (s.builder.createCall name args).2 := by
  obtain ⟨f, s₁, hf, h⟩ := Gen.bind_ok h
  obtain ⟨m, rfl⟩ := getFunction_ok hf
  cases f with
  | none => exact absurd h (hmissing _ _ _)
  | some params =>
    obtain ⟨rfl, rfl⟩ := createCall_ok h
    exact ⟨rfl, m, rfl⟩

/-- The operations that `BinaryExprAST::codegen` has an instruction for. -/
def fbinOpOf (op : Byte) : Option FBinOp :=
  if op = byte '+' then some .fadd
  else if op = byte '-' then some .fsub
  else if op = byte '*' then some .fmul
  else none

theorem binaryOp_ok {ops : FloatOps D} {op : Byte} {l r v : Operand D} {s s' : AthensState D}
    (h : binaryOp ops op l r s = .ok v s') :
    (∃ fop, fbinOpOf op = some fop ∧ v = (Builder.createFBin ops fop s.builder l r).1 ∧
      s' = s.withBuilder (Builder.createFBin ops fop s.builder l r).2) ∨
    (op = byte '<' ∧ ∃ flag b, (flag, b) = Builder.createFCmp ops .ult s.builder l r ∧
      v = (Builder.createUIToFP ops b flag).1 ∧
      s' = s.withBuilder (Builder.createUIToFP ops b flag).2) ∨
    (fbinOpOf op = none ∧ op ≠ byte '<' ∧ v = .reg s.builder.nextReg ∧ ∃ m,
      s' = ({ s with theModule := m }).withBuilder
        (s.builder.createCall (text "binary" ++ [op]) [l, r]).2) := by
  unfold binaryOp at h
  unfold fbinOpOf
  by_cases hadd : op = byte '+'
  · rw [if_pos hadd] at h
    cases h
    exact .inl ⟨.fadd, by rw [if_pos hadd], rfl, rfl⟩
  by_cases hsub : op = byte '-'
  · rw [if_neg hadd, if_pos hsub] at h
    cases h
    exact .inl ⟨.fsub, by rw [if_neg hadd, if_pos hsub], rfl, rfl⟩
  by_cases hmul : op = byte '*'
  · rw [if_neg hadd, if_neg hsub, if_pos hmul] at h
    cases h
    exact .inl ⟨.fmul, by rw [if_neg hadd, if_neg hsub, if_pos hmul], rfl, rfl⟩
  rw [if_neg hadd, if_neg hsub, if_neg hmul] at h ⊢
  by_cases hlt : op = byte '<'
  · rw [if_pos hlt] at h
    cases h
    exact .inr (.inl ⟨hlt, _, _, rfl, rfl, rfl⟩)
  · rw [if_neg hlt] at h
    obtain ⟨hv, m, hs'⟩ := lookup_call_ok (by intro _ _ _ h; cases h) h
    exact .inr (.inr ⟨rfl, hlt, hv, m, hs'⟩)

theorem restoreNames_ok (names : List Name) (olds : List (Option Nat)) (s : AthensState D) :
    ∃ t, restoreNames names olds s = .ok () { s with namedValues := t } := by
  induction names generalizing olds s with
  | nil => cases olds <;> exact ⟨_, rfl⟩
  | cons name names ih =>
    cases olds with
    | nil => exact ⟨_, rfl⟩
    | cons old olds => exact ih olds (s.withName name old)

/-! ## Expressions -/

section
variable {ops : FloatOps D} {s s' : AthensState D} {v : Operand D}

theorem codegen_null : codegen ops (.null : ExprAST D) s ≠ .ok v s' := by
  intro h
  rw [codegen] at h
  cases h

theorem codegen_number_ok {val : D} (h : codegen ops (.numberExpr val) s = .ok v s') :
    v = .const val ∧ s' = s := by
  rw [codegen] at h
  cases h
  exact ⟨rfl, rfl⟩

theorem codegen_variable_ok {name : Name} (h : codegen ops (.variableExpr name) s = .ok v s') :
    ∃ a, s.namedValues name = some a ∧ v = (s.builder.createLoad a).1 ∧
      s' = s.withBuilder (s.builder.createLoad a).2 := by
  rw [codegen, lookupName_bind] at h
  cases ha : s.namedValues name with
  | none =>
    rw [ha] at h
    cases h
  | some a =>
    rw [ha] at h
    cases h
    exact ⟨a, rfl, rfl, rfl⟩

theorem codegen_unary_ok {op : Byte} {operand : ExprAST D}
    (h : codegen ops (.unaryExpr op operand) s = .ok v s') : ∃ operandV s₁ m,
      codegen ops operand s = .ok operandV s₁ ∧ v = .reg s₁.builder.nextReg ∧
      s' = ({ s₁ with theModule := m }).withBuilder
        (s₁.builder.createCall (text "unary" ++ [op]) [operandV]).2 := by
  rw [codegen] at h
  obtain ⟨operandV, s₁, hoperand, h⟩ := Gen.bind_ok h
  obtain ⟨hv, m, hs'⟩ := lookup_call_ok (by intro _ _ _ h; cases h) h
  exact ⟨operandV, s₁, m, hoperand, hv, hs'⟩

theorem codegen_assign_ok {lhs rhs : ExprAST D}
    (h : codegen ops (.binaryExpr (byte '=') lhs rhs) s = .ok v s') : ∃ name s₁ cell,
      lhs = .variableExpr name ∧ codegen ops rhs s = .ok v s₁ ∧ s₁.namedValues name = some cell ∧
      s' = s₁.withBuilder (s₁.builder.createStore v cell) := by
  rw [codegen, if_pos rfl, handleAssignment.eq_def] at h
  cases lhs with
  | variableExpr name =>
    obtain ⟨val, s₁, hrhs, h⟩ := Gen.bind_ok h
    rw [lookupName_bind] at h
    cases hcell : s₁.namedValues name with
    | none =>
      rw [hcell] at h
      cases h
    | some cell =>
      rw [hcell] at h
      cases h
      exact ⟨name, s₁, cell, rfl, hrhs, hcell, rfl⟩
  | _ => cases h

theorem codegen_binary_ok {op : Byte} {lhs rhs : ExprAST D} (hop : op ≠ byte '=')
    (h : codegen ops (.binaryExpr op lhs rhs) s = .ok v s') : ∃ l s₁ r s₂,
      codegen ops lhs s = .ok l s₁ ∧ codegen ops rhs s₁ = .ok r s₂ ∧
      binaryOp ops op l r s₂ = .ok v s' := by
  rw [codegen, if_neg hop] at h
  obtain ⟨l, s₁, hl, h⟩ := Gen.bind_ok h
  obtain ⟨r, s₂, hr, h⟩ := Gen.bind_ok h
  cases l with
  | none => cases h
  | some l =>
    cases r with
    | none => cases h
    | some r => exact ⟨l, s₁, r, s₂, Gen.attempt_some hl, Gen.attempt_some hr, h⟩

theorem codegen_call_ok {callee : Name} {args : List (ExprAST D)}
    (h : codegen ops (.callExpr callee args) s = .ok v s') : ∃ m argsV s₁,
      codegenArgs ops args { s with theModule := m } = .ok argsV s₁ ∧
      v = .reg s₁.builder.nextReg ∧
      s' = s₁.withBuilder (s₁.builder.createCall callee argsV).2 := by
  rw [codegen] at h
  obtain ⟨f, s₁, hf, h⟩ := Gen.bind_ok h
  obtain ⟨m, rfl⟩ := getFunction_ok hf
  cases f with
  | none => cases h
  | some params =>
    simp only at h
    split at h
    · cases h
    · obtain ⟨argsV, s₂, hargs, h⟩ := Gen.bind_ok h
      obtain ⟨rfl, rfl⟩ := createCall_ok h
      exact ⟨m, argsV, s₂, hargs, rfl, rfl⟩

/-- The builder when `IfExprAST::codegen` enters the then arm: `flag` decides, and
the blocks `then`, `else` and `ifcont` are new, in this order. -/
def ifHead (b : Builder D Name) (flag : Flag) : Builder D Name :=
  (b.createBlockIn.2.createBlock.2.createBlock.2.createCondBr flag b.nextLabel
    (b.nextLabel + 1)).setInsertPoint b.nextLabel

/-- The builder when it enters the else arm: `b` had been the builder before the
head, `b₂` is the one behind the then arm. -/
def elseHead (b b₂ : Builder D Name) : Builder D Name :=
  ((b₂.createBr (b.nextLabel + 2)).appendBlock (b.nextLabel + 1)).setInsertPoint (b.nextLabel + 1)

/-- The builder in front of the phi: `b₃` is the one behind the else arm. -/
def ifMerge (b b₃ : Builder D Name) : Builder D Name :=
  ((b₃.createBr (b.nextLabel + 2)).appendBlock (b.nextLabel + 2)).setInsertPoint (b.nextLabel + 2)

theorem codegen_if_ok {cond then_ else_ : ExprAST D}
    (h : codegen ops (.ifExpr cond then_ else_) s = .ok v s') :
    ∃ condV s₁ b flag thenV s₂ elseV s₃, codegen ops cond s = .ok condV s₁ ∧
      (flag, b) = Builder.createFCmp ops .one s₁.builder condV (.const ops.zero) ∧
      codegen ops then_ (s₁.withBuilder (ifHead b flag)) = .ok thenV s₂ ∧
      codegen ops else_ (s₂.withBuilder (elseHead b s₂.builder)) = .ok elseV s₃ ∧
      v = .reg (ifMerge b s₃.builder).nextReg ∧
      s' = s₃.withBuilder ((ifMerge b s₃.builder).createPhi
        [(thenV, s₂.builder.insertBlock), (elseV, s₃.builder.insertBlock)]).2 := by
  rw [codegen] at h
  obtain ⟨condV, s₁, hcond, h⟩ := Gen.bind_ok h
  simp only [build_bind, buildUnit_bind] at h
  obtain ⟨thenV, s₂, hthen, h⟩ := Gen.bind_ok h
  simp only [buildUnit_bind, getInsertBlock_bind] at h
  obtain ⟨elseV, s₃, helse, h⟩ := Gen.bind_ok h
  simp only [buildUnit_bind, getInsertBlock_bind] at h
  cases h
  exact ⟨condV, s₁, _, _, thenV, s₂, elseV, s₃, hcond, rfl, hthen, helse, rfl, rfl⟩

/-- The step of a `for`, or the initialiser of a binding, with its default. -/
def codegenOr (ops : FloatOps D) (default : D) (e : ExprAST D) : AthensGen D (Operand D) :=
  if e.isNull then pure (.const default) else codegen ops e

/-- The builder when `ForExprAST::codegen` enters the loop: the start value is in
the cell of the variable, and the block `loop` is new. -/
def forHead (b : Builder D Name) (cell : Nat) (startVal : Operand D) : Builder D Name :=
  (((b.createStore startVal cell).createBlockIn.2).createBr b.nextLabel).setInsertPoint b.nextLabel

/-- The builder behind the loop: `loopBB` is entered again if `flag` says so. -/
def forEnd (b : Builder D Name) (cell : Nat) (next : Operand D) (flag : Flag) (loopBB : Nat) :
    Builder D Name :=
  (((b.createStore next cell).createBlockIn.2).createCondBr flag loopBB b.nextLabel).setInsertPoint
    b.nextLabel

theorem codegen_for_ok {varName : Name} {start end_ step body : ExprAST D}
    (h : codegen ops (.forExpr varName start end_ step body) s = .ok v s') :
    ∃ startVal s₁ bodyVal s₂ stepVal s₃ endV s₄ flag b₅ next b₆,
      codegen ops start (s.withBuilder s.builder.createAlloca.2) = .ok startVal s₁ ∧
      codegen ops body ((s₁.withBuilder (forHead s₁.builder s.builder.nextCell startVal)).withName
        varName (some s.builder.nextCell)) = .ok bodyVal s₂ ∧
      codegenOr ops ops.unit step s₂ = .ok stepVal s₃ ∧
      codegen ops end_ s₃ = .ok endV s₄ ∧
      (flag, b₅) = Builder.createFCmp ops .one s₄.builder endV (.const ops.zero) ∧
      (next, b₆) = Builder.createFBin ops .fadd (b₅.createLoad s.builder.nextCell).2
        (b₅.createLoad s.builder.nextCell).1 stepVal ∧
      v = .const ops.zero ∧
      s' = (s₄.withBuilder (forEnd b₆ s.builder.nextCell next flag s₁.builder.nextLabel)).withName
        varName (s₁.namedValues varName) := by
  rw [codegen] at h
  simp only [build_bind] at h
  obtain ⟨startVal, s₁, hstart, h⟩ := Gen.bind_ok h
  simp only [build_bind, buildUnit_bind, lookupName_bind, bindName_bind] at h
  obtain ⟨bodyVal, s₂, hbody, h⟩ := Gen.bind_ok h
  obtain ⟨stepVal, s₃, hstep, h⟩ := Gen.bind_ok h
  obtain ⟨endV, s₄, hend, h⟩ := Gen.bind_ok h
  simp only [build_bind, buildUnit_bind, bindName_bind] at h
  cases h
  exact ⟨startVal, s₁, bodyVal, s₂, stepVal, s₃, endV, s₄, _, _, _, _, hstart, hbody, hstep, hend,
    rfl, rfl, rfl, rfl⟩

theorem codegen_var_ok {varNames : List (Name × ExprAST D)} {body : ExprAST D}
    (h : codegen ops (.varExpr varNames body) s = .ok v s') : ∃ olds s₁ s₂,
      codegenBindings ops varNames s = .ok olds s₁ ∧ codegen ops body s₁ = .ok v s₂ ∧
      restoreNames (varNames.map (·.1)) olds s₂ = .ok () s' := by
  rw [codegen] at h
  obtain ⟨olds, s₁, hbindings, h⟩ := Gen.bind_ok h
  obtain ⟨bodyVal, s₂, hbody, h⟩ := Gen.bind_ok h
  obtain ⟨u, s₃, hrestore, h⟩ := Gen.bind_ok h
  cases h
  exact ⟨olds, s₁, s₂, hbindings, hbody, hrestore⟩

theorem codegenArgs_cons_ok {arg : ExprAST D} {args : List (ExprAST D)} {vs : List (Operand D)}
    (h : codegenArgs ops (arg :: args) s = .ok vs s') : ∃ v s₁ rest,
      codegen ops arg s = .ok v s₁ ∧ codegenArgs ops args s₁ = .ok rest s' ∧ vs = v :: rest := by
  rw [codegenArgs] at h
  obtain ⟨v, s₁, harg, h⟩ := Gen.bind_ok h
  obtain ⟨rest, s₂, hargs, h⟩ := Gen.bind_ok h
  cases h
  exact ⟨v, s₁, rest, harg, hargs, rfl⟩

theorem codegenBindings_cons_ok {varName : Name} {init : ExprAST D}
    {rest : List (Name × ExprAST D)} {olds : List (Option Nat)}
    (h : codegenBindings ops ((varName, init) :: rest) s = .ok olds s') : ∃ initVal s₁ olds',
      codegenOr ops ops.zero init s = .ok initVal s₁ ∧
      codegenBindings ops rest ((s₁.withBuilder (s₁.builder.createAlloca.2.createStore initVal
        s₁.builder.nextCell)).withName varName (some s₁.builder.nextCell)) = .ok olds' s' ∧
      olds = s₁.namedValues varName :: olds' := by
  rw [codegenBindings] at h
  obtain ⟨initVal, s₁, hinit, h⟩ := Gen.bind_ok h
  simp only [build_bind, buildUnit_bind, lookupName_bind, bindName_bind] at h
  obtain ⟨olds', s₂, hrest, h⟩ := Gen.bind_ok h
  cases h
  exact ⟨initVal, s₁, olds', hinit, hrest, rfl⟩

theorem codegenOr_ok {default : D} {e : ExprAST D} (h : codegenOr ops default e s = .ok v s') :
    (e.isNull = true ∧ v = .const default ∧ s' = s) ∨
      (e.isNull = false ∧ codegen ops e s = .ok v s') := by
  unfold codegenOr at h
  split at h
  · rename_i hnull
    cases h
    exact .inl ⟨hnull, rfl, rfl⟩
  · rename_i hnull
    exact .inr ⟨by simpa using hnull, h⟩

end

end AroundTheWorld.Athens
