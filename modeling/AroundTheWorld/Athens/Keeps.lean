import AroundTheWorld.Athens.CodegenSpec

/-!
# What code generation leaves alone

Generating an expression never writes `FunctionProtos` or `BinopPrecedence` and
only adds declarations to the module, whether it succeeds or fails. The only
failed assertion that depends on these tables is that of `BinaryExprAST::codegen`,
for an operator that has no function.
-/

namespace AroundTheWorld.Athens

open AroundTheWorld.Base AroundTheWorld.Lex AroundTheWorld.Llvm

variable {D α : Type}

/-! ## The binary operators of an expression -/

mutual

/-- Those that `BinaryExprAST::codegen` may be called on. -/
def ExprAST.binaryOps : ExprAST D → List Byte
  | .null => []
  | .numberExpr _ => []
  | .variableExpr _ => []
  | .unaryExpr _ operand => operand.binaryOps
  | .binaryExpr op lhs rhs => op :: (lhs.binaryOps ++ rhs.binaryOps)
  | .callExpr _ args => binaryOpsArgs args
  | .ifExpr cond then_ else_ => cond.binaryOps ++ (then_.binaryOps ++ else_.binaryOps)
  | .forExpr _ start end_ step body =>
    start.binaryOps ++ (end_.binaryOps ++ (step.binaryOps ++ body.binaryOps))
  | .varExpr varNames body => binaryOpsBindings varNames ++ body.binaryOps

def ExprAST.binaryOpsArgs : List (ExprAST D) → List Byte
  | [] => []
  | arg :: args => arg.binaryOps ++ binaryOpsArgs args

def ExprAST.binaryOpsBindings : List (Name × ExprAST D) → List Byte
  | [] => []
  | (_, init) :: rest => init.binaryOps ++ binaryOpsBindings rest

end

open ExprAST (binaryOps binaryOpsArgs binaryOpsBindings)

/-- The operators with a case of their own in `BinaryExprAST::codegen`. -/
def handledOps : List Byte := [byte '=', byte '+', byte '-', byte '*', byte '<']

/-- `getFunction` finds something. -/
def AthensState.Obtains (s : AthensState D) (name : Name) : Prop :=
  s.theModule name ≠ none ∨ s.functionProtos.find name ≠ none

/-- An operator with code behind it. -/
def AthensState.Backs (s : AthensState D) (op : Byte) : Prop :=
  op ∈ handledOps ∨ s.Obtains (text "binary" ++ [op])

/-- `s` has the tables of `s₀` and all its functions; the others that it has
declared were to be had from a prototype. -/
structure Stable (s₀ s : AthensState D) : Prop where
  functionProtos : s.functionProtos = s₀.functionProtos
  binopPrecedence : s.binopPrecedence = s₀.binopPrecedence
  theModule : ∀ name, s₀.theModule name ≠ none → s.theModule name ≠ none
  declared : ∀ name, s.theModule name ≠ none → s₀.Obtains name

namespace Stable

variable {s₀ s s' : AthensState D}

theorem obtains (h : Stable s₀ s) {name : Name} (hname : s₀.Obtains name) : s.Obtains name := by
  rcases hname with hmodule | hproto
  · exact .inl (h.theModule name hmodule)
  · exact .inr (by rw [h.functionProtos]; exact hproto)

theorem obtains_back (h : Stable s₀ s) {name : Name} (hname : s.Obtains name) :
    s₀.Obtains name := by
  rcases hname with hmodule | hproto
  · exact h.declared name hmodule
  · exact .inr (by rw [← h.functionProtos]; exact hproto)

theorem backs (h : Stable s₀ s) {op : Byte} (hop : s₀.Backs op) : s.Backs op :=
  hop.imp_right h.obtains

/-- Only the builder, the symbol table and the error output have changed. -/
theorem of_eq (h : Stable s₀ s) (hm : s'.theModule = s.theModule)
    (hp : s'.functionProtos = s.functionProtos) (hb : s'.binopPrecedence = s.binopPrecedence) :
    Stable s₀ s' :=
  ⟨hp.trans h.functionProtos, hb.trans h.binopPrecedence, by rw [hm]; exact h.theModule,
    by rw [hm]; exact h.declared⟩

/-- The module has grown by what was to be had. -/
theorem withModule (h : Stable s₀ s) {m : Module} (hm : ∀ k, s.theModule k ≠ none → m k ≠ none)
    (hback : ∀ k, m k ≠ none → s.Obtains k) : Stable s₀ { s with theModule := m } :=
  ⟨h.functionProtos, h.binopPrecedence, fun k hk => hm k (h.theModule k hk),
    fun k hk => h.obtains_back (hback k hk)⟩

end Stable

/-- A prototype that is in the module already is not declared again. -/
theorem PrototypeAST.codegen_eq (p : PrototypeAST) (s : AthensState D) :
    ∃ m, p.codegen s = .ok (setArgNames 0 [] p.args) { s with theModule := m } ∧
      ∀ name, m name ≠ none ↔ s.theModule name ≠ none ∨ name = p.name := by
  unfold PrototypeAST.codegen
  cases hfound : s.theModule p.name with
  | some args =>
    refine ⟨s.theModule, rfl, fun name => ⟨.inl, ?_⟩⟩
    rintro (h | rfl)
    · exact h
    · simp [hfound]
  | none =>
    refine ⟨_, rfl, fun name => ?_⟩
    by_cases hname : name = p.name <;> simp [hname]

/-- `getFunction` answers with a function exactly when there is one. -/
theorem getFunction_eq (name : Name) (s : AthensState D) :
    ∃ r m, getFunction name s = .ok r { s with theModule := m } ∧ (r ≠ none ↔ s.Obtains name) ∧
      (∀ k, s.theModule k ≠ none → m k ≠ none) ∧ ∀ k, m k ≠ none → s.Obtains k := by
  unfold getFunction AthensState.Obtains
  cases hfound : s.theModule name with
  | some args => exact ⟨some args, s.theModule, rfl, by simp, fun _ h => h, fun _ h => .inl h⟩
  | none =>
    cases hproto : s.functionProtos.find name with
    | none => exact ⟨none, s.theModule, rfl, by simp, fun _ h => h, fun _ h => .inl h⟩
    | some p =>
      obtain ⟨m, hcodegen, hm⟩ := p.codegen_eq s
      refine ⟨some (setArgNames 0 [] p.args), m, ?_, by simp, fun k hk => (hm k).mpr (.inl hk), ?_⟩
      · change Gen.bind p.codegen _ s = _
        unfold Gen.bind
        rw [hcodegen]
        rfl
      · intro k hk
        rcases (hm k).mp hk with hk | rfl
        · exact .inl hk
        · exact .inr (by rw [s.functionProtos.named _ _ hproto, hproto]; simp)

/-! ## Invariants of code generation -/

/-- `J` does not depend on the error output and the symbol table, and not on the
builder as long as no call is emitted. Calls go to functions that `Known` speaks of;
`Missing` are the names that `getFunction` may not find. -/
structure CodegenInvariant (J : AthensState D → Prop) (Known : Name → List Name → Prop)
    (Missing : Name → Prop) : Prop where
  errors : ∀ s errors, J s → J { s with errors }
  namedValues : ∀ s namedValues, J s → J { s with namedValues }
  builder : ∀ s b, J s → s.builder.NoNewCall b → J (s.withBuilder b)
  getFunction : ∀ s name r s', J s → getFunction name s = .ok r s' →
    J s' ∧ (∀ params, r = some params → Known name params) ∧ (r = none → Missing name)
  call : ∀ s callee params args, J s → Known callee params → params.length = args.length →
    J (s.withBuilder (s.builder.createCall callee args).2)

section
variable {J : AthensState D → Prop} {Known : Name → List Name → Prop} {Missing : Name → Prop}
  {err : Abort → Prop} (hJ : CodegenInvariant J Known Missing)
include hJ

theorem logErrorV_keeps (str : Text) : Gen.Keeps J err (logErrorV str : AthensGen D α) :=
  fun s hs => hJ.errors s _ hs

theorem build_keeps {f : Builder D Name → α × Builder D Name}
    (hf : ∀ b : Builder D Name, b.NoNewCall (f b).2) : Gen.Keeps J err (build f) :=
  .of_eq (fun _ => rfl) fun s hs => hJ.builder s _ hs (hf s.builder)

theorem buildUnit_keeps {f : Builder D Name → Builder D Name}
    (hf : ∀ b : Builder D Name, b.NoNewCall (f b)) : Gen.Keeps J err (buildUnit f) :=
  .of_eq (fun _ => rfl) fun s hs => hJ.builder s _ hs (hf s.builder)

omit hJ in
theorem getInsertBlock_keeps : Gen.Keeps J err (getInsertBlock : AthensGen D Nat) :=
  .of_eq (fun _ => rfl) fun _ hs => hs

omit hJ in
theorem lookupName_keeps (name : Name) :
    Gen.Keeps J err (lookupName name : AthensGen D (Option Nat)) :=
  .of_eq (fun _ => rfl) fun _ hs => hs

theorem bindName_keeps (name : Name) (cell : Option Nat) :
    Gen.Keeps J err (bindName name cell : AthensGen D Unit) :=
  .of_eq (fun _ => rfl) fun s hs => hJ.namedValues s _ hs

omit hJ in
/-- `getFunction` always answers, and may declare a function. -/
theorem getFunction_answers (name : Name) (s : AthensState D) :
    ∃ r s', getFunction name s = .ok r s' := by
  obtain ⟨r, m, hrun, -⟩ := getFunction_eq name s
  exact ⟨r, _, hrun⟩

/-- What is done with the answer may rely on it. -/
theorem getFunction_bind_keeps {name : Name} {f : Option (List Name) → AthensGen D α}
    (hsome : ∀ params, Known name params → Gen.Keeps J err (f (some params)))
    (hnone : Missing name → Gen.Keeps J err (f none)) :
    Gen.Keeps J err (getFunction name >>= f) := by
  intro s hs
  obtain ⟨r, s', hrun⟩ := getFunction_answers name s
  obtain ⟨hs', hknown, hmissing⟩ := hJ.getFunction s name r s' hs hrun
  rw [Gen.bind_of_ok hrun]
  cases r with
  | some params => exact hsome params (hknown params rfl) s' hs'
  | none => exact hnone (hmissing rfl) s' hs'

omit hJ in
/-- Of every operator `getFunction` finds the function, where it is asked, or a
failed assertion is within `err`. -/
def Answered (Missing : Name → Prop) (err : Abort → Prop) (ops : List Byte) : Prop :=
  ∀ op ∈ ops, op ∈ handledOps ∨ ¬ Missing (text "binary" ++ [op]) ∨ err .binaryOperatorNotFound

omit hJ in
theorem answered_cons {op : Byte} {rest : List Byte} : Answered Missing err (op :: rest) ↔
    (op ∈ handledOps ∨ ¬ Missing (text "binary" ++ [op]) ∨ err .binaryOperatorNotFound) ∧
      Answered Missing err rest := by
  simp [Answered]

omit hJ in
theorem answered_append {xs ys : List Byte} :
    Answered Missing err (xs ++ ys) ↔ Answered Missing err xs ∧ Answered Missing err ys := by
  simp only [Answered, List.forall_mem_append]

omit hJ in
theorem codegenArgs_keeps {ops : FloatOps D} {args : List (ExprAST D)}
    (hargs : ∀ a ∈ args, Answered Missing err a.binaryOps → Gen.Keeps J err (codegen ops a))
    (hops : Answered Missing err (binaryOpsArgs args)) :
    Gen.Keeps J err (codegenArgs ops args) := by
  induction args with
  | nil =>
    rw [codegenArgs]
    exact .pure []
  | cons arg args ih =>
    rw [binaryOpsArgs, answered_append] at hops
    rw [codegenArgs]
    refine (hargs arg (by simp) hops.1).bind fun v => ?_
    exact (ih (fun a ha => hargs a (by simp [ha])) hops.2).bind fun vs => .pure _

omit hJ in
/-- The initialiser of a binding or the step of a loop, which may be null. -/
theorem optional_keeps {ops : FloatOps D} {e : ExprAST D} {default : Operand D}
    (he : Answered Missing err e.binaryOps → Gen.Keeps J err (codegen ops e))
    (hops : Answered Missing err e.binaryOps) :
    Gen.Keeps J err (if e.isNull then pure default else codegen ops e) := by
  split
  · exact .pure _
  · exact he hops

theorem codegenBindings_keeps {ops : FloatOps D} {bs : List (Name × ExprAST D)}
    (hbs : ∀ b ∈ bs, Answered Missing err b.2.binaryOps → Gen.Keeps J err (codegen ops b.2))
    (hops : Answered Missing err (binaryOpsBindings bs)) :
    Gen.Keeps J err (codegenBindings ops bs) := by
  induction bs with
  | nil =>
    rw [codegenBindings]
    exact .pure []
  | cons b bs ih =>
    obtain ⟨varName, init⟩ := b
    rw [binaryOpsBindings, answered_append] at hops
    rw [codegenBindings]
    refine (optional_keeps (hbs (varName, init) (by simp)) hops.1).bind fun initVal => ?_
    refine (build_keeps hJ (by simp)).bind fun alloca =>
      (buildUnit_keeps hJ (by simp)).bind fun _ => ?_
    refine (lookupName_keeps _).bind fun old => (bindName_keeps hJ _ _).bind fun _ => ?_
    exact (ih (fun b hb => hbs b (by simp [hb])) hops.2).bind fun olds => .pure _

theorem restoreNames_keeps (names : List Name) (olds : List (Option Nat)) :
    Gen.Keeps J err (restoreNames names olds : AthensGen D Unit) := by
  induction names generalizing olds with
  | nil => exact .pure ()
  | cons name names ih =>
    cases olds with
    | nil => exact .pure ()
    | cons old olds => exact (bindName_keeps hJ _ _).bind fun _ => ih olds

theorem codegen_if_keeps {ops : FloatOps D} {cond then_ else_ : ExprAST D}
    (hc : Gen.Keeps J err (codegen ops cond)) (ht : Gen.Keeps J err (codegen ops then_))
    (he : Gen.Keeps J err (codegen ops else_)) :
    Gen.Keeps J err (codegen ops (.ifExpr cond then_ else_)) := by
  rw [codegen]
  refine hc.bind fun condV => (build_keeps hJ (by simp)).bind fun flag => ?_
  refine (build_keeps hJ (by simp)).bind fun thenBB =>
    (build_keeps hJ (by simp)).bind fun elseBB => ?_
  refine (build_keeps hJ (by simp)).bind fun mergeBB => ?_
  refine (buildUnit_keeps hJ (by simp)).bind fun _ =>
    (buildUnit_keeps hJ (by simp)).bind fun _ => ?_
  refine ht.bind fun thenV => (buildUnit_keeps hJ (by simp)).bind fun _ => ?_
  refine getInsertBlock_keeps.bind fun thenEnd => (buildUnit_keeps hJ (by simp)).bind fun _ => ?_
  refine (buildUnit_keeps hJ (by simp)).bind fun _ => he.bind fun elseV => ?_
  refine (buildUnit_keeps hJ (by simp)).bind fun _ => getInsertBlock_keeps.bind fun elseEnd => ?_
  refine (buildUnit_keeps hJ (by simp)).bind fun _ =>
    (buildUnit_keeps hJ (by simp)).bind fun _ => ?_
  exact build_keeps hJ (by simp)

theorem codegen_for_keeps {ops : FloatOps D} {varName : Name} {start end_ step body : ExprAST D}
    (hs : Gen.Keeps J err (codegen ops start)) (he : Gen.Keeps J err (codegen ops end_))
    (hst : ∀ default, Gen.Keeps J err (if step.isNull then pure default else codegen ops step))
    (hb : Gen.Keeps J err (codegen ops body)) :
    Gen.Keeps J err (codegen ops (.forExpr varName start end_ step body)) := by
  rw [codegen]
  refine (build_keeps hJ (by simp)).bind fun alloca => hs.bind fun startVal => ?_
  refine (buildUnit_keeps hJ (by simp)).bind fun _ =>
    (build_keeps hJ (by simp)).bind fun loopBB => ?_
  refine (buildUnit_keeps hJ (by simp)).bind fun _ =>
    (buildUnit_keeps hJ (by simp)).bind fun _ => ?_
  refine (lookupName_keeps _).bind fun oldVal => (bindName_keeps hJ _ _).bind fun _ => ?_
  refine hb.bind fun _ => (hst _).bind fun stepVal => he.bind fun endV => ?_
  refine (build_keeps hJ (by simp)).bind fun endCond =>
    (build_keeps hJ (by simp)).bind fun curVal => ?_
  refine (build_keeps hJ (by simp)).bind fun nextVar =>
    (buildUnit_keeps hJ (by simp)).bind fun _ => ?_
  refine (build_keeps hJ (by simp)).bind fun afterBB =>
    (buildUnit_keeps hJ (by simp)).bind fun _ => ?_
  exact (buildUnit_keeps hJ (by simp)).bind fun _ => (bindName_keeps hJ _ _).bind fun _ => .pure _

variable (herr : ∀ why, why ≠ Abort.binaryOperatorNotFound → err why)
include herr

theorem createCall_keeps {callee : Name} {params : List Name} (hknown : Known callee params)
    (args : List (Operand D)) : Gen.Keeps J err (createCall callee params args) := by
  unfold createCall
  split
  · rename_i hlen
    exact fun s hs => hJ.call s callee params args hs hknown hlen
  · exact .abort (herr _ (by decide))

theorem handleAssignment_keeps (lhs : ExprAST D) {rhs : AthensGen D (Operand D)}
    (hrhs : Gen.Keeps J err rhs) : Gen.Keeps J err (handleAssignment lhs rhs) := by
  unfold handleAssignment
  split
  · exact logErrorV_keeps hJ _
  · refine hrhs.bind fun val => (lookupName_keeps _).bind fun cell => ?_
    cases cell with
    | none => exact logErrorV_keeps hJ _
    | some cell => exact (buildUnit_keeps hJ (by simp)).bind fun _ => .pure val
  · exact .abort (herr _ (by decide))

/-- The assertion fails only for an operator without a function. -/
theorem binaryOp_keeps {ops : FloatOps D} {op : Byte} (hne : op ≠ byte '=')
    (hop : op ∈ handledOps ∨ ¬ Missing (text "binary" ++ [op]) ∨ err .binaryOperatorNotFound)
    (l r : Operand D) : Gen.Keeps J err (binaryOp ops op l r) := by
  unfold binaryOp
  by_cases hadd : op = byte '+'
  · rw [if_pos hadd]
    exact build_keeps hJ (by simp)
  by_cases hsub : op = byte '-'
  · rw [if_neg hadd, if_pos hsub]
    exact build_keeps hJ (by simp)
  by_cases hmul : op = byte '*'
  · rw [if_neg hadd, if_neg hsub, if_pos hmul]
    exact build_keeps hJ (by simp)
  by_cases hlt : op = byte '<'
  · rw [if_neg hadd, if_neg hsub, if_neg hmul, if_pos hlt]
    exact (build_keeps hJ (by simp)).bind fun _ => build_keeps hJ (by simp)
  rw [if_neg hadd, if_neg hsub, if_neg hmul, if_neg hlt]
  refine getFunction_bind_keeps hJ (fun params hknown => createCall_keeps hJ herr hknown _) ?_
  intro hmissing
  apply Gen.Keeps.abort
  rcases hop with hhandled | hfound | herr'
  · simp [handledOps, hne, hadd, hsub, hmul, hlt] at hhandled
  · exact absurd hmissing hfound
  · exact herr'

/-- Induction on the expression; every call keeps the invariant. -/
theorem CodegenInvariant.codegen (ops : FloatOps D) (e : ExprAST D)
    (hops : Answered Missing err e.binaryOps) : Gen.Keeps J err (Athens.codegen ops e) := by
  induction e using ExprAST.induction with
  | null =>
    rw [Athens.codegen]
    exact .abort (herr _ (by decide))
  | numberExpr val =>
    rw [Athens.codegen]
    exact .pure _
  | variableExpr name =>
    rw [Athens.codegen]
    refine (lookupName_keeps _).bind fun a => ?_
    cases a with
    | none => exact logErrorV_keeps hJ _
    | some a => exact build_keeps hJ (by simp)
  | unaryExpr op operand ih =>
    rw [Athens.codegen]
    refine (ih hops).bind fun operandV => getFunction_bind_keeps hJ ?_ fun _ => logErrorV_keeps hJ _
    exact fun params hknown => createCall_keeps hJ herr hknown _
  | binaryExpr op lhs rhs ihl ihr =>
    rw [binaryOps, answered_cons, answered_append] at hops
    obtain ⟨hop, hl, hr⟩ := hops
    rw [Athens.codegen]
    split
    · exact handleAssignment_keeps hJ herr lhs (ihr hr)
    · rename_i hne
      refine (ihl hl).attempt.bind fun l => (ihr hr).attempt.bind fun r => ?_
      cases l with
      | none => exact .null
      | some l =>
        cases r with
        | none => exact .null
        | some r => exact binaryOp_keeps hJ herr hne hop l r
  | callExpr callee args ih =>
    rw [Athens.codegen]
    refine getFunction_bind_keeps hJ (fun params hknown => ?_) fun _ => logErrorV_keeps hJ _
    change Gen.Keeps _ _ (if params.length ≠ args.length then _ else _)
    split
    · exact logErrorV_keeps hJ _
    · exact (codegenArgs_keeps ih hops).bind fun argsV => createCall_keeps hJ herr hknown _
  | ifExpr cond then_ else_ ihc iht ihe =>
    simp only [binaryOps, answered_append] at hops
    exact codegen_if_keeps hJ (ihc hops.1) (iht hops.2.1) (ihe hops.2.2)
  | forExpr varName start end_ step body ihs ihe ihst ihb =>
    simp only [binaryOps, answered_append] at hops
    obtain ⟨hs, he, hst, hb⟩ := hops
    exact codegen_for_keeps hJ (ihs hs) (ihe he) (fun _ => optional_keeps ihst hst) (ihb hb)
  | varExpr varNames body ihbs ihb =>
    rw [binaryOps, answered_append] at hops
    rw [Athens.codegen]
    refine (codegenBindings_keeps hJ ihbs hops.1).bind fun olds =>
      (ihb hops.2).bind fun bodyVal => ?_
    exact (restoreNames_keeps hJ _ _).bind fun _ => .pure _

end

/-! ## The tables -/

section
variable {s₀ : AthensState D} {err : Abort → Prop}

theorem stable_invariant : CodegenInvariant (Stable s₀) (fun _ _ => True) (¬ s₀.Obtains ·) where
  errors := fun _ _ hs => hs.of_eq rfl rfl rfl
  namedValues := fun _ _ hs => hs.of_eq rfl rfl rfl
  builder := fun _ _ hs _ => hs.of_eq rfl rfl rfl
  getFunction := by
    intro s name r s' hs hrun
    obtain ⟨r', m, hrun', hr, hm, hback⟩ := getFunction_eq name s
    rw [hrun'] at hrun
    cases hrun
    exact ⟨hs.withModule hm hback, by simp, fun hnone h => hr.mpr (hs.obtains h) hnone⟩
  call := fun _ _ _ _ hs _ _ => hs.of_eq rfl rfl rfl

/-- The operators of the expression have functions, or a failed assertion is
within `err`. -/
def Covered (s₀ : AthensState D) (err : Abort → Prop) (ops : List Byte) : Prop :=
  ∀ op ∈ ops, s₀.Backs op ∨ err .binaryOperatorNotFound

/-- Generating an expression keeps the tables. -/
theorem codegen_keeps (herr : ∀ why, why ≠ Abort.binaryOperatorNotFound → err why)
    (ops : FloatOps D) (e : ExprAST D)
    (hops : Covered s₀ err e.binaryOps) :
    Gen.Keeps (Stable s₀) err (codegen ops e) := by
  refine stable_invariant.codegen herr ops e ?_
  intro op hop
  rcases hops op hop with (hhandled | hfound) | herr'
  · exact .inl hhandled
  · exact .inr (.inl (not_not_intro hfound))
  · exact .inr (.inr herr')

end

end AroundTheWorld.Athens
