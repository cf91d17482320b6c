import AroundTheWorld.Athens.Arity

/-!
# Which operators run their definitions

`BinaryExprAST::codegen` has cases of its own for five operators, and calls the
function of the operator for every other one. A definition stays in charge of its
operator until its name is given to another prototype.
-/

namespace AroundTheWorld.Athens

open AroundTheWorld.Base AroundTheWorld.Lex AroundTheWorld.Llvm AroundTheWorld.Parse

variable {D : Type}

/-- The function of a binary operator. -/
def operatorName (c : Byte) : Name := text "binary" ++ [c]

/-- `def binary c precedence (l r) body`. -/
def operatorDefinition (c : Byte) (precedence : Nat) (l r : Name) (body : ExprAST D) :
    FunctionAST D :=
  ⟨⟨operatorName c, [l, r], true, precedence⟩, body⟩

/-- The function that an item declares. -/
def Handed.declares : Handed D → Name
  | .definition fnAST => fnAST.proto.name
  | .extern_ protoAST => protoAST.name
  | .expression expr => (anonymousFunction expr).proto.name

/-- The code of `x`, the code of `y`, and a call of `name` with their values. -/
def callsOperator (name : Name) (x y : AthensGen D (Operand D)) : AthensGen D (Operand D) := do
  let l ← Gen.attempt x
  let r ← Gen.attempt y
  match l, r with
  | some l, some r => do
    let _ ← getFunction name
    build (·.createCall name [l, r])
  | _, _ => Gen.null

/-! ## States in which a function can be called -/

/-- The function has a prototype with `n` parameters, and so has its declaration. -/
structure AthensState.Callable (s : AthensState D) (name : Name) (n : Nat) : Prop where
  registered : ∃ p, s.functionProtos.find name = some p ∧ p.args.length = n
  declared : ∀ params, s.theModule name = some params → params.length = n

section
variable {ops : FloatOps D} {s : AthensState D} {name : Name} {n : Nat}

theorem AthensState.Callable.declare (h : s.Callable name n) {k : Name} {params : List Name}
    (hparams : k = name → params.length = n) : AthensState.Callable
      { s with theModule := fun k' => if k' = k then some params else s.theModule k' } name n := by
  refine ⟨h.registered, fun args hargs => ?_⟩
  change (if name = k then some params else s.theModule name) = some args at hargs
  by_cases hk : name = k
  · rw [if_pos hk] at hargs
    cases hargs
    exact hparams hk.symm
  · rw [if_neg hk] at hargs
    exact h.declared args hargs

theorem AthensState.Callable.register (h : s.Callable name n) {p : PrototypeAST}
    (hp : p.name ≠ name) :
    ({ s with functionProtos := s.functionProtos.insert p } : AthensState D).Callable name n := by
  obtain ⟨q, hq, hlen⟩ := h.registered
  refine ⟨⟨q, ?_, hlen⟩, h.declared⟩
  simpa [ProtoTable.insert, Ne.symm hp] using hq

/-- A prototype of the table is declared with its own parameters. -/
theorem PrototypeAST.codegen_callable {p : PrototypeAST} (h : s.Callable name n)
    (hp : p.name = name → p.args.length = n) :
    ∃ s', p.codegen s = .ok (setArgNames 0 [] p.args) s' ∧ s'.Callable name n := by
  unfold PrototypeAST.codegen
  cases s.theModule p.name with
  | some args => exact ⟨s, rfl, h⟩
  | none => exact ⟨_, rfl, h.declare fun hk => by rw [setArgNames_length, hp hk]⟩

theorem getFunction_callable (h : s.Callable name n) (k : Name) : ∃ r s',
    getFunction k s = .ok r s' ∧ s'.Callable name n ∧
      (k = name → ∃ params, r = some params ∧ params.length = n) := by
  unfold getFunction
  cases hmodule : s.theModule k with
  | some args =>
    refine ⟨some args, s, rfl, h, fun hk => ⟨args, rfl, ?_⟩⟩
    exact h.declared args (hk ▸ hmodule)
  | none =>
    cases hproto : s.functionProtos.find k with
    | none =>
      refine ⟨none, s, rfl, h, fun hk => ?_⟩
      obtain ⟨p, hp, -⟩ := h.registered
      rw [hk, hp] at hproto
      cases hproto
    | some p =>
      have hp : p.name = name → p.args.length = n := by
        intro hname
        obtain ⟨q, hq, hlen⟩ := h.registered
        rw [← hname, s.functionProtos.named k p hproto, hproto] at hq
        cases hq
        exact hlen
      obtain ⟨s', hcodegen, hs'⟩ := p.codegen_callable h hp
      refine ⟨some (setArgNames 0 [] p.args), s', ?_, hs', fun hk => ⟨_, rfl, ?_⟩⟩
      · exact Gen.bind_of_ok hcodegen
      · rw [setArgNames_length]
        exact hp ((s.functionProtos.named k p hproto).trans hk)

theorem callable_invariant : CodegenInvariant (fun s : AthensState D => s.Callable name n)
    (fun _ _ => True) (fun _ => True) where
  errors := fun _ _ hs => ⟨hs.registered, hs.declared⟩
  namedValues := fun _ _ hs => ⟨hs.registered, hs.declared⟩
  builder := fun _ _ hs _ => ⟨hs.registered, hs.declared⟩
  getFunction := by
    intro s k r s' hs hrun
    obtain ⟨r', s'', hfound, hs'', -⟩ := getFunction_callable hs k
    rw [hfound] at hrun
    cases hrun
    exact ⟨hs'', fun _ _ => trivial, fun _ => trivial⟩
  call := fun _ _ _ _ hs _ _ => ⟨hs.registered, hs.declared⟩

theorem codegen_callable (e : ExprAST D) :
    Gen.Keeps (fun s : AthensState D => s.Callable name n) (fun _ => True) (codegen ops e) :=
  callable_invariant.codegen (fun _ _ => trivial) ops e fun _ _ => .inr (.inr trivial)

/-! ## One expression -/

/-- An operator without a case of its own calls its function. -/
theorem codegen_operator {c : Byte} (hc : c ∉ handledOps) (h : s.Callable (operatorName c) 2)
    (x y : ExprAST D) : codegen ops (.binaryExpr c x y) s =
      callsOperator (operatorName c) (codegen ops x) (codegen ops y) s := by
  simp only [handledOps, List.mem_cons, List.not_mem_nil, or_false, not_or] at hc
  obtain ⟨hassign, hadd, hsub, hmul, hless⟩ := hc
  rw [codegen, if_neg hassign]
  refine Gen.bind_congr fun l s₁ hx => Gen.bind_congr fun r s₂ hy => ?_
  have h₁ : s₁.Callable (operatorName c) 2 := (codegen_callable x).attempt.returned h hx
  have h₂ : s₂.Callable (operatorName c) 2 := (codegen_callable y).attempt.returned h₁ hy
  cases l with
  | none => rfl
  | some l =>
    cases r with
    | none => rfl
    | some r =>
      dsimp only
      rw [binaryOp, if_neg hadd, if_neg hsub, if_neg hmul, if_neg hless]
      refine Gen.bind_congr fun f s₃ hf => ?_
      obtain ⟨f', s', hfound, -, hname⟩ := getFunction_callable h₂ (operatorName c)
      obtain ⟨params, rfl, hlen⟩ := hname rfl
      obtain ⟨rfl, rfl⟩ : some params = f ∧ s' = s₃ := by
        rw [show text "binary" ++ [c] = operatorName c from rfl, hfound] at hf
        cases hf
        exact ⟨rfl, rfl⟩
      exact congrFun (if_pos hlen) s'

/-! ## Definitions -/

variable {compiled : List (FunctionIR D)} {jit : List (FunctionIR D) → Bool} {ofInt : Int → D}
  {fuel : Nat}

theorem bodyState_callable (f : FunctionAST D) (h : s.Callable name n) (hf : f.proto.name ≠ name) :
    (f.bodyState s).Callable name n := by
  have hother (params : List Name) (hk : f.proto.name = name) : params.length = n := absurd hk hf
  have hdeclared := (h.register hf).declare (hother (f.argNames s))
  refine callable_invariant.bindParams ?_ 0 _
  exact ⟨hdeclared.registered, hdeclared.declared⟩

theorem FunctionAST.codegen_callable (f : FunctionAST D) (h : s.Callable name n)
    (hf : f.proto.name ≠ name) :
    (f.codegen ops s).Within (fun s => s.Callable name n) (fun _ => True) := by
  have hbody : (Athens.codegen ops f.body (f.bodyState s)).Within _ _ :=
    Athens.codegen_callable f.body _ (bodyState_callable f h hf)
  rw [f.codegen_body]
  cases hrun : Athens.codegen ops f.body (f.bodyState s) with
  | ok v s₂ => rwa [hrun] at hbody
  | abort why => trivial
  | null s₂ =>
    rw [hrun] at hbody
    refine ⟨hbody.registered, fun params hparams => ?_⟩
    simp only [AthensState.undefine, if_neg (Ne.symm hf)] at hparams
    exact hbody.declared params hparams

/-- The function can be called, and the last one that was compiled under its name
is `fn`. -/
structure Session.Runs (s : Session D) (name : Name) (n : Nat) (fn : FunctionIR D) : Prop where
  callable : s.globals.Callable name n
  latest : s.handedOver.find? (fun f => f.name == name) = some fn

section
variable {s : Session D} {fn : FunctionIR D}

theorem handleDefinition_runs {f : FunctionAST D} (h : s.Runs name n fn)
    (hf : f.proto.name ≠ name) :
    (handleDefinition ops jit f s).Within (fun s => s.Runs name n fn) (fun _ => True) := by
  have hcode : (f.codegen ops s.globals).Within _ _ := f.codegen_callable h.callable hf
  rw [handleDefinition_eq]
  cases hrun : f.codegen ops s.globals with
  | abort why => trivial
  | null g =>
    rw [hrun] at hcode
    exact ⟨hcode, h.latest⟩
  | ok fnIR g =>
    rw [hrun] at hcode
    dsimp only
    by_cases hjit : jit (fnIR :: s.handedOver) = true
    · rw [if_pos hjit]
      have hname := (FunctionAST.codegen_ok hrun).1
      refine ⟨⟨hcode.registered, fun params hparams => by cases hparams⟩, ?_⟩
      rw [List.find?_cons_of_neg (by rw [hname]; simpa using hf)]
      exact h.latest
    · rw [if_neg hjit]
      trivial

theorem handleExtern_runs {p : PrototypeAST} (h : s.Runs name n fn) (hp : p.name ≠ name) :
    (handleExtern p s : Outcome (Session D) Halt Bool).Within (fun s => s.Runs name n fn)
      (fun _ => True) := by
  obtain ⟨g, hcodegen, hg⟩ := p.codegen_callable h.callable fun hname => absurd hname hp
  have hrun : handleExtern p s = .ok true
      { s with globals := { g with functionProtos := g.functionProtos.insert p } } := by
    simp only [handleExtern, Bind.bind, Gen.bind, generate, hcodegen]
    rfl
  rw [hrun]
  exact ⟨hg.register hp, h.latest⟩

theorem Handed.handle_runs {x : Handed D} (h : s.Runs name n fn) (hx : x.declares ≠ name) :
    (x.handle ops jit s).Within (fun s => s.Runs name n fn) (fun _ => True) := by
  cases x with
  | definition f => exact handleDefinition_runs h hx
  | extern_ p => exact handleExtern_runs h hx
  | expression expr =>
    show (handleTopLevelExpression ops jit expr s).Within _ _
    unfold handleTopLevelExpression
    split
    · exact h
    · exact handleDefinition_runs h hx

theorem finishTurn_runs {x : Handed D} {σ : ParseState D BinopTable} (h : s.Runs name n fn)
    (hdiag : σ.diag = []) (hx : x.declares ≠ name) :
    (finishTurn (x.handle ops jit) σ s).Within (fun s => s.Runs name n fn) (fun _ => True) := by
  have htable : (s.withTable σ.globals).Runs name n fn :=
    ⟨⟨h.callable.registered, h.callable.declared⟩, h.latest⟩
  have hhandle : (x.handle ops jit (s.withTable σ.globals)).Within (fun s => s.Runs name n fn)
      (fun _ => True) := Handed.handle_runs htable hx
  rw [finishTurn_eq hdiag]
  cases hrun : x.handle ops jit (s.withTable σ.globals) with
  | ok handled s' =>
    rw [hrun] at hhandle
    cases handled <;> exact hhandle
  | null s' => rwa [hrun] at hhandle
  | abort why => trivial

/-- What the next turn hands on declares another function. -/
def Stream.Spares (ofInt : Int → D) (fuel : Nat) (name : Name) (input : Stream D)
    (s : Session D) : Prop :=
  ∀ x σ, input.handed ofInt fuel s = some (x, σ) → x.declares ≠ name

theorem turn_runs {input : Stream D} {r : Outcome (Session D) Halt (Turn D)}
    (h : s.Runs name n fn) (hinput : input.Spares ofInt fuel name s)
    (hturn : parseStreamTurn ops jit ofInt fuel input s = some r) :
    r.Within (fun s => s.Runs name n fn) (fun _ => True) := by
  rcases parseStreamTurn_cases hturn with ⟨t, rfl⟩ | ⟨table, rfl⟩ | ⟨x, σ, hhanded, hdiag, rfl⟩
  · exact h
  · exact ⟨⟨h.callable.registered, h.callable.declared⟩, h.latest⟩
  · exact finishTurn_runs h hdiag (hinput x σ hhanded)

end

end

/-! ## Runs -/

namespace Repl

def Spares (ofInt : Int → D) (fuel : Nat) (name : Name) : Repl D → Prop
  | .reading input s => input.Spares ofInt fuel name s
  | _ => True

/-- The sessions in which nothing declares the function again. -/
abbrev SparingRun (ops : FloatOps D) (jit : List (FunctionIR D) → Bool) (ofInt : Int → D)
    (fuel : Nat) (name : Name) : Repl D → Repl D → Prop :=
  Relation.ReflTransGen fun c c' => c.Spares ofInt fuel name ∧ Step ops jit ofInt fuel c c'

variable {ops : FloatOps D} {jit : List (FunctionIR D) → Bool} {ofInt : Int → D} {fuel : Nat}
  {name : Name} {n : Nat} {fn : FunctionIR D}

theorem step_runs {c c' : Repl D} (hspares : c.Spares ofInt fuel name)
    (hstep : Step ops jit ofInt fuel c c') (hc : ∀ s, c.session = some s → s.Runs name n fn) :
    ∀ s, c'.session = some s → s.Runs name n fn := by
  intro s hs
  cases hstep with
  | line input s₁ =>
    cases hs
    exact hc _ rfl
  | next hturn =>
    cases hs
    exact turn_runs (hc _ rfl) hspares hturn
  | return_ hturn =>
    cases hs
    exact turn_runs (hc _ rfl) hspares hturn
  | halt _ => cases hs

theorem run_runs {c c' : Repl D} (hrun : SparingRun ops jit ofInt fuel name c c')
    (hc : ∀ s, c.session = some s → s.Runs name n fn) :
    ∀ s, c'.session = some s → s.Runs name n fn := by
  induction hrun with
  | refl => exact hc
  | tail _ hstep ih => exact step_runs hstep.1 hstep.2 ih

end Repl

/-- The states in which a part of a body can be generated that is generated from `s` on. -/
inductive During (ops : FloatOps D) (s : AthensState D) : AthensState D → Prop
  | start : During ops s s
  | generated {g g' : AthensState D} {e : ExprAST D} {v : Operand D} :
      During ops s g → codegen ops e g = .ok v g' → During ops s g'
  | failed {g g' : AthensState D} {e : ExprAST D} :
      During ops s g → codegen ops e g = .null g' → During ops s g'
  | found {g g' : AthensState D} {k : Name} {r : Option (List Name)} :
      During ops s g → getFunction k g = .ok r g' → During ops s g'
  | moved {g : AthensState D} (builder : Builder D Name) (namedValues : Name → Option Nat)
      (binopPrecedence : BinopTable) (errors : List Text) :
      During ops s g → During ops s { g with builder, namedValues, binopPrecedence, errors }

theorem During.callable {ops : FloatOps D} {s g : AthensState D} {name : Name} {n : Nat}
    (h : During ops s g) (hs : s.Callable name n) : g.Callable name n := by
  induction h with
  | start => exact hs
  | generated _ hrun ih => exact (codegen_callable _).returned ih hrun
  | @failed g g' e _ hrun ih =>
    have hkeeps : (codegen ops e g).Within _ _ := codegen_callable e g ih
    rwa [hrun] at hkeeps
  | @found g g' k r _ hfound ih =>
    obtain ⟨r', s', hfound', hs', -⟩ := getFunction_callable ih k
    rw [hfound'] at hfound
    cases hfound
    exact hs'
  | moved _ _ _ _ _ ih => exact ⟨ih.registered, ih.declared⟩

/-- What a definition of `c` that has been compiled is for. As long as nothing declares
its function again, it is the last one that was compiled under its name, and in every
body `x c y` is generated as `x`, `y` and a call of it. -/
def RunsDefinition (ops : FloatOps D) (c : Byte) : Prop :=
  ∀ (jit : List (FunctionIR D) → Bool) (ofInt : Int → D) (fuel precedence : Nat) (l r : Name)
    (body : ExprAST D) (s s₁ s₂ : Session D) (c₁ c₂ : Repl D),
    1 ≤ precedence → precedence ≤ 100 →
    handleDefinition ops jit (operatorDefinition c precedence l r body) s = .ok true s₁ →
    c₁.session = some s₁ → Repl.SparingRun ops jit ofInt fuel (operatorName c) c₁ c₂ →
    c₂.session = some s₂ →
    (∃ fn g, (operatorDefinition c precedence l r body).codegen ops s.globals = .ok fn g ∧
      s₂.handedOver.find? (fun f => f.name == operatorName c) = some fn) ∧
    ∀ (f : FunctionAST D) (g : AthensState D), f.proto.name ≠ operatorName c →
      During ops (f.bodyState s₂.globals) g → ∀ x y, codegen ops (.binaryExpr c x y) g =
        callsOperator (operatorName c) (codegen ops x) (codegen ops y) g

section
variable {ops : FloatOps D} {jit : List (FunctionIR D) → Bool} {c : Byte}

/-- A definition that has been compiled. -/
theorem operatorDefinition_runs {precedence : Nat} {l r : Name} {body : ExprAST D}
    {s s₁ : Session D}
    (h : handleDefinition ops jit (operatorDefinition c precedence l r body) s = .ok true s₁) :
    ∃ fn g, (operatorDefinition c precedence l r body).codegen ops s.globals = .ok fn g ∧
      s₁.Runs (operatorName c) 2 fn := by
  have htables := (operatorDefinition c precedence l r body).codegen_tables ops s.globals
    (fun _ _ => trivial : ∀ why, _ → True) (fun _ _ => .inr trivial)
  rw [handleDefinition_eq] at h
  cases hrun : (operatorDefinition c precedence l r body).codegen ops s.globals with
  | abort why =>
    rw [hrun] at h
    cases h
  | null g =>
    rw [hrun] at h
    cases h
  | ok fn g =>
    rw [hrun] at h htables
    dsimp only at h
    split at h
    · cases h
      refine ⟨fn, g, rfl, ⟨⟨(operatorDefinition c precedence l r body).proto, ?_, rfl⟩,
        fun params hparams => by cases hparams⟩, ?_⟩
      · have hprotos : g.functionProtos = s.globals.functionProtos.insert
            (operatorDefinition c precedence l r body).proto := htables.functionProtos
        rw [hprotos]
        exact if_pos rfl
      · have hname := (FunctionAST.codegen_ok hrun).1
        exact List.find?_cons_of_pos (by rw [hname]; exact beq_self_eq_true _)
    · cases h

theorem runsDefinition (hc : c ∉ handledOps) : RunsDefinition ops c := by
  intro jit ofInt fuel precedence l r body s s₁ s₂ c₁ c₂ _ _ hdef hc₁ hrun hc₂
  obtain ⟨fn, g, hcodegen, hruns⟩ := operatorDefinition_runs hdef
  have hlater : s₂.Runs (operatorName c) 2 fn := by
    refine Repl.run_runs hrun (fun s hs => ?_) s₂ hc₂
    rw [hc₁] at hs
    cases hs
    exact hruns
  refine ⟨⟨fn, g, hcodegen, hlater.latest⟩, fun f g hf hduring x y => ?_⟩
  exact codegen_operator hc (hduring.callable (bodyState_callable f hlater.callable hf)) x y

/-- The five operators with a case of their own call nothing. -/
theorem codegen_handledOp (hc : c ∈ handledOps) (g : AthensState D) :
    codegen ops (.binaryExpr c (.numberExpr ops.zero) (.numberExpr ops.zero)) g = .abort .badCast ∨
    ∃ d, codegen ops (.binaryExpr c (.numberExpr ops.zero) (.numberExpr ops.zero)) g =
      .ok (.const d) g := by
  simp only [handledOps, List.mem_cons, List.not_mem_nil, or_false] at hc
  rw [codegen, codegen]
  rcases hc with rfl | rfl | rfl | rfl | rfl
  · exact .inl rfl
  all_goals exact .inr ⟨_, rfl⟩

theorem callsOperator_numbers {g : AthensState D} (hg : g.Callable (operatorName c) 2) (a b : D) :
    ∃ reg g', callsOperator (operatorName c) (codegen ops (.numberExpr a))
      (codegen ops (.numberExpr b)) g = .ok (.reg reg) g' := by
  obtain ⟨f, g', hfound, -, -⟩ := getFunction_callable hg (operatorName c)
  rw [codegen, codegen]
  exact ⟨g'.builder.nextReg, _, Gen.bind_of_ok hfound⟩

theorem not_runsDefinition (hc : c ∈ handledOps) : ¬ RunsDefinition ops c := by
  intro h
  let f := operatorDefinition c 1 [] [] (.numberExpr ops.zero)
  obtain ⟨s₁, hdef⟩ : ∃ s₁, handleDefinition ops (fun _ => true) f .start = .ok true s₁ := by
    rw [handleDefinition_eq, f.codegen_body, show f.body = .numberExpr ops.zero from rfl, codegen]
    exact ⟨_, rfl⟩
  obtain ⟨-, hcalls⟩ :=
    h (fun _ => true) (fun _ => ops.zero) 0 1 [] [] (.numberExpr ops.zero) .start
    s₁ s₁ (.prompt s₁) (.prompt s₁) (Nat.le_refl _) (by decide) hdef rfl .refl rfl
  obtain ⟨fn, g, -, hruns⟩ := operatorDefinition_runs hdef
  have hother : (anonymousFunction (.null : ExprAST D)).proto.name ≠ operatorName c := by
    intro heq
    have hfirst : some (byte '_') = some (byte 'b') := congrArg List.head? heq
    exact absurd hfirst (by decide)
  have hcallable := bodyState_callable (anonymousFunction .null) hruns.callable hother
  obtain ⟨reg, g', hcall⟩ := callsOperator_numbers hcallable ops.zero ops.zero
  have hsame := hcalls _ _ hother .start (.numberExpr ops.zero) (.numberExpr ops.zero)
  rw [hcall] at hsame
  rcases codegen_handledOp hc _ with hcast | ⟨d, hconst⟩
  · rw [hcast] at hsame
    cases hsame
  · rw [hconst] at hsame
    cases hsame

/-- The definition of an operator is the one that runs exactly when code generation has no
case of its own for it. -/
theorem operator_runs_iff (ops : FloatOps D) (c : Byte) : RunsDefinition ops c ↔
    c ∉ handledOps := by
  constructor
  · intro h hc
    exact not_runsDefinition hc h
  · exact runsDefinition

end

/-- The runtime defines `=`, and then `def g(x y) x = y` is compiled without a call of it. -/
theorem runtime_equality_ignored : ∃ s s' : Session Int,
    afterRuntime = some s ∧ s.handedOver.any (fun f => f.name == operatorName (byte '=')) = true ∧
    (replay ["def g(x y) x = y"] s).bind Outcome.state? = some s' ∧
    (s'.handedOver.head?.any fun f => f.name == text "g" &&
      !(f.body.code 0).any (Calls (operatorName (byte '=')))) = true ∧
    ¬ RunsDefinition wholeOps (byte '=') := by
  have h : (afterRuntime.bind fun s =>
      ((replay ["def g(x y) x = y"] s).bind Outcome.state?).map fun s' =>
        s.handedOver.any (fun f => f.name == operatorName (byte '=')) &&
        s'.handedOver.head?.any fun f => f.name == text "g" &&
          !(f.body.code 0).any (Calls (operatorName (byte '=')))) = some true := by
    decide +kernel
  obtain ⟨s, hs, h⟩ := Option.bind_eq_some_iff.mp h
  obtain ⟨s', hs', h⟩ := Option.map_eq_some_iff.mp h
  rw [Bool.and_eq_true] at h
  exact ⟨s, s', hs, h.1, hs', h.2, not_runsDefinition (by decide)⟩

end AroundTheWorld.Athens
