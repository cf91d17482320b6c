import AroundTheWorld.Athens.Keeps
import AroundTheWorld.Athens.ParseComplete
import AroundTheWorld.Athens.Runtime

/-!
# What a function definition does to the tables

`FunctionAST::codegen` records the prototype and the precedence of an operator
first. When the body fails it erases the function and the precedence, which is
not the same as putting back what was there.
-/

namespace AroundTheWorld.Athens

open AroundTheWorld.Base AroundTheWorld.Lex AroundTheWorld.Llvm AroundTheWorld.Parse
open AthensGrammarPack (PrototypeHead)

variable {D : Type}

/-! ## The tables around a body -/

/-- `BinopPrecedence` with the operator of `p` set, when it is a binary one. -/
def PrototypeAST.operatorTable (p : PrototypeAST) (table : BinopTable) (precedence : Option Int) :
    BinopTable :=
  if p.isBinaryOp then table.set p.getOperatorName precedence else table

/-- The tables in which the body of a definition is generated. -/
def AthensState.define (s : AthensState D) (p : PrototypeAST) : AthensState D :=
  { s with
    functionProtos := s.functionProtos.insert p
    binopPrecedence := p.operatorTable s.binopPrecedence (some p.getBinaryPrecedence) }

theorem BinopTable.set_set (table : BinopTable) (c : Byte) (p q : Option Int) :
    (table.set c p).set c q = table.set c q := by
  funext k
  simp only [BinopTable.set]
  split <;> rfl

theorem PrototypeAST.operatorTable_operatorTable (p : PrototypeAST) (table : BinopTable)
    (q r : Option Int) : p.operatorTable (p.operatorTable table q) r = p.operatorTable table r := by
  unfold PrototypeAST.operatorTable
  split
  · exact table.set_set _ _ _
  · rfl

theorem setOperator_eq (p : PrototypeAST) (precedence : Option Int) (s : AthensState D) :
    setOperator p precedence s =
      .ok () { s with binopPrecedence := p.operatorTable s.binopPrecedence precedence } := by
  unfold setOperator PrototypeAST.operatorTable
  split <;> rfl

theorem codegenParams_eq (reg : Nat) (args : List Name) (s : AthensState D) :
    ∃ b t, codegenParams reg args s = .ok () { s with builder := b, namedValues := t } := by
  induction args generalizing reg s with
  | nil => exact ⟨_, _, rfl⟩
  | cons arg args ih =>
    obtain ⟨b, t, h⟩ :=
      ih (reg + 1) ((s.withBuilder (s.builder.createAlloca.2.createStore (.reg reg)
      s.builder.createAlloca.1)).withName arg (some s.builder.createAlloca.1))
    exact ⟨b, t, h⟩

/-- The state in which a body has failed, without the function. -/
def AthensState.undefine (s : AthensState D) (p : PrototypeAST) : AthensState D :=
  { s with
    theModule := fun k => if k = p.name then none else s.theModule k
    binopPrecedence := p.operatorTable s.binopPrecedence none }

theorem cleanUp_eq {α : Type} (p : PrototypeAST) (s : AthensState D) :
    (do
      eraseFunction p.name
      setOperator p none
      Gen.null : AthensGen D α) s = .null (s.undefine p) := by
  simp only [Bind.bind, Gen.bind, eraseFunction, setOperator_eq]
  rfl

/-- A definition is its body, generated behind a prologue and with a clean-up
behind a failure. -/
theorem FunctionAST.codegen_eq (ops : FloatOps D) (f : FunctionAST D) (s : AthensState D) :
    ∃ args s₁, Stable (s.define f.proto) s₁ ∧ f.codegen ops s =
      match Athens.codegen ops f.body s₁ with
      | .ok v s₂ => .ok ⟨f.proto.name, args, s₂.builder, v⟩ s₂
      | .null s₂ => .null (s₂.undefine f.proto)
      | .abort why => .abort why := by
  obtain ⟨r, m, hget, hr, hm, hback⟩ :=
    getFunction_eq f.proto.name { s with functionProtos := s.functionProtos.insert f.proto }
  obtain ⟨args, rfl⟩ : ∃ args, r = some args := by
    refine Option.ne_none_iff_exists'.mp (hr.mpr (.inr ?_))
    simp [ProtoTable.insert]
  obtain ⟨b, t, hparams⟩ := codegenParams_eq 0 args
    { s.define f.proto with
      theModule := m
      builder := { Builder.entry with nextReg := args.length }
      namedValues := fun _ => none }
  refine ⟨args, { s.define f.proto with theModule := m, builder := b, namedValues := t },
    ⟨rfl, rfl, hm, hback⟩, ?_⟩
  simp only [FunctionAST.codegen, Bind.bind, Gen.bind, registerProto, hget, setOperator_eq,
    enterFunction]
  simp only [AthensState.define] at hparams
  rw [hparams]
  simp only [Gen.attempt, AthensState.define]
  cases hbody : Athens.codegen ops f.body _ with
  | ok v s₂ => rfl
  | null s₂ => exact cleanUp_eq f.proto s₂
  | abort why => rfl

/-- What is known of the tables behind a definition. -/
theorem FunctionAST.codegen_tables (ops : FloatOps D) (f : FunctionAST D) (s : AthensState D)
    {err : Abort → Prop} (herr : ∀ why, why ≠ Abort.binaryOperatorNotFound → err why)
    (hops : Covered (s.define f.proto) err f.body.binaryOps) :
    match f.codegen ops s with
    | .ok _ s' => Stable (s.define f.proto) s'
    | .null s' => ∃ s₂, Stable (s.define f.proto) s₂ ∧ s' = s₂.undefine f.proto
    | .abort why => err why := by
  obtain ⟨args, s₁, hs₁, heq⟩ := f.codegen_eq ops s
  have hbody := codegen_keeps herr ops f.body hops s₁ hs₁
  rw [heq]
  cases hrun : Athens.codegen ops f.body s₁ with
  | ok v s₂ => rwa [hrun] at hbody
  | null s₂ => exact ⟨s₂, by rwa [hrun] at hbody, rfl⟩
  | abort why => rwa [hrun] at hbody

/-! ## What reading an item does to the table -/

/-- The head of the item at the start of the stream, as the parser reads it. -/
def headOf (σ : ParseState D BinopTable) : Option PrototypeHead :=
  (AthensGrammarPack.parsePrototypeHead { σ with tokens := σ.tokens.tail }).bind (·.1)

/-- A prototype with the name, the precedence and the arity of its head. -/
structure PrototypeAST.HasHead (p : PrototypeAST) (head : PrototypeHead) : Prop where
  name : p.name = head.name
  precedence : p.precedence = head.precedence
  isOperator : p.isOperator = (head.kind != 0)
  arity : head.kind ≠ 0 → p.args.length = head.kind

theorem PrototypeAST.HasHead.isBinaryOp {p : PrototypeAST} {head : PrototypeHead}
    (h : p.HasHead head) : p.isBinaryOp = decide (head.kind = 2) := by
  unfold PrototypeAST.isBinaryOp
  rw [h.isOperator]
  by_cases hkind : head.kind = 0
  · rw [hkind]
    rfl
  · have hne : (head.kind != 0) = true := by simpa using hkind
    rw [h.arity hkind, hne, Bool.true_and]
    by_cases htwo : head.kind = 2 <;> simp [htwo]

/-- Reading the whole prototype leaves the table that its head has left. -/
theorem PrototypeAST.HasHead.operatorTable {p : PrototypeAST} {head : PrototypeHead}
    (h : p.HasHead head) (table : BinopTable) :
    p.operatorTable table (some p.getBinaryPrecedence) = tableAfter (some head) table := by
  simp only [PrototypeAST.operatorTable, h.isBinaryOp, decide_eq_true_eq, tableAfter,
    PrototypeAST.getOperatorName, PrototypeAST.getBinaryPrecedence, h.name, h.precedence]

/-- The prototype of an item, of either kind. -/
def AthensParsedItem.proto (item : AthensParsedItem D) : Option PrototypeAST :=
  (item.function.map (·.proto)).or item.prototype

/-- The prototype of an item, behind its keyword. -/
theorem parsePrototype_table {σ σ₁ : ParseState D BinopTable} {p : Option PrototypeAST}
    (hrun : AthensGrammarPack.parsePrototype { σ with tokens := σ.tokens.tail } = some (p, σ₁)) :
    σ₁.globals = tableAfter (headOf σ) σ.globals ∧ ∃ r, σ₁.diag = σ.diag ++ r ∧
      (r = [] → ∃ proto head, p = some proto ∧ headOf σ = some head ∧ proto.HasHead head) := by
  obtain ⟨h, ⟨σ₀, hhead⟩, hglobals, c, r, hran, hp⟩ := parsePrototype_reads hrun
  have hheadOf : headOf σ = h := by
    unfold headOf
    rw [hhead]
    rfl
  refine ⟨by rw [hheadOf]; exact hglobals, r, hran.diag, ?_⟩
  intro hr
  rcases hp with ⟨-, proto, rfl, -, head, rfl, hname, hprec, hop, harity⟩ | ⟨hne, -⟩
  · exact ⟨proto, head, rfl, hheadOf, hname, hprec, hop, harity⟩
  · exact absurd hr hne

/-- The table behind an item is that of its head. An item that has been read
without a report has that head. -/
theorem parseItem_table {ofInt : Int → D} {fuel : Nat} {σ σ' : ParseState D BinopTable}
    {item : AthensParsedItem D}
    (hkind : (Parser.current σ).kind = .kwFuncDef ∨ (Parser.current σ).kind = .kwExtern)
    (hrun : athensParseItem ofInt fuel σ = some (item, σ')) :
    σ'.globals = tableAfter (headOf σ) σ.globals ∧ (σ'.diag = σ.diag →
      ∀ p, item.proto = some p → ∃ head, headOf σ = some head ∧ p.HasHead head) := by
  unfold athensParseItem parseItem at hrun
  rcases hkind with hkind | hkind
  · have hdef : AthensGrammarPack.parseDefinition (athensEngine ofInt fuel) σ =
        some (item, σ') := by
      rw [hkind] at hrun
      exact hrun
    obtain ⟨⟨p, σ₁⟩, hproto, hdef⟩ := Option.bind_eq_some_iff.mp hdef
    obtain ⟨⟨body, σ₂⟩, hbody, hdef⟩ := Option.bind_eq_some_iff.mp hdef
    obtain ⟨hglobals, r₁, hr₁, hp⟩ := parsePrototype_table hproto
    obtain ⟨c₂, r₂, hran₂, -⟩ := athensEngine_yields ofInt fuel 0 (by decide) hbody
    cases hdef
    refine ⟨hran₂.globals.trans hglobals, ?_⟩
    intro hdiag p' hitem
    rw [hran₂.diag, hr₁] at hdiag
    simp only [List.append_assoc, List.append_right_eq_self, List.append_eq_nil_iff] at hdiag
    obtain ⟨proto, head, rfl, hhead, hhas⟩ := hp hdiag.1
    obtain rfl : proto = p' := by
      unfold AthensParseBuilder.makeFunction at hitem
      split at hitem <;> simp_all [AthensParsedItem.proto]
    exact ⟨head, hhead, hhas⟩
  · have hext : AthensGrammarPack.parseExtern (athensEngine ofInt fuel) σ = some (item, σ') := by
      rw [hkind] at hrun
      exact hrun
    obtain ⟨⟨p, σ₁⟩, hproto, hext⟩ := Option.bind_eq_some_iff.mp hext
    obtain ⟨hglobals, r₁, hr₁, hp⟩ := parsePrototype_table hproto
    cases hext
    refine ⟨hglobals, ?_⟩
    intro hdiag p' hitem
    obtain ⟨proto, head, rfl, hhead, hhas⟩ := hp (by simpa [hr₁] using hdiag)
    obtain rfl : proto = p' := by
      simpa [AthensParsedItem.proto, AthensParseBuilder.makeExtern] using hitem
    exact ⟨head, hhead, hhas⟩

/-! ## Failed definitions -/

section
variable {ops : FloatOps D} {jit : List (FunctionIR D) → Bool} {ofInt : Int → D} {fuel : Nat}

theorem handleDefinition_eq (f : FunctionAST D) (s : Session D) :
    handleDefinition ops jit f s =
      match f.codegen ops s.globals with
      | .null g => .ok false { s with globals := g }
      | .abort why => .abort (.aborted why)
      | .ok fnIR g =>
        if jit (fnIR :: s.handedOver) then
          .ok true ⟨{ g with theModule := fun _ => none, builder := .entry }, fnIR :: s.handedOver⟩
        else .abort .exitOnErr := by
  simp only [handleDefinition, Bind.bind, Gen.bind, generate]
  cases hrun : f.codegen ops s.globals with
  | null g => rfl
  | abort why => rfl
  | ok fnIR g =>
    simp only [Gen.bind, addModule]
    by_cases hjit : jit (fnIR :: s.handedOver) = true
    · simp only [if_pos hjit]
      rfl
    · simp only [if_neg hjit]

/-- The state in which a definition or a declaration that has been read is handled. -/
def Session.withTable (s : Session D) (table : BinopTable) : Session D :=
  { s with globals := { s.globals with binopPrecedence := table } }

theorem parseStreamTurn_item {input : Stream D} {s : Session D} {item : AthensParsedItem D}
    {σ : ParseState D BinopTable}
    (hkind : (Parser.current (input.context s)).kind = .kwFuncDef ∨
      (Parser.current (input.context s)).kind = .kwExtern)
    (hparse : athensParseItem ofInt fuel (input.context s) = some (item, σ)) :
    parseStreamTurn ops jit ofInt fuel input s =
      some (finishTurn (handleItem ops jit item) σ s) := by
  unfold parseStreamTurn
  rcases hkind with hkind | hkind <;> simp only [hkind, hparse] <;> rfl

theorem finishTurn_eq {handle : SessionGen D Bool} {σ : ParseState D BinopTable} {s : Session D}
    (hdiag : σ.diag = []) : finishTurn handle σ s =
      match handle (s.withTable σ.globals) with
      | .ok true s' => .ok (.next (skipSemicolon σ)) s'
      | .ok false s' => .ok (.return_ false) s'
      | .null s' => .null s'
      | .abort why => .abort why := by
  simp only [finishTurn, Bind.bind, Gen.bind, setBinopPrecedence, hdiag, ne_eq, not_true,
    if_false, Session.withTable]
  cases handle _ with
  | ok handled s' => cases handled <;> rfl
  | null s' => rfl
  | abort why => rfl

/-- A parse that has reported something only leaves its table behind. -/
theorem finishTurn_reported {handle : SessionGen D Bool} {σ : ParseState D BinopTable}
    {s : Session D} (hdiag : σ.diag ≠ []) :
    finishTurn handle σ s = .ok (.return_ false) (s.withTable σ.globals) := by
  simp only [finishTurn, Bind.bind, Gen.bind, setBinopPrecedence, if_pos hdiag]
  rfl

/-- After a definition that the driver could not generate, the tables are those
of the failure branch. -/
theorem failed_definition_tables {input : Stream D} {s s' : Session D}
    {item : AthensParsedItem D} {σ : ParseState D BinopTable} {f : FunctionAST D}
    (hdef : (Parser.current (input.context s)).kind = .kwFuncDef)
    (hparse : athensParseItem ofInt fuel (input.context s) = some (item, σ))
    (hdiag : σ.diag = []) (hf : item.function = some f)
    (hfail : parseStreamTurn ops jit ofInt fuel input s = some (.ok (.return_ false) s')) :
    s'.globals.functionProtos = s.globals.functionProtos.insert f.proto ∧
      s'.globals.binopPrecedence = f.proto.operatorTable s.globals.binopPrecedence none := by
  obtain ⟨htable, hhead⟩ := parseItem_table (.inl hdef) hparse
  obtain ⟨head, hhead, hhas⟩ := hhead hdiag f.proto (by simp [AthensParsedItem.proto, hf])
  have hσ : σ.globals = f.proto.operatorTable s.globals.binopPrecedence
      (some f.proto.getBinaryPrecedence) := by
    rw [hhas.operatorTable, htable, hhead]
    rfl
  have hhandle : handleItem ops jit item = handleDefinition ops jit f := by
    unfold handleItem
    rw [hf]
  rw [parseStreamTurn_item (.inl hdef) hparse, finishTurn_eq hdiag, hhandle,
    handleDefinition_eq] at hfail
  have htables := f.codegen_tables ops (s.withTable σ.globals).globals
    (fun _ _ => trivial : ∀ why, why ≠ Abort.binaryOperatorNotFound → True)
    (fun _ _ => .inr trivial)
  cases hrun : f.codegen ops (s.withTable σ.globals).globals with
  | ok fnIR g =>
    simp only [hrun] at hfail
    by_cases hjit : jit (fnIR :: (s.withTable σ.globals).handedOver) = true
    · simp only [if_pos hjit] at hfail
      cases hfail
    · simp only [if_neg hjit] at hfail
      cases hfail
  | abort why =>
    simp only [hrun] at hfail
    cases hfail
  | null g =>
    simp only [hrun] at hfail htables
    cases hfail
    obtain ⟨s₂, hs₂, rfl⟩ := htables
    refine ⟨hs₂.functionProtos, ?_⟩
    change f.proto.operatorTable s₂.binopPrecedence none = _
    rw [hs₂.binopPrecedence]
    change f.proto.operatorTable (f.proto.operatorTable σ.globals _) none = _
    rw [f.proto.operatorTable_operatorTable, hσ, f.proto.operatorTable_operatorTable]

theorem ProtoTable.insert_find_iff (table : ProtoTable) (p : PrototypeAST) :
    (∀ name, (table.insert p).find name = table.find name) ↔ table.find p.name = some p := by
  constructor
  · intro h
    simpa [ProtoTable.insert] using (h p.name).symm
  · intro h name
    by_cases hname : name = p.name
    · simp [ProtoTable.insert, hname, h]
    · simp [ProtoTable.insert, hname]

theorem PrototypeAST.operatorTable_none_iff (p : PrototypeAST) (table : BinopTable) :
    (∀ c, p.operatorTable table none c = table c) ↔
      (p.isBinaryOp = true → table p.getOperatorName = none) := by
  unfold PrototypeAST.operatorTable
  split
  · rename_i hop
    simp only [hop, true_imp_iff, BinopTable.set]
    constructor
    · intro h
      simpa using (h p.getOperatorName).symm
    · intro h c
      split
      · rename_i hc
        rw [hc, h]
      · rfl
  · rename_i hop
    simp [hop]

/-- A definition that fails leaves both tables as they were exactly when there
was nothing to put back: its prototype was recorded before, word for word, and
the operator that it defines was not active. -/
theorem failed_definition_restores_iff (ops : FloatOps D) (jit : List (FunctionIR D) → Bool)
    (ofInt : Int → D) (fuel : Nat) {input : Stream D} {s s' : Session D}
    {item : AthensParsedItem D} {σ : ParseState D BinopTable} {f : FunctionAST D}
    (hdef : (Parser.current (input.context s)).kind = .kwFuncDef)
    (hparse : athensParseItem ofInt fuel (input.context s) = some (item, σ))
    (hdiag : σ.diag = []) (hf : item.function = some f)
    (hfail : parseStreamTurn ops jit ofInt fuel input s = some (.ok (.return_ false) s')) :
    ((∀ c, s'.globals.binopPrecedence c = s.globals.binopPrecedence c) ∧
      ∀ name, s'.globals.functionProtos.find name = s.globals.functionProtos.find name) ↔
    s.globals.functionProtos.find f.proto.name = some f.proto ∧
      (f.proto.isBinaryOp = true → s.globals.binopPrecedence f.proto.getOperatorName = none) := by
  obtain ⟨hprotos, htable⟩ := failed_definition_tables hdef hparse hdiag hf hfail
  rw [hprotos, htable, ProtoTable.insert_find_iff, PrototypeAST.operatorTable_none_iff]
  exact and_comm

end

/-! ## Behind the runtime -/

/-- A definition, typed at a reachable prompt, that is read without a report and
fails. -/
structure FailedDefinition (line : String) (s : Session Int) (f : FunctionAST Int)
    (s' : Session Int) : Prop where
  reached : Repl.Run wholeOps (fun _ => true) id 40 (.prompt .start) (.prompt s)
  failed : ∃ input item σ, Stream.ofLines [line] = some input ∧
    (Parser.current (input.context s)).kind = .kwFuncDef ∧
    athensParseItem id 40 (input.context s) = some (item, σ) ∧ σ.diag = [] ∧
    item.function = some f ∧
    parseStreamTurn wholeOps (fun _ => true) id 40 input s = some (.ok (.return_ false) s')

/-- The session behind the runtime, the definition, and the session after it. -/
def failedDefinition (line : String) : Option (Session Int × FunctionAST Int × Session Int) :=
  afterRuntime.bind fun s =>
    (Stream.ofLines [line]).bind fun input =>
      (athensParseItem id 40 (input.context s)).bind fun (item, σ) =>
        item.function.bind fun f =>
          (parseStreamTurn wholeOps (fun _ => true) id 40 input s).bind fun
            | .ok (.return_ false) s' =>
              if (Parser.current (input.context s)).kind = .kwFuncDef ∧ σ.diag = [] then
                some (s, f, s')
              else none
            | _ => none

theorem failedDefinition_some {line : String} {s s' : Session Int} {f : FunctionAST Int}
    (h : failedDefinition line = some (s, f, s')) : FailedDefinition line s f s' := by
  obtain ⟨s₀, hs₀, h⟩ := Option.bind_eq_some_iff.mp h
  obtain ⟨input, hinput, h⟩ := Option.bind_eq_some_iff.mp h
  obtain ⟨⟨item, σ⟩, hparse, h⟩ := Option.bind_eq_some_iff.mp h
  obtain ⟨f', hf, h⟩ := Option.bind_eq_some_iff.mp h
  obtain ⟨r, hturn, h⟩ := Option.bind_eq_some_iff.mp h
  split at h
  · split at h
    · rename_i hread
      obtain ⟨hdef, hdiag⟩ := hread
      cases h
      exact ⟨replay_run hs₀, input, item, σ, hinput, hdef, hparse, hdiag, hf, hturn⟩
    · cases h
  · cases h

/-- `def unary!(v) w` fails, repeats the prototype of the runtime and defines no
binary operator: nothing changes. -/
theorem failed_definition_restores_unary : ∃ s f s',
    FailedDefinition "def unary!(v) w" s f s' ∧
    (∀ c, s'.globals.binopPrecedence c = s.globals.binopPrecedence c) ∧
    ∀ name, s'.globals.functionProtos.find name = s.globals.functionProtos.find name := by
  have h : ((failedDefinition "def unary!(v) w").map fun r =>
      decide (r.1.globals.functionProtos.find r.2.1.proto.name = some r.2.1.proto ∧
        r.2.1.proto.isBinaryOp = false)) = some true := by
    decide +kernel
  obtain ⟨⟨s, f, s'⟩, hrun, h⟩ := Option.map_eq_some_iff.mp h
  obtain ⟨hproto, hop⟩ := of_decide_eq_true h
  have hfailed := failedDefinition_some hrun
  obtain ⟨input, item, σ, -, hdef, hparse, hdiag, hf, hturn⟩ := hfailed.failed
  exact ⟨s, f, s', hfailed, (failed_definition_restores_iff wholeOps (fun _ => true) id 40 hdef
    hparse hdiag hf hturn).mpr ⟨hproto, by simp [hop]⟩⟩

/-- `def binary> 10 (a b) c` fails and takes the `>` of the runtime with it. -/
theorem failed_definition_forgets_operator : ∃ s f s',
    FailedDefinition "def binary> 10 (a b) c" s f s' ∧
    s.globals.binopPrecedence (byte '>') = some 10 ∧
    s'.globals.binopPrecedence (byte '>') = none := by
  have h : ((failedDefinition "def binary> 10 (a b) c").map fun r =>
      decide (r.1.globals.binopPrecedence (byte '>') = some 10 ∧
        r.2.2.globals.binopPrecedence (byte '>') = none)) = some true := by
    decide +kernel
  obtain ⟨⟨s, f, s'⟩, hrun, h⟩ := Option.map_eq_some_iff.mp h
  exact ⟨s, f, s', failedDefinition_some hrun, of_decide_eq_true h⟩

end AroundTheWorld.Athens
