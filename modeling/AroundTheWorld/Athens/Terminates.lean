import AroundTheWorld.Athens.Handed
import AroundTheWorld.Parse.Calls

/-!
# Athens parses terminate

One lemma for each handler. The lists of arguments and bindings go on only behind a
comma, and everything that follows a subexpression asks for a token of its own, so
that an error at the end of the stream ends them all.
-/

namespace AroundTheWorld.Athens

open AroundTheWorld.Base AroundTheWorld.Lex AroundTheWorld.Llvm AroundTheWorld.Parse
open AthensGrammarPack AthensParseBuilder

variable {D : Type} {ofInt : Int → D} {w n : Nat} {e e' : AthensEngine D}

/-! ## Expressions -/

section
variable (he : EngineCounts w n e e')
include he

theorem subexpr_counts_sub : Counts w true (n - 1) (e.parseExpression 0) (e'.parseExpression 0) :=
  (he.expression 0).counts.mono (Nat.sub_le n 1)

theorem parseUnary_counts (tok : Token D) :
    Counts w true n (parseUnary e tok) (parseUnary e' tok) :=
  (he.expression 100).counts.bind fun _ => Counts.pure _

theorem parseArgumentList_counts :
    Counts w true n (parseArgumentList e) (parseArgumentList e') := by
  refine Counts.quiet_bind (Quiet.atKind _) fun empty => ?_
  cases empty with
  | true => exact Counts.pure _
  | false =>
    exact arguments_counts he (fun _ _ _ => rfl) (Nat.le_refl n) he.fuel he.fuel' []

theorem parseIdentifierOrCall_counts (tok : Token D) :
    Counts w true n (parseIdentifierOrCall e tok) (parseIdentifierOrCall e' tok) := by
  refine identifierOrCall_counts (parseArgumentList_counts he) (fun args => ?_) (Quiet.pure _)
  cases args with
  | none => exact Quiet.pure _
  | some args => exact (Quiet.expect _ _).bind fun _ => Quiet.ite (Quiet.pure _) (Quiet.pure _)

theorem parseIf_counts (tok : Token D) : Counts w true n (parseIf e tok) (parseIf e' tok) := by
  refine he.subexpr.bind fun cond => ?_
  refine Counts.test_bind (Tests.expect (by decide) _) ?_ (Counts.pure _)
  refine (subexpr_counts_sub he).bind fun then_ => ?_
  refine Counts.mono (Counts.test_bind (Tests.expect (by decide) _) ?_ (Counts.pure _))
    (Nat.sub_le n 1)
  exact (subexpr_counts_sub he).bind fun else_ => Counts.pure _

/-- A part that is there exactly when its first token is. -/
theorem optional_counts {kind : TokenKind} (hkind : kind ≠ .eof) :
    Counts w false n
      (do
        let found ← Parser.matchKind kind
        if found then e.parseExpression 0 else pure .null)
      (do
        let found ← Parser.matchKind kind
        if found then e'.parseExpression 0 else pure .null) :=
  Counts.test_bind (Tests.matchKind hkind) (subexpr_counts_sub he) (Counts.pure _)

theorem parseForRange_counts (varName : Token D) :
    Counts w true n (parseForRange e varName) (parseForRange e' varName) := by
  refine he.subexpr.bind fun start => ?_
  refine Counts.test_bind (Tests.expect (by decide) _) ?_ (Counts.pure _)
  refine (subexpr_counts_sub he).bind fun end_ => ?_
  refine ((optional_counts he (by decide)).mono (Nat.sub_le n 1)).bind fun step => ?_
  refine Counts.mono (Counts.test_bind (Tests.expect (by decide) _) ?_ (Counts.pure _))
    (Nat.sub_le n 1)
  exact (subexpr_counts_sub he).bind fun body => Counts.pure _

theorem parseFor_counts (tok : Token D) : Counts w true n (parseFor e tok) (parseFor e' tok) := by
  refine Counts.named_bind (by decide) (fun varName => ?_)
    (Counts.of_quiet ((Quiet.errorHere _).bind fun _ => Quiet.pure _))
  refine Counts.test_bind (Tests.expect (by decide) _) ?_ (Counts.pure _)
  exact (parseForRange_counts he varName).mono (by omega)

/-- Induction on the bound: every turn that goes on has consumed a name and a comma. -/
theorem parseBindings_counts {m : Nat} (hm : m ≤ n) {a b : Nat} (ha : m ≤ a) (hb : m ≤ b)
    (bindings : List (Name × ExprAST D)) :
    Counts w false m (parseBindings e a bindings) (parseBindings e' b bindings) := by
  induction m generalizing a b bindings with
  | zero => exact fun k σ τ _ hlen => absurd hlen (Nat.not_lt_zero _)
  | succ m ih =>
    obtain ⟨a, rfl⟩ : ∃ a', a = a' + 1 := ⟨a - 1, by omega⟩
    obtain ⟨b, rfl⟩ : ∃ b', b = b' + 1 := ⟨b - 1, by omega⟩
    refine Counts.named_bind (by decide) (fun nameTok => ?_)
      (Counts.of_quiet ((Quiet.errorHere _).bind fun _ => Quiet.pure _))
    refine ((optional_counts he (by decide)).allow_late.mono (by omega)).bind fun init => ?_
    refine Counts.test_bind (Tests.matchKind (by decide)) ?_ (Counts.pure _)
    exact ((ih (by omega) (by omega) (by omega) _).mono (by omega)).allow_late

theorem parseVar_counts (tok : Token D) : Counts w true n (parseVar e tok) (parseVar e' tok) := by
  have hbindings := parseBindings_counts he (Nat.le_refl n) he.fuel he.fuel' []
  refine hbindings.allow_late.bind fun bindings => ?_
  cases bindings with
  | none => exact Counts.pure _
  | some bindings =>
    refine Counts.test_bind (Tests.expect (by decide) _) ?_ (Counts.pure _)
    exact (subexpr_counts_sub he).bind fun body => Counts.pure _

end

/-! ## Prototypes and items -/

theorem parseParameters_quiet : Quiet (parseParameters : AthensParser D (List Name)) := by
  intro w k σ τ h
  have hrest : Noted w k
      { σ with tokens := σ.tokens.dropWhile fun tok => tok.kind == .identifier }
      { τ with tokens := τ.tokens.dropWhile fun tok => tok.kind == .identifier } :=
    ⟨by rw [h.tokens], h.eofLoc, h.globals, h.diag, h.count⟩
  refine ⟨_, k, _, _, rfl, ?_, hrest, rfl, List.dropWhile_suffix _⟩
  unfold parseParameters
  rw [h.tokens]

theorem installBinop_quiet (c : Byte) (precedence : Int) :
    Quiet (installBinop c precedence : AthensParser D Unit) := by
  intro w k σ τ h
  refine ⟨(), k, _, _, rfl, rfl, ?_, rfl, List.suffix_refl _⟩
  exact ⟨h.tokens, h.eofLoc, by rw [h.globals], h.diag, h.count⟩

theorem consumeOperator_quiet (message : String) :
    Quiet (consumeOperator message : AthensParser D (Token D)) := by
  refine Quiet.of_current fun tok => ?_
  by_cases hop : (!isAthensOperatorToken tok.kind || tok.lexeme.length != 1) = true
  · refine ⟨_, (Quiet.errorHere message).bind fun _ =>
      Quiet.pure ({ kind := .invalid, lexeme := [] } : Token D), fun σ hσ => ?_⟩
    unfold consumeOperator
    rw [hσ, if_pos hop]
  · refine ⟨_, Quiet.consume, fun σ hσ => ?_⟩
    unfold consumeOperator
    rw [hσ, if_neg hop]

theorem parseUnaryHead_quiet : Quiet (parseUnaryHead : AthensParser D (Option PrototypeHead)) := by
  refine (consumeOperator_quiet _).bind fun opTok => ?_
  split <;> exact Quiet.pure _

theorem parseBinaryPrecedence_quiet :
    Quiet (parseBinaryPrecedence : AthensParser D (Option Nat)) := by
  refine (Quiet.atKind _).bind fun given => Quiet.ite ?_ (Quiet.pure _)
  refine Quiet.consume.bind fun precTok => ?_
  cases checkedPrecedence precTok.literal with
  | none => exact (Quiet.error _ _).bind fun _ => Quiet.pure _
  | some precedence => exact Quiet.pure _

theorem parseBinaryHead_quiet :
    Quiet (parseBinaryHead : AthensParser D (Option PrototypeHead)) := by
  have hoperator : Quiet (parseBinaryOperator : AthensParser D (Option (Token D × Nat))) := by
    refine (consumeOperator_quiet _).bind fun opTok => ?_
    split
    · exact Quiet.pure _
    · exact parseBinaryPrecedence_quiet.bind fun _ => Quiet.pure _
  refine hoperator.bind fun operator => ?_
  cases operator with
  | none => exact Quiet.pure _
  | some operator => exact (installBinop_quiet _ _).bind fun _ => Quiet.pure _

theorem parsePrototypeHead_quiet :
    Quiet (parsePrototypeHead : AthensParser D (Option PrototypeHead)) := by
  refine Quiet.of_current fun tok => ?_
  unfold parsePrototypeHead
  by_cases hname : tok.kind = .identifier
  · exact ⟨_, Quiet.consume.bind fun _ => Quiet.pure _, fun σ hσ => by rw [hσ, hname]⟩
  by_cases hunary : tok.kind = .kwUnaryOp
  · exact ⟨_, Quiet.consume.bind fun _ => parseUnaryHead_quiet, fun σ hσ => by rw [hσ, hunary]⟩
  by_cases hbinary : tok.kind = .kwBinaryOp
  · exact ⟨_, Quiet.consume.bind fun _ => parseBinaryHead_quiet, fun σ hσ => by rw [hσ, hbinary]⟩
  · refine ⟨_, (Quiet.errorHere "expected function name in prototype").bind fun _ =>
      Quiet.pure none, ?_⟩
    intro σ hσ
    rw [hσ]
    split <;> first | contradiction | rfl

theorem parsePrototypeTail_quiet (head : PrototypeHead) :
    Quiet (parsePrototypeTail head : AthensParser D (Option PrototypeAST)) := by
  refine (Quiet.expect _ _).bind fun opened => Quiet.ite ?_ (Quiet.pure _)
  refine parseParameters_quiet.bind fun args => ?_
  refine (Quiet.expect _ _).bind fun closed => Quiet.ite ?_ (Quiet.pure _)
  split
  · exact (Quiet.errorHere _).bind fun _ => Quiet.pure _
  · exact Quiet.pure _

theorem parsePrototype_quiet : Quiet (parsePrototype : AthensParser D (Option PrototypeAST)) := by
  refine parsePrototypeHead_quiet.bind fun head => ?_
  cases head with
  | none => exact Quiet.pure _
  | some head => exact parsePrototypeTail_quiet head

/-! ## The registry -/

theorem athensRegistry_prefix_counts {kind : TokenKind}
    {handler : PrefixExprHandler D BinopTable (ExprAST D) (ExprAST D)}
    (h : (athensRegistry ofInt).findPrefixHandler kind = some handler)
    (he : EngineCounts w n e e') (tok : Token D) :
    Counts w true n (handler e tok) (handler e' tok) := by
  cases kind <;> cases h
  case identifier.refl => exact parseIdentifierOrCall_counts he tok
  case integer.refl => exact Counts.of_quiet (prefixIntegerExpr_quiet tok)
  case float.refl => exact Counts.of_quiet (prefixFloatExpr_quiet tok)
  case lParen.refl => exact prefixParenExpr_counts he tok
  case kwIf.refl => exact parseIf_counts he tok
  case kwFor.refl => exact parseFor_counts he tok
  case kwVar.refl => exact parseVar_counts he tok
  all_goals exact parseUnary_counts he tok

theorem athensRegistry_handlersCount (ofInt : Int → D) : HandlersCount (athensRegistry ofInt) where
  prefixEof := rfl
  infixEof := rfl
  stmtEof := rfl
  itemEof := rfl
  prefix_ := fun _ _ h _ _ _ _ tok he => athensRegistry_prefix_counts h he tok
  infix_ := by
    intro kind entry h w n e e' lhs tok rhs _
    cases kind <;> cases h <;> exact Counts.pure _
  stmt := by
    intro kind handler h
    cases kind <;> cases h
  item := by
    intro kind handler h
    cases kind <;> cases h
    · refine ⟨fun e _ => do
        let prototype ← parsePrototype
        let body ← e.parseExpression 0
        pure (makeFunction prototype body), fun _ => rfl, fun w n e e' _ he => ?_⟩
      refine Counts.quiet_bind parsePrototype_quiet fun prototype => ?_
      exact he.subexpr.bind fun _ => Counts.pure _
    · refine ⟨fun _ _ => do
        let prototype ← parsePrototype
        pure (makeExtern prototype), fun _ => rfl, fun w n e e' _ _ => ?_⟩
      exact Counts.of_quiet (parsePrototype_quiet.bind fun _ => Quiet.pure _)

/-! ## Streams -/

section
variable {ops : FloatOps D} {jit : List (FunctionIR D) → Bool} {fuel : Nat}

theorem skipSemicolon_length (σ : ParseState D BinopTable) :
    (skipSemicolon σ).tokens.length ≤ σ.tokens.length := by
  unfold skipSemicolon
  split
  · exact (List.tail_suffix _).length_le
  · exact Nat.le_refl _

/-- A turn goes on with less than `n` tokens, returns `true` only if `atEnd`, and does
not end in a null pointer. -/
def TurnEnds (atEnd : Prop) (n : Nat) : Outcome (Session D) Halt (Turn D) → Prop
  | .ok (.next rest) _ => rest.tokens.length < n
  | .ok (.return_ ok) _ => ok = true → atEnd
  | .null _ => False
  | .abort _ => True

theorem handle_ne_null (x : Handed D) (s s' : Session D) : x.handle ops jit s ≠ .null s' := by
  have hdefinition : ∀ f : FunctionAST D, handleDefinition ops jit f s ≠ .null s' := by
    intro f hnull
    rw [handleDefinition_eq] at hnull
    split at hnull
    · cases hnull
    · cases hnull
    · split at hnull <;> cases hnull
  cases x with
  | definition f => exact hdefinition f
  | extern_ p =>
    intro hnull
    simp only [Handed.handle, handleExtern, Bind.bind, Gen.bind, generate] at hnull
    obtain ⟨m, hcodegen, -⟩ := p.codegen_eq s.globals
    rw [hcodegen] at hnull
    cases hnull
  | expression expr =>
    cases expr with
    | null => exact fun hnull => by cases hnull
    | _ => exact hdefinition _

theorem finishTurn_ends {atEnd : Prop} {n : Nat} {handle : SessionGen D Bool}
    {σ : ParseState D BinopTable} {s : Session D} (hσ : σ.tokens.length < n)
    (hhandle : ∀ s s', handle s ≠ .null s') : TurnEnds atEnd n (finishTurn handle σ s) := by
  by_cases hdiag : σ.diag = []
  · rw [finishTurn_eq hdiag]
    cases hrun : handle (s.withTable σ.globals) with
    | ok handled s' =>
      cases handled with
      | true => exact Nat.lt_of_le_of_lt (skipSemicolon_length σ) hσ
      | false => exact fun h => by cases h
    | null s' => exact absurd hrun (hhandle _ _)
    | abort why => trivial
  · rw [finishTurn_reported hdiag]
    exact fun h => by cases h

theorem handleItem_ne_null (item : AthensParsedItem D) (s s' : Session D) :
    handleItem ops jit item s ≠ .null s' := by
  rw [handleItem_handed]
  cases item.handed with
  | some x => exact handle_ne_null x s s'
  | none => exact fun h => by cases h

/-- One turn of the loop of `ParseStream`. -/
theorem parseStreamTurn_ends (ops : FloatOps D) (jit : List (FunctionIR D) → Bool)
    (ofInt : Int → D) {input : Stream D} (s : Session D)
    (hfuel : input.tokens.length < fuel) : ∃ r,
      parseStreamTurn ops jit ofInt fuel input s = some r ∧
      TurnEnds ((Parser.current (input.context s)).kind = .eof) input.tokens.length r := by
  have hreg := athensRegistry_handlersCount (D := D) ofInt
  by_cases hend : (Parser.current (input.context s)).kind = .eof
  · refine ⟨.ok (.return_ true) s, ?_, fun _ => hend⟩
    unfold parseStreamTurn
    rw [hend]
  · obtain ⟨item, σ₁, hitem, hlen₁⟩ :=
      (parseItem_terminates hreg .null .null {} []).shrinks hfuel hend
    obtain ⟨expr, σ₂, hexpr, hlen₂⟩ :=
      (parseExpression_terminates hreg .null .null [] 0).shrinks hfuel hend
    unfold parseStreamTurn
    split
    · rename_i hkind
      exact absurd hkind hend
    · refine ⟨_, rfl, ?_⟩
      have hpos := List.length_pos_iff.mpr (tokens_ne_nil hend)
      show input.tokens.tail.length < input.tokens.length
      rw [List.length_tail]
      have : 0 < input.tokens.length := hpos
      omega
    · exact ⟨_, congrArg (Option.map _) hitem, finishTurn_ends hlen₁ (handleItem_ne_null item)⟩
    · exact ⟨_, congrArg (Option.map _) hitem, finishTurn_ends hlen₁ (handleItem_ne_null item)⟩
    · refine ⟨_, congrArg (Option.map _) hexpr, finishTurn_ends hlen₂ ?_⟩
      exact handle_ne_null (.expression expr)

/-- The loop of `ParseStream` returns: at the end of the stream, on an error, or by
ending the process. -/
def StreamEnds (ops : FloatOps D) (jit : List (FunctionIR D) → Bool) (ofInt : Int → D)
    (input : Stream D) (s : Session D) : Prop :=
  ∀ fuel turns, input.tokens.length < fuel → input.tokens.length < turns →
    ∃ r, parseStream ops jit ofInt fuel turns input s = some r ∧
      ((∃ rest s', Repl.Run ops jit ofInt fuel (.reading input s) (.reading rest s') ∧
          (Parser.current (rest.context s')).kind = .eof ∧ r = .ok true s') ∨
        (∃ s', r = .ok false s') ∨ ∃ why, r = .abort why)

/-- Induction on the turns, each of which leaves fewer tokens. -/
theorem parseStream_ends (ops : FloatOps D) (jit : List (FunctionIR D) → Bool) (ofInt : Int → D)
    (input : Stream D) (s : Session D) : StreamEnds ops jit ofInt input s := by
  intro fuel turns hfuel hturns
  induction turns generalizing input s with
  | zero => exact absurd hturns (Nat.not_lt_zero _)
  | succ turns ih =>
    obtain ⟨r, hturn, hends⟩ := parseStreamTurn_ends ops jit ofInt s hfuel
    have hstream : parseStream ops jit ofInt fuel (turns + 1) input s = (some r).bind fun
        | .ok (.next rest) s' => parseStream ops jit ofInt fuel turns rest s'
        | .ok (.return_ ok) s' => some (.ok ok s')
        | .null s' => some (.null s')
        | .abort why => some (.abort why) := by
      rw [← hturn]
      rfl
    rw [hstream]
    cases r with
    | null s' => exact hends.elim
    | abort why => exact ⟨_, rfl, .inr (.inr ⟨why, rfl⟩)⟩
    | ok turn s' =>
      cases turn with
      | return_ ok =>
        cases ok with
        | false => exact ⟨_, rfl, .inr (.inl ⟨s', rfl⟩)⟩
        | true =>
          have hend := hends rfl
          have hsame : s' = s := by
            unfold parseStreamTurn at hturn
            rw [hend] at hturn
            cases hturn
            rfl
          exact ⟨_, rfl, .inl ⟨input, s', hsame ▸ .refl, hsame ▸ hend, rfl⟩⟩
      | next rest =>
        have hlen : rest.tokens.length < input.tokens.length := hends
        obtain ⟨r, hrun, hcases⟩ := ih rest s' (by omega) (by omega)
        refine ⟨r, hrun, hcases.imp_left ?_⟩
        rintro ⟨rest', s'', hreach, hend, rfl⟩
        exact ⟨rest', s'', .head (.next hturn) hreach, hend, rfl⟩

end

end AroundTheWorld.Athens
