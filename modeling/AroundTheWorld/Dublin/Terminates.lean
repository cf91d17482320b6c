import AroundTheWorld.Dublin.ParseComplete
import AroundTheWorld.Parse.Calls

/-!
# Dublin parses terminate

As for Athens, one lemma for each handler. The loop over the statements of a block
stops at `Eof` only, and goes on behind a statement that has been reported: there the
statement has consumed a token.
-/

namespace AroundTheWorld.Dublin

open AroundTheWorld.Lex AroundTheWorld.Parse AroundTheWorld.Smt
open DublinGrammarPack DublinParseBuilder

variable {D : Type} {w n : Nat} {e e' : DublinEngine D}

section
variable (he : EngineCounts w n e e')
include he

theorem parseUnary_counts (tok : Token D) :
    Counts w true n (parseUnary e tok) (parseUnary e' tok) :=
  (he.expression 100).counts.bind fun _ => Counts.pure _

theorem parseArgumentList_counts :
    Counts w true n (parseArgumentList e) (parseArgumentList e') := by
  refine Counts.quiet_bind (Quiet.atKind _) fun empty => ?_
  cases empty with
  | true => exact Counts.pure _
  | false =>
    exact arguments_counts he (fun _ _ _ => rfl) (Nat.le_refl n) he.fuel he.fuel' []

theorem parseIdentifierOrCall_counts (tok : Token D) :
    Counts w true n (parseIdentifierOrCall e tok) (parseIdentifierOrCall e' tok) := by
  refine identifierOrCall_counts (parseArgumentList_counts he) (fun args => ?_) (Quiet.pure _)
  cases args with
  | none => exact Quiet.pure _
  | some args => exact (Quiet.expect _ _).bind fun _ => Quiet.ite (Quiet.pure _) (Quiet.pure _)

/-- `parseAssert` behind the keyword. -/
theorem assertion_counts (tok : Token D) :
    Counts w true n
      (do
        let condition ← e.parseExpression 0
        let _ ← Parser.expect .semicolon "expected ';' after assertion"
        pure (makeAssert tok condition))
      (do
        let condition ← e'.parseExpression 0
        let _ ← Parser.expect .semicolon "expected ';' after assertion"
        pure (makeAssert tok condition)) :=
  he.subexpr.bind fun _ => Counts.of_quiet ((Quiet.expect _ _).bind fun _ => Quiet.pure _)

end

/-! ## Blocks -/

theorem parseArgumentType_quiet : Quiet (parseArgumentType : DublinParser D (Option Ty)) := by
  refine Quiet.consume.bind fun typeTok => ?_
  cases parseTypeToken typeTok with
  | none => exact (Quiet.error _ _).bind fun _ => Quiet.pure _
  | some type => exact Quiet.pure _

/-- Induction on the bound: every turn that goes on has consumed a name and a comma. -/
theorem parseVerifyArguments_counts {a b : Nat} (ha : n ≤ a) (hb : n ≤ b) (args : List Argument) :
    Counts w false n (parseVerifyArguments a args : DublinParser D _)
      (parseVerifyArguments b args) := by
  induction n generalizing a b args with
  | zero => exact fun k σ τ _ hlen => absurd hlen (Nat.not_lt_zero _)
  | succ m ih =>
    obtain ⟨a, rfl⟩ : ∃ a', a = a' + 1 := ⟨a - 1, by omega⟩
    obtain ⟨b, rfl⟩ : ∃ b', b = b' + 1 := ⟨b - 1, by omega⟩
    refine Counts.named_bind (by decide) (fun argName => ?_)
      (Counts.of_quiet ((Quiet.errorHere _).bind fun _ => Quiet.pure _))
    refine Counts.quiet_bind parseArgumentType_quiet fun type => ?_
    cases type with
    | none => exact Counts.pure _
    | some type =>
      refine Counts.quiet_bind (Quiet.atKind _) fun closing => ?_
      cases closing with
      | true => exact Counts.pure _
      | false =>
        refine Counts.test_bind (Tests.expect (by decide) _) ?_ (Counts.pure _)
        exact ((ih (by omega) (by omega) _).mono (by omega)).allow_late

theorem parseVerifyArgumentList_counts {a b : Nat} (ha : n ≤ a) (hb : n ≤ b) :
    Counts w false n (parseVerifyArgumentList a : DublinParser D _)
      (parseVerifyArgumentList b) := by
  refine Counts.quiet_bind (Quiet.atKind _) fun empty => ?_
  cases empty with
  | true => exact Counts.pure _
  | false => exact parseVerifyArguments_counts ha hb []

/-- Induction on the bound: a statement that does not start at `Eof` consumes a token,
reported or not. -/
theorem parseAssertions_counts {m : Nat} (he : EngineCounts w n e e') (hm : m ≤ n) {a b : Nat}
    (ha : m ≤ a) (hb : m ≤ b) (assertions : List Assertion) :
    Counts w false m (parseAssertions e a assertions) (parseAssertions e' b assertions) := by
  induction m generalizing a b assertions with
  | zero => exact fun k σ τ _ hlen => absurd hlen (Nat.not_lt_zero _)
  | succ m ih =>
    obtain ⟨a, rfl⟩ : ∃ a', a = a' + 1 := ⟨a - 1, by omega⟩
    obtain ⟨b, rfl⟩ : ∃ b', b = b' + 1 := ⟨b - 1, by omega⟩
    intro k σ τ h hlen
    by_cases hend : (Parser.current σ).kind = .eof
    · have hstop : ∀ (engine : DublinEngine D) (c : Nat) (σ : ParseState D Unit),
          (Parser.current σ).kind = .eof →
          parseAssertions engine (c + 1) assertions σ = some (assertions, σ) := by
        intro engine c σ hend
        simp only [parseAssertions, Bind.bind, Parser.bind, Parser.atKind, hend, beq_self_eq_true,
          Option.bind_some, if_true]
        rfl
      exact ⟨assertions, k, σ, τ, hstop e a σ hend, hstop e' b τ (by rwa [h.current]), h,
        Pays.refl _ _ _⟩
    · have hgo : ∀ (engine : DublinEngine D) (c : Nat) (σ : ParseState D Unit),
          (Parser.current σ).kind ≠ .eof →
          parseAssertions engine (c + 1) assertions σ = (do
            let assertion ← engine.parseStatement
            parseAssertions engine c (assertions ++ [assertion])) σ := by
        intro engine c σ hend
        have hb : ((Parser.current σ).kind == .eof) = false := by simpa using hend
        simp only [parseAssertions, Bind.bind, Parser.bind, Parser.atKind, hb, Option.bind_some]
        rfl
      have hpos := List.length_pos_iff.mpr (tokens_ne_nil hend)
      obtain ⟨assertion, k₁, σ₁, τ₁, hp, hq, h₁, hpays, heats⟩ := he.statement h (by omega)
      have hle := heats.length_le
      rw [List.length_tail] at hle
      obtain ⟨r, k₂, σ₂, τ₂, hp', hq', h₂, hpays'⟩ := ih (by omega) (a := a) (b := b) (by omega)
        (by omega) (assertions ++ [assertion]) h₁ (by omega)
      refine ⟨r, k₂, σ₂, τ₂, ?_, ?_, h₂, hpays.trans hpays'⟩
      · rw [hgo e a σ hend, Parser.bind_of_some hp]
        exact hp'
      · rw [hgo e' b τ (by rwa [h.current]), Parser.bind_of_some hq]
        exact hq'

theorem parseVerifyBody_counts (he : EngineCounts w n e e') (name : Token D) :
    Counts w false n (parseVerifyBody e name) (parseVerifyBody e' name) := by
  refine Counts.test_bind (Tests.expect (by decide) _) ?_ (Counts.pure _)
  refine Counts.allow_late (Counts.mono ?_ (Nat.sub_le n 1))
  refine (parseVerifyArgumentList_counts he.fuel he.fuel').bind fun args => ?_
  cases args with
  | none => exact Counts.pure _
  | some args =>
    refine Counts.quiet_bind (Quiet.expect _ _) fun closed => ?_
    cases closed with
    | false => exact Counts.pure _
    | true =>
      exact (parseAssertions_counts he (Nat.le_refl n) he.fuel he.fuel' []).bind fun _ =>
        Counts.pure _

/-- `parseVerify` behind the keyword. -/
theorem verify_counts (he : EngineCounts w n e e') :
    Counts w true n
      (do
        let named ← Parser.atKind .identifier
        if named then do
          let name ← Parser.consume
          parseVerifyBody e name
        else do
          Parser.errorHere "expected name after 'verify'"
          pure {})
      (do
        let named ← Parser.atKind .identifier
        if named then do
          let name ← Parser.consume
          parseVerifyBody e' name
        else do
          Parser.errorHere "expected name after 'verify'"
          pure {}) :=
  Counts.named_bind (by decide)
    (fun name => ((parseVerifyBody_counts he name).mono (Nat.sub_le n 1)).allow_late)
    (Counts.of_quiet ((Quiet.errorHere _).bind fun _ => Quiet.pure _))

/-! ## The registry -/

theorem dublinRegistry_prefix_counts {kind : TokenKind}
    {handler : PrefixExprHandler D Unit Expr Assertion}
    (h : dublinRegistry.findPrefixHandler kind = some handler) (he : EngineCounts w n e e')
    (tok : Token D) : Counts w true n (handler e tok) (handler e' tok) := by
  cases kind <;> cases h
  case identifier.refl => exact parseIdentifierOrCall_counts he tok
  case integer.refl => exact Counts.of_quiet (prefixIntegerExpr_quiet tok)
  case float.refl => exact Counts.of_quiet (prefixFloatExpr_quiet tok)
  case lParen.refl => exact prefixParenExpr_counts he tok
  case kwTrue.refl => exact Counts.pure _
  case kwFalse.refl => exact Counts.pure _
  all_goals exact parseUnary_counts he tok

theorem dublinRegistry_handlersCount : HandlersCount (dublinRegistry (D := D)) where
  prefixEof := rfl
  infixEof := rfl
  stmtEof := rfl
  itemEof := rfl
  prefix_ := fun _ _ h _ _ _ _ tok he => dublinRegistry_prefix_counts h he tok
  infix_ := by
    intro kind entry h w n e e' lhs tok rhs _
    cases kind <;> cases h <;> exact Counts.pure _
  stmt := by
    intro kind handler h
    obtain ⟨-, rfl⟩ := dublinRegistry_stmt h
    exact ⟨fun e tok => do
      let condition ← e.parseExpression 0
      let _ ← Parser.expect .semicolon "expected ';' after assertion"
      pure (makeAssert tok condition), fun _ => rfl, fun _ _ _ _ tok he => assertion_counts he tok⟩
  item := by
    intro kind handler h
    obtain ⟨-, rfl⟩ := dublinRegistry_item h
    exact ⟨fun e _ => do
      let named ← Parser.atKind .identifier
      if named then do
        let name ← Parser.consume
        parseVerifyBody e name
      else do
        Parser.errorHere "expected name after 'verify'"
        pure {}, fun _ => rfl, fun _ _ _ _ _ he => verify_counts he⟩

/-- The loop over the statements of a block, whatever stands in it. -/
theorem parseAssertions_reaches_eof {fuel : Nat} {σ : ParseState D Unit}
    (hfuel : σ.tokens.length < fuel) (assertions : List Assertion) :
    ∃ r σ', parseAssertions (dublinEngine fuel) fuel assertions σ = some (r, σ') ∧
      (Parser.current σ').kind = .eof := by
  have he := plain_counts (dublinRegistry_handlersCount (D := D)) .null .null fuel
    (Nat.le_refl fuel)
    (Nat.le_refl fuel)
  obtain ⟨r, -, σ', -, hrun, -⟩ := parseAssertions_counts he (Nat.le_refl fuel) (Nat.le_refl fuel)
    (Nat.le_refl fuel) assertions (Noted.refl 0 σ) hfuel
  exact ⟨r, σ', hrun, parseAssertions_end hrun⟩

end AroundTheWorld.Dublin
