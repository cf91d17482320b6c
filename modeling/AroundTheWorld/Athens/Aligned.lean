import AroundTheWorld.Athens.Handed
import AroundTheWorld.Parse.Aligned

/-!
# Items end at their semicolon

No handler takes a `;` without a report, and none looks at the location of a token. What
a turn of the driver hands on is thus decided by the tokens up to the next `;`.
-/

namespace AroundTheWorld.Athens

open AroundTheWorld.Base AroundTheWorld.Lex AroundTheWorld.Llvm AroundTheWorld.Parse
open AthensGrammarPack AthensParseBuilder

variable {D : Type} {later later' : List (Token D)}

/-! ## Handlers -/

section
variable {ofInt : Int → D} {engine : AthensEngine D} {tok tok' : Token D}
  (hlater : StartsWith .semicolon later) (hlater' : StartsWith .semicolon later')
  (hengine : EngineTracks later later' engine)
include hlater hlater' hengine

theorem parseArguments_tracks (n : Nat) (args : List (ExprAST D)) : Tracks later later' id
    (parseArguments engine n args) (parseArguments engine n args) := by
  induction n generalizing args with
  | zero => exact Tracks.diverge
  | succ n ih =>
    refine Tracks.bind_same (hengine 0) fun arg => ?_
    refine Tracks.atKind_bind hlater hlater' fun closing => ?_
    cases closing with
    | true => exact Tracks.pure rfl
    | false =>
      refine Tracks.expect_bind hlater hlater' (by decide) fun comma => ?_
      cases comma with
      | true => exact ih _
      | false => exact Tracks.pure rfl

theorem parseArgumentList_tracks :
    Tracks later later' id (parseArgumentList engine) (parseArgumentList engine) := by
  refine Tracks.atKind_bind hlater hlater' fun empty => ?_
  cases empty with
  | true => exact Tracks.pure rfl
  | false => exact parseArguments_tracks hlater hlater' hengine _ []

theorem parseIdentifierOrCall_tracks (h : tok.content = tok'.content) : Tracks later later' id
    (parseIdentifierOrCall engine tok) (parseIdentifierOrCall engine tok') := by
  refine Tracks.matchKind_bind hlater hlater' (by decide) fun opened => ?_
  cases opened with
  | true =>
    refine Tracks.bind_same (parseArgumentList_tracks hlater hlater' hengine) fun args => ?_
    cases args with
    | none => exact Tracks.pure rfl
    | some args =>
      refine Tracks.expect_bind hlater hlater' (by decide) fun closed => ?_
      cases closed with
      | true => exact Tracks.pure (by simp only [makeCall, content_lexeme h])
      | false => exact Tracks.pure rfl
  | false => exact Tracks.pure (by simp only [makeIdentifier, content_lexeme h])

omit hlater hlater' in
theorem parseUnary_tracks (h : tok.content = tok'.content) :
    Tracks later later' id (parseUnary engine tok) (parseUnary engine tok') := by
  refine Tracks.bind_same (hengine 100) fun operand => Tracks.pure ?_
  simp only [makeUnary, content_lexeme h]

theorem parseIf_tracks : Tracks later later' id (parseIf engine tok) (parseIf engine tok') := by
  refine Tracks.bind_same (hengine 0) fun cond => ?_
  refine Tracks.expect_bind hlater hlater' (by decide) fun ok => ?_
  cases ok with
  | false => exact Tracks.pure rfl
  | true =>
    refine Tracks.bind_same (hengine 0) fun then_ => ?_
    refine Tracks.expect_bind hlater hlater' (by decide) fun ok => ?_
    cases ok with
    | false => exact Tracks.pure rfl
    | true => exact Tracks.bind_same (hengine 0) fun else_ => Tracks.pure rfl

/-- A step or an initialiser. -/
theorem optional_tracks {kind : TokenKind} (hne : kind ≠ .semicolon) : Tracks later later' id
    (do
      let found ← Parser.matchKind kind
      if found then engine.parseExpression 0 else pure .null)
    (do
      let found ← Parser.matchKind kind
      if found then engine.parseExpression 0 else pure .null) := by
  refine Tracks.matchKind_bind hlater hlater' hne fun found => ?_
  cases found with
  | true => exact hengine 0
  | false => exact Tracks.pure rfl

theorem parseForRange_tracks (h : tok.content = tok'.content) :
    Tracks later later' id (parseForRange engine tok) (parseForRange engine tok') := by
  refine Tracks.bind_same (hengine 0) fun start => ?_
  refine Tracks.expect_bind hlater hlater' (by decide) fun ok => ?_
  cases ok with
  | false => exact Tracks.pure rfl
  | true =>
    refine Tracks.bind_same (hengine 0) fun end_ => ?_
    refine Tracks.bind_same (optional_tracks hlater hlater' hengine (by decide)) fun step => ?_
    refine Tracks.expect_bind hlater hlater' (by decide) fun ok => ?_
    cases ok with
    | false => exact Tracks.pure rfl
    | true =>
      refine Tracks.bind_same (hengine 0) fun body => Tracks.pure ?_
      simp only [makeFor, content_lexeme h]

theorem parseFor_tracks : Tracks later later' id (parseFor engine tok) (parseFor engine tok') := by
  refine Tracks.atKind_consume hlater hlater' (by decide) ?_
    (Tracks.of_reports (reports_errorHere _ _))
  intro name name' hname
  refine Tracks.expect_bind hlater hlater' (by decide) fun ok => ?_
  cases ok with
  | false => exact Tracks.pure rfl
  | true => exact parseForRange_tracks hlater hlater' hengine hname

theorem parseBindings_tracks (n : Nat) (bindings : List (Name × ExprAST D)) :
    Tracks later later' id (parseBindings engine n bindings) (parseBindings engine n bindings) := by
  induction n generalizing bindings with
  | zero => exact Tracks.diverge
  | succ n ih =>
    refine Tracks.atKind_consume hlater hlater' (by decide) ?_
      (Tracks.of_reports (reports_errorHere _ _))
    intro name name' hname
    refine Tracks.bind_same (optional_tracks hlater hlater' hengine (by decide)) fun init => ?_
    refine Tracks.matchKind_bind hlater hlater' (by decide) fun comma => ?_
    rw [content_lexeme hname]
    cases comma with
    | true => exact ih _
    | false => exact Tracks.pure rfl

theorem parseVar_tracks : Tracks later later' id (parseVar engine tok) (parseVar engine tok') := by
  refine Tracks.bind_same (parseBindings_tracks hlater hlater' hengine _ []) fun bindings => ?_
  cases bindings with
  | none => exact Tracks.pure rfl
  | some bindings =>
    refine Tracks.expect_bind hlater hlater' (by decide) fun ok => ?_
    cases ok with
    | false => exact Tracks.pure rfl
    | true => exact Tracks.bind_same (hengine 0) fun body => Tracks.pure rfl

theorem prefixParenExpr_tracks : Tracks later later' id
    (DefaultGrammarPack.prefixParenExpr (exprBuilder ofInt) engine tok)
    (DefaultGrammarPack.prefixParenExpr (exprBuilder ofInt) engine tok') := by
  refine Tracks.bind_same (hengine 0) fun inner => ?_
  refine Tracks.expect_bind hlater hlater' (by decide) fun closed => ?_
  cases closed with
  | true => exact Tracks.pure rfl
  | false => exact Tracks.pure rfl

theorem athensRegistry_prefix_tracks {kind : TokenKind}
    {handler : PrefixExprHandler D BinopTable (ExprAST D) (ExprAST D)}
    (h : (athensRegistry ofInt).findPrefixHandler kind = some handler)
    (hcontent : tok.content = tok'.content) :
    Tracks later later' id (handler engine tok) (handler engine tok') := by
  cases kind <;> cases h
  case identifier.refl => exact parseIdentifierOrCall_tracks hlater hlater' hengine hcontent
  case integer.refl =>
    unfold DefaultGrammarPack.prefixIntegerExpr
    rw [content_literal hcontent]
    cases tok'.literal with
    | int val => exact Tracks.pure rfl
    | _ => exact Tracks.of_reports (reports_error _ _ _)
  case float.refl =>
    unfold DefaultGrammarPack.prefixFloatExpr
    rw [content_literal hcontent]
    cases tok'.literal with
    | double val => exact Tracks.pure rfl
    | _ => exact Tracks.of_reports (reports_error _ _ _)
  case lParen.refl => exact prefixParenExpr_tracks hlater hlater' hengine
  case kwIf.refl => exact parseIf_tracks hlater hlater' hengine
  case kwFor.refl => exact parseFor_tracks hlater hlater' hengine
  case kwVar.refl => exact parseVar_tracks hlater hlater' hengine
  all_goals exact parseUnary_tracks hengine hcontent

end

/-! ## Names in front of what comes later -/

theorem names_split {later : List (Token D)} (hlater : StartsWith .semicolon later)
    (ts : List (Token D)) :
    (ts ++ later).takeWhile (fun tok => tok.kind == .identifier) =
        ts.takeWhile (fun tok => tok.kind == .identifier) ∧
      (ts ++ later).dropWhile (fun tok => tok.kind == .identifier) =
        ts.dropWhile (fun tok => tok.kind == .identifier) ++ later := by
  obtain ⟨stop, rest, rfl, hstop⟩ := hlater
  induction ts with
  | nil => simp [hstop]
  | cons tok ts ih =>
    by_cases hname : tok.kind = .identifier
    · simpa [hname] using ih
    · simp [hname]

theorem names_content {ts ts' : List (Token D)}
    (h : ts.map (·.content) = ts'.map (·.content)) :
    (ts.takeWhile fun tok => tok.kind == .identifier).map (·.lexeme) =
        (ts'.takeWhile fun tok => tok.kind == .identifier).map (·.lexeme) ∧
      (ts.dropWhile fun tok => tok.kind == .identifier).map (·.content) =
        (ts'.dropWhile fun tok => tok.kind == .identifier).map (·.content) := by
  induction ts generalizing ts' with
  | nil =>
    obtain rfl : ts' = [] := by simpa using h.symm
    exact ⟨rfl, rfl⟩
  | cons tok ts ih =>
    cases ts' with
    | nil => cases h
    | cons tok' ts' =>
      obtain ⟨hcontent, hts⟩ := List.cons.inj h
      by_cases hname : tok.kind = .identifier
      · have hname' : tok'.kind = .identifier := by rw [← content_kind hcontent, hname]
        simpa [hname, hname', content_lexeme hcontent] using ih hts
      · have hname' : tok'.kind ≠ .identifier := by rwa [← content_kind hcontent]
        simpa [hname, hname'] using ⟨hcontent, hts⟩

section
variable (hlater : StartsWith .semicolon later) (hlater' : StartsWith .semicolon later')
include hlater hlater'

theorem athensRegistry_handlersFollow (ofInt : Int → D) :
    HandlersFollow later later' .semicolon (athensRegistry ofInt) where
  prefixStop := rfl
  infixStop := rfl
  prefix_ := by
    rintro kind handler h engine hengine tok tok' - hcontent
    exact athensRegistry_prefix_tracks hlater hlater' hengine h hcontent
  infix_ := by
    rintro kind entry h engine - tok tok' - hcontent
    obtain ⟨-, rfl⟩ := athensRegistry_infix h
    refine ⟨fun g => ?_, fun lhs rhs => Tracks.pure ?_⟩
    · show athensOperatorPrecedence g tok = athensOperatorPrecedence g tok'
      simp only [athensOperatorPrecedence, content_lexeme hcontent]
    · simp only [makeBinary, content_lexeme hcontent]

theorem athensEngine_tracks (ofInt : Int → D) (fuel : Nat) :
    EngineTracks later later' (athensEngine ofInt fuel) :=
  parserEngine_tracks hlater hlater' (athensRegistry_handlersFollow hlater hlater' ofInt) _ _ fuel

/-! ## Prototypes and items -/

/-- An operator is taken with the same lexeme. -/
theorem consumeOperator_tracks (message : String) : Tracks later later' (Token.lexeme (D := D))
    (consumeOperator message) (consumeOperator message) := by
  intro σ tok σ' hrun
  unfold consumeOperator at hrun
  split at hrun
  · obtain ⟨r, hne, hr⟩ :=
      reports_errorHere message ({ kind := .invalid, lexeme := [] } : Token D) hrun
    exact ⟨r, hr, fun hnil => absurd hnil hne⟩
  · rename_i hop
    cases hrun
    refine ⟨[], by simp, fun _ τ halign => ?_⟩
    have hne : (Parser.current σ).kind ≠ .semicolon := by
      intro hkind
      rw [hkind] at hop
      exact hop rfl
    obtain ⟨hcontent, halign'⟩ := halign.step hlater hlater' hne
    refine ⟨Parser.current τ, _, ?_, content_lexeme hcontent, halign'⟩
    unfold consumeOperator
    rw [← content_kind hcontent, ← content_lexeme hcontent, if_neg hop]
    rfl

theorem parseUnaryHead_tracks :
    Tracks later later' id (parseUnaryHead (D := D)) parseUnaryHead := by
  refine Tracks.bind (consumeOperator_tracks hlater hlater' _) fun opTok opTok' hlexeme => ?_
  rw [hlexeme]
  split
  · exact Tracks.pure rfl
  · exact Tracks.pure rfl

theorem parseBinaryPrecedence_tracks :
    Tracks later later' id (parseBinaryPrecedence (D := D)) parseBinaryPrecedence := by
  refine Tracks.atKind_consume hlater hlater' (by decide) ?_ (Tracks.pure rfl)
  intro tok tok' hcontent
  rw [content_literal hcontent]
  cases checkedPrecedence tok'.literal with
  | none => exact Tracks.of_reports (reports_error _ _ _)
  | some precedence => exact Tracks.pure rfl

/-- The operator with its precedence, but for its location. -/
def operatorView (operator : Option (Token D × Nat)) : Option (Text × Nat) :=
  operator.map fun (opTok, precedence) => (opTok.lexeme, precedence)

theorem parseBinaryOperator_tracks :
    Tracks later later' operatorView (parseBinaryOperator (D := D)) parseBinaryOperator := by
  refine Tracks.bind (consumeOperator_tracks hlater hlater' _) fun opTok opTok' hlexeme => ?_
  rw [hlexeme]
  split
  · exact Tracks.pure rfl
  · refine Tracks.bind_same (parseBinaryPrecedence_tracks hlater hlater') fun precedence => ?_
    refine Tracks.pure ?_
    cases precedence with
    | none => rfl
    | some precedence => simp [operatorView, hlexeme]

omit hlater hlater' in
theorem installBinop_tracks (c : Byte) (precedence : Int) : Tracks later later' id
    (installBinop (D := D) c precedence) (installBinop c precedence) := by
  intro σ a σ' hrun
  cases hrun
  refine ⟨[], by simp, fun _ τ halign => ⟨(), _, rfl, rfl, halign.tokens, halign.diag, ?_⟩⟩
  show σ.globals.set c _ = τ.globals.set c _
  rw [halign.globals]

theorem parseBinaryHead_tracks :
    Tracks later later' id (parseBinaryHead (D := D)) parseBinaryHead := by
  refine Tracks.bind (parseBinaryOperator_tracks hlater hlater') fun operator operator' hview => ?_
  cases operator with
  | none =>
    cases operator' with
    | none => exact Tracks.pure rfl
    | some operator' => cases hview
  | some operator =>
    cases operator' with
    | none => cases hview
    | some operator' =>
      obtain ⟨hlexeme, hprecedence⟩ := Prod.mk.inj (Option.some.inj hview)
      simp only [hlexeme, hprecedence]
      exact Tracks.bind_same (installBinop_tracks _ _) fun _ => Tracks.pure rfl

omit hlater hlater' in
theorem parsePrototypeHead_eq : (parsePrototypeHead : AthensParser D (Option PrototypeHead)) = (do
    let named ← Parser.atKind .identifier
    if named then do
      let nameTok ← Parser.consume
      pure (some ⟨nameTok.lexeme, 0, 30⟩)
    else do
      let unary ← Parser.atKind .kwUnaryOp
      if unary then do
        let _ ← Parser.consume
        parseUnaryHead
      else do
        let binary ← Parser.atKind .kwBinaryOp
        if binary then do
          let _ ← Parser.consume
          parseBinaryHead
        else do
          Parser.errorHere "expected function name in prototype"
          pure none) := by
  funext σ
  simp only [parsePrototypeHead, Bind.bind, Parser.bind, Parser.atKind, Option.bind_some, ite_apply]
  generalize (Parser.current σ).kind = kind
  cases kind <;> rfl

theorem parsePrototypeHead_tracks :
    Tracks later later' id (parsePrototypeHead (D := D)) parsePrototypeHead := by
  rw [parsePrototypeHead_eq]
  refine Tracks.atKind_consume hlater hlater' (by decide) ?_ ?_
  · intro tok tok' hcontent
    rw [content_lexeme hcontent]
    exact Tracks.pure rfl
  refine Tracks.atKind_consume hlater hlater' (by decide) ?_ ?_
  · exact fun _ _ _ => parseUnaryHead_tracks hlater hlater'
  refine Tracks.atKind_consume hlater hlater' (by decide) ?_ ?_
  · exact fun _ _ _ => parseBinaryHead_tracks hlater hlater'
  · exact Tracks.of_reports (reports_errorHere _ _)

/-- What ends an item is no name. -/
theorem parseParameters_tracks :
    Tracks later later' id (parseParameters (D := D)) parseParameters := by
  intro σ a σ' hrun
  cases hrun
  refine ⟨[], by simp, fun _ τ halign => ⟨_, _, rfl, ?_, ?_, halign.diag, halign.globals⟩⟩
  all_goals
    obtain ⟨ts, ts', hts, hσ, hτ⟩ := halign.tokens
    have hsplit := names_split hlater ts
    have hsplit' := names_split hlater' ts'
    obtain ⟨hnames, hrest⟩ := names_content hts
  · show (σ.tokens.takeWhile _).map _ = (τ.tokens.takeWhile _).map _
    rw [hσ, hτ, hsplit.1, hsplit'.1, hnames]
  · exact ⟨_, _, hrest, by rw [hσ, hsplit.2], by rw [hτ, hsplit'.2]⟩

theorem parsePrototypeTail_tracks (head : PrototypeHead) :
    Tracks later later' id (parsePrototypeTail (D := D) head) (parsePrototypeTail head) := by
  refine Tracks.expect_bind hlater hlater' (by decide) fun opened => ?_
  cases opened with
  | false => exact Tracks.pure rfl
  | true =>
    refine Tracks.bind_same (parseParameters_tracks hlater hlater') fun args => ?_
    refine Tracks.expect_bind hlater hlater' (by decide) fun closed => ?_
    cases closed with
    | false => exact Tracks.pure rfl
    | true =>
      by_cases hcount : head.kind ≠ 0 ∧ args.length ≠ head.kind
      · simp only [if_pos hcount]
        exact Tracks.of_reports (reports_errorHere _ _)
      · simp only [if_neg hcount]
        exact Tracks.pure rfl

theorem parsePrototype_tracks :
    Tracks later later' id (parsePrototype (D := D)) parsePrototype := by
  refine Tracks.bind_same (parsePrototypeHead_tracks hlater hlater') fun head => ?_
  cases head with
  | none => exact Tracks.pure rfl
  | some head => exact parsePrototypeTail_tracks hlater hlater' head

/-- Behind `def`. -/
theorem parseDefinition_tracks (ofInt : Int → D) (fuel : Nat) : Tracks later later' id
    (do
      let prototype ← parsePrototype
      let body ← (athensEngine ofInt fuel).parseExpression 0
      pure (makeFunction prototype body))
    (do
      let prototype ← parsePrototype
      let body ← (athensEngine ofInt fuel).parseExpression 0
      pure (makeFunction prototype body)) := by
  refine Tracks.bind_same (parsePrototype_tracks hlater hlater') fun prototype => ?_
  exact Tracks.bind_same (athensEngine_tracks hlater hlater' ofInt fuel 0) fun body =>
    Tracks.pure rfl

/-- Behind `extern`. -/
theorem parseExtern_tracks : Tracks later later' id
    (do
      let prototype ← parsePrototype
      pure (makeExtern prototype : AthensParsedItem D))
    (do
      let prototype ← parsePrototype
      pure (makeExtern prototype)) :=
  Tracks.bind_same (parsePrototype_tracks hlater hlater') fun _ => Tracks.pure rfl

theorem parseItem_tracks {ofInt : Int → D} {fuel : Nat} {σ σ' τ : ParseState D BinopTable}
    {item : AthensParsedItem D} (halign : Aligned later later' σ τ)
    (hkind : (Parser.current σ).kind = .kwFuncDef ∨ (Parser.current σ).kind = .kwExtern)
    (hrun : athensParseItem ofInt fuel σ = some (item, σ')) (hdiag : σ'.diag = σ.diag) :
    ∃ τ', athensParseItem ofInt fuel τ = some (item, τ') ∧ Aligned later later' σ' τ' := by
  have hsame := halign.current_kind hlater hlater'
  have hne : (Parser.current σ).kind ≠ .semicolon := by
    rintro hstop
    rw [hstop] at hkind
    rcases hkind with hkind | hkind <;> cases hkind
  obtain ⟨-, hrest⟩ := halign.step hlater hlater' hne
  unfold athensParseItem parseItem at hrun ⊢
  rw [← hsame]
  rcases hkind with hkind | hkind
  · rw [hkind] at hrun ⊢
    exact (parseDefinition_tracks hlater hlater' ofInt fuel).run hrun hdiag hrest
  · rw [hkind] at hrun ⊢
    exact (parseExtern_tracks hlater hlater').run hrun hdiag hrest

/-- The same AST is handed on. -/
theorem handed_tracks {ofInt : Int → D} {fuel : Nat} {input input' : Stream D} {s : Session D}
    {x : Handed D} {σ : ParseState D BinopTable}
    (halign : Aligned later later' (input.context s) (input'.context s))
    (h : input.handed ofInt fuel s = some (x, σ)) :
    ∃ τ, input'.handed ofInt fuel s = some (x, τ) ∧ Aligned later later' σ τ := by
  have hsame := halign.current_kind hlater hlater'
  have hitem : (Parser.current (input.context s)).kind = .kwFuncDef ∨
      (Parser.current (input.context s)).kind = .kwExtern →
      ((athensParseItem ofInt fuel (input.context s)).bind fun r =>
        if r.2.diag = [] then r.1.handed.map (·, r.2) else none) = some (x, σ) →
      ∃ τ, ((athensParseItem ofInt fuel (input'.context s)).bind fun r =>
        if r.2.diag = [] then r.1.handed.map (·, r.2) else none) = some (x, τ) ∧
        Aligned later later' σ τ := by
    intro hkind h
    obtain ⟨⟨item, σ₁⟩, hparse, h⟩ := Option.bind_eq_some_iff.mp h
    dsimp only at h
    split at h
    · rename_i hdiag
      obtain ⟨y, hy, heq⟩ := Option.map_eq_some_iff.mp h
      obtain ⟨rfl, rfl⟩ := Prod.mk.inj heq
      obtain ⟨τ, hτ, halign'⟩ := parseItem_tracks hlater hlater' halign hkind hparse hdiag
      refine ⟨τ, ?_, halign'⟩
      simp only [hτ, Option.bind_some, ← halign'.diag, if_pos hdiag, hy, Option.map_some]
    · cases h
  unfold Stream.handed at h ⊢
  rw [← hsame]
  split at h
  · cases h
  · cases h
  · rename_i hkind
    exact hitem (.inl hkind) h
  · rename_i hkind
    exact hitem (.inr hkind) h
  · obtain ⟨⟨expr, σ₁⟩, hparse, h⟩ := Option.bind_eq_some_iff.mp h
    dsimp only at h
    split at h
    · rename_i hdiag
      obtain ⟨rfl, rfl⟩ := Prod.mk.inj (Option.some.inj h)
      obtain ⟨τ, hτ, halign'⟩ :=
        (athensEngine_tracks hlater hlater' ofInt fuel 0).run hparse hdiag halign
      refine ⟨τ, ?_, halign'⟩
      simp only [hτ, Option.bind_some, ← halign'.diag, if_pos hdiag]
    · cases h

end

end AroundTheWorld.Athens
