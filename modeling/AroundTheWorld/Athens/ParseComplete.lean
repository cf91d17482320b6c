import Mathlib.Data.List.TakeWhile
import AroundTheWorld.Athens.Spells
import AroundTheWorld.Lex.Spelling
import AroundTheWorld.Parse.Yields

/-!
# Athens parses are complete or diagnosed

One lemma for each handler: if it reports nothing and has consumed no operator
of two characters, the tokens it consumed spell the expression it returns. The
engine rule turns these into a theorem about `parseExpression`; items follow.
-/

namespace AroundTheWorld.Athens

open AroundTheWorld.Lex AroundTheWorld.Parse
open AthensGrammarPack AthensParseBuilder

variable {D : Type} {ofInt : Int → D} {engine : AthensEngine D}

/-- The relation that the handlers keep. -/
def Spelled (ofInt : Int → D) (c : List (Token D)) (e : ExprAST D) : Prop :=
  Narrow c → Spells ofInt c e

/-! ## The builder on children that are there -/

section
variable {tok : Token D} {op : Byte} {a b c step : ExprAST D}

theorem makeUnary_eq (hlex : tok.lexeme = [op]) (ha : a ≠ .null) :
    makeUnary tok a = .unaryExpr op a := by
  cases a <;> first | exact absurd rfl ha | simp only [makeUnary, hlex]

theorem makeBinary_eq (hlex : tok.lexeme = [op]) (ha : a ≠ .null) (hb : b ≠ .null) :
    makeBinary tok a b = .binaryExpr op a b := by
  unfold makeBinary
  split <;> simp_all

theorem makeIf_eq (ha : a ≠ .null) (hb : b ≠ .null) (hc : c ≠ .null) :
    makeIf a b c = .ifExpr a b c := by
  unfold makeIf
  split <;> simp_all

theorem makeFor_eq (ha : a ≠ .null) (hb : b ≠ .null) (hc : c ≠ .null) :
    makeFor tok a b step c = .forExpr tok.lexeme a b step c := by
  unfold makeFor
  split <;> simp_all

theorem makeVar_eq {bindings : List (Name × ExprAST D)} (hb : b ≠ .null) :
    makeVar bindings b = .varExpr bindings b := by
  unfold makeVar
  split <;> simp_all

theorem makeFunction_eq {proto : PrototypeAST} (ha : a ≠ .null) :
    makeFunction (some proto) a = { function := some ⟨proto, a⟩ } := by
  unfold makeFunction
  split <;> simp_all

end

theorem Spells.ne_null {ts : List (Token D)} {e : ExprAST D} (h : Spells ofInt ts e) :
    e ≠ .null := h.complete.ne_null

/-! ## Handlers -/

theorem parseUnary_yields (hengine : EngineYields engine (Spelled ofInt)) {tok : Token D}
    (hop : isAthensOperatorToken tok.kind = true) :
    Yields (parseUnary engine tok) fun c e => Spelled ofInt (tok :: c) e := by
  refine (hengine 100 (by decide)).bind fun operand => Yields.pure ?_
  intro c hc hnarrow
  obtain ⟨hlen, hrest⟩ := narrow_cons.mp hnarrow
  obtain ⟨op, hlex⟩ := List.length_eq_one_iff.mp (hlen hop)
  rw [List.append_nil] at hrest ⊢
  have hspells := hc hrest
  rw [makeUnary_eq hlex hspells.ne_null]
  exact .unary hop hlex hspells

/-- The loop over arguments adds what the consumed tokens spell. -/
theorem parseArguments_yields (hengine : EngineYields engine (Spelled ofInt)) (n : Nat)
    (args : List (ExprAST D)) : Yields (parseArguments engine n args) fun c r =>
      Narrow c → ∃ new, r = some (args ++ new) ∧ SpellsArgs ofInt c new := by
  induction n generalizing args with
  | zero => exact Yields.diverge
  | succ n ih =>
    refine (hengine 0 (by decide)).bind fun arg => Yields.atKind_bind fun closing => ?_
    cases closing with
    | true =>
      refine Yields.pure ?_
      intro c hc hnarrow
      rw [List.append_nil] at hnarrow ⊢
      exact ⟨[arg], rfl, .lastArg (hc hnarrow)⟩
    | false =>
      refine Yields.expect_bind (by decide) ((ih _).mono ?_) (Yields.pure trivial)
      intro c r hr tok hcomma c₀ hc₀ hnarrow
      simp only [narrow_append, narrow_cons] at hnarrow
      obtain ⟨new, rfl, hnew⟩ := hr hnarrow.2.2
      exact ⟨arg :: new, by simp, .moreArgs (hc₀ hnarrow.1) hcomma hnew⟩

/-- The whole list, which may be empty. -/
theorem parseArgumentList_yields (hengine : EngineYields engine (Spelled ofInt)) :
    Yields (parseArgumentList engine) fun c r =>
      Narrow c → ∃ args, r = some args ∧ ((c = [] ∧ args = []) ∨ SpellsArgs ofInt c args) := by
  refine Yields.atKind_bind fun empty => ?_
  cases empty with
  | true => exact Yields.pure fun _ => ⟨[], rfl, .inl ⟨rfl, rfl⟩⟩
  | false =>
    refine (parseArguments_yields hengine _ []).mono ?_
    intro c r hr hnarrow
    obtain ⟨new, rfl, hnew⟩ := hr hnarrow
    exact ⟨new, rfl, .inr hnew⟩

theorem parseIdentifierOrCall_yields (hengine : EngineYields engine (Spelled ofInt))
    {tok : Token D} (hkind : tok.kind = .identifier) :
    Yields (parseIdentifierOrCall engine tok) fun c e => Spelled ofInt (tok :: c) e := by
  refine Yields.matchKind_bind (by decide) ?_ (Yields.pure fun _ => .identifier hkind)
  refine (parseArgumentList_yields hengine).bind fun args => ?_
  cases args with
  | none =>
    refine Yields.pure ?_
    intro c hc opening hopen hnarrow
    simp only [List.append_nil, narrow_cons] at hnarrow
    obtain ⟨args, hnone, -⟩ := hc hnarrow.2.2
    cases hnone
  | some args =>
    refine Yields.expect_bind (by decide) (Yields.pure ?_) (Yields.pure trivial)
    intro closing hclose c hc opening hopen hnarrow
    simp only [narrow_cons, narrow_append] at hnarrow
    obtain ⟨args', hargs, hspells⟩ := hc hnarrow.2.2.1
    obtain rfl := Option.some.inj hargs
    rcases hspells with ⟨rfl, rfl⟩ | hspells
    · exact .callNone hkind hopen hclose
    · exact .call hkind hopen hspells hclose

theorem parseIf_yields (hengine : EngineYields engine (Spelled ofInt)) {tok : Token D}
    (hkind : tok.kind = .kwIf) :
    Yields (parseIf engine tok) fun c e => Spelled ofInt (tok :: c) e := by
  refine (hengine 0 (by decide)).bind fun cond => ?_
  refine Yields.expect_bind (by decide) ?_ (Yields.pure trivial)
  refine (hengine 0 (by decide)).bind fun then_ => ?_
  refine Yields.expect_bind (by decide) ?_ (Yields.pure trivial)
  refine (hengine 0 (by decide)).bind fun else_ => Yields.pure ?_
  intro e he kwElse hElse t ht kwThen hThen c hc hnarrow
  simp only [narrow_cons, narrow_append, List.append_nil] at hnarrow ⊢
  obtain ⟨-, hnc, -, hnt, -, hne⟩ := hnarrow
  have hcond := hc hnc
  have hthen := ht hnt
  have helse := he hne
  rw [makeIf_eq hcond.ne_null hthen.ne_null helse.ne_null]
  exact .ifExpr hkind hcond hThen hthen hElse helse

/-- A part that is there exactly when its first token is. -/
theorem optional_yields (hengine : EngineYields engine (Spelled ofInt)) {kind : TokenKind}
    (hne : kind ≠ .eof) : Yields (do
      let found ← Parser.matchKind kind
      if found then engine.parseExpression 0 else pure .null) fun c e =>
        Narrow c → SpellsOptional ofInt kind c e := by
  refine Yields.matchKind_bind hne ?_ (Yields.pure fun _ => .absent)
  refine (hengine 0 (by decide)).mono ?_
  intro c e he tok htok hnarrow
  subst htok
  exact .present (he (narrow_cons.mp hnarrow).2)

theorem parseFor_yields (hengine : EngineYields engine (Spelled ofInt)) {tok : Token D}
    (hkind : tok.kind = .kwFor) :
    Yields (parseFor engine tok) fun c e => Spelled ofInt (tok :: c) e := by
  refine Yields.atKind_consume (by decide) ?_ (Yields.errorHere_bind _ (Yields.pure trivial))
  intro name hname
  refine Yields.expect_bind (by decide) ?_ (Yields.pure trivial)
  refine (hengine 0 (by decide)).bind fun start => ?_
  refine Yields.expect_bind (by decide) ?_ (Yields.pure trivial)
  refine (hengine 0 (by decide)).bind fun end_ => ?_
  refine (optional_yields hengine (by decide)).bind fun step => ?_
  refine Yields.expect_bind (by decide) ?_ (Yields.pure trivial)
  refine (hengine 0 (by decide)).bind fun body => Yields.pure ?_
  intro b hb kwIn hIn st hst e he comma hcomma s hs equal hequal hnarrow
  simp only [narrow_cons, narrow_append, List.append_nil] at hnarrow ⊢
  obtain ⟨-, -, -, hns, -, hne, hnst, -, hnb⟩ := hnarrow
  have hstart := hs hns
  have hend := he hne
  have hbody := hb hnb
  rw [makeFor_eq hstart.ne_null hend.ne_null hbody.ne_null]
  exact .forExpr hkind hname hequal hstart hcomma hend (hst hnst) hIn hbody

/-- The loop over bindings adds what the consumed tokens spell. -/
theorem parseBindings_yields (hengine : EngineYields engine (Spelled ofInt)) (n : Nat)
    (bindings : List (Name × ExprAST D)) : Yields (parseBindings engine n bindings) fun c r =>
      Narrow c → ∃ new, r = some (bindings ++ new) ∧ SpellsBindings ofInt c new := by
  induction n generalizing bindings with
  | zero => exact Yields.diverge
  | succ n ih =>
    refine Yields.atKind_consume (by decide) ?_ (Yields.errorHere_bind _ (Yields.pure trivial))
    intro name hname
    refine (optional_yields hengine (by decide)).bind fun init => ?_
    refine Yields.matchKind_bind (by decide) ((ih _).mono ?_) (Yields.pure ?_)
    · intro c r hr comma hcomma t ht hnarrow
      simp only [narrow_cons, narrow_append] at hnarrow
      obtain ⟨new, rfl, hnew⟩ := hr hnarrow.2.2.2
      exact ⟨_ :: new, by simp, .moreBindings hname (ht hnarrow.2.1) hcomma hnew⟩
    · intro t ht hnarrow
      simp only [narrow_cons, List.append_nil] at hnarrow ⊢
      exact ⟨[_], rfl, .lastBinding hname (ht hnarrow.2)⟩

theorem parseVar_yields (hengine : EngineYields engine (Spelled ofInt)) {tok : Token D}
    (hkind : tok.kind = .kwVar) :
    Yields (parseVar engine tok) fun c e => Spelled ofInt (tok :: c) e := by
  refine (parseBindings_yields hengine _ []).bind fun bindings => ?_
  cases bindings with
  | none =>
    refine Yields.pure ?_
    intro c hc hnarrow
    obtain ⟨new, hnone, -⟩ := hc (by simpa using (narrow_cons.mp hnarrow).2)
    cases hnone
  | some bindings =>
    refine Yields.expect_bind (by decide) ?_ (Yields.pure trivial)
    refine (hengine 0 (by decide)).bind fun body => Yields.pure ?_
    intro b hb kwIn hIn bs hbs hnarrow
    simp only [narrow_cons, narrow_append, List.append_nil] at hnarrow ⊢
    obtain ⟨-, hnbs, -, hnb⟩ := hnarrow
    obtain ⟨new, hnew, hspells⟩ := hbs hnbs
    obtain rfl := Option.some.inj hnew
    have hbody := hb hnb
    rw [makeVar_eq hbody.ne_null]
    exact .varExpr hkind hspells hIn hbody

theorem prefixParenExpr_yields (hengine : EngineYields engine (Spelled ofInt)) {tok : Token D}
    (hkind : tok.kind = .lParen) :
    Yields (DefaultGrammarPack.prefixParenExpr (exprBuilder ofInt) engine tok) fun c e =>
      Spelled ofInt (tok :: c) e := by
  refine (hengine 0 (by decide)).bind fun inner => ?_
  refine Yields.expect_bind (by decide) (Yields.pure ?_) (Yields.pure trivial)
  intro closing hclose c hc hnarrow
  simp only [narrow_cons, narrow_append] at hnarrow
  exact .paren hkind (hc hnarrow.2.1) hclose

theorem prefixIntegerExpr_yields {tok : Token D} (hkind : tok.kind = .integer) :
    Yields (DefaultGrammarPack.prefixIntegerExpr (exprBuilder ofInt) engine tok) fun c e =>
      Spelled ofInt (tok :: c) e := by
  unfold DefaultGrammarPack.prefixIntegerExpr
  cases hlit : tok.literal with
  | int val => exact Yields.pure fun _ => .integer hkind hlit
  | none => exact Yields.error_bind _ _ (Yields.pure trivial)
  | double val => exact Yields.error_bind _ _ (Yields.pure trivial)

theorem prefixFloatExpr_yields {tok : Token D} (hkind : tok.kind = .float) :
    Yields (DefaultGrammarPack.prefixFloatExpr (exprBuilder ofInt) engine tok) fun c e =>
      Spelled ofInt (tok :: c) e := by
  unfold DefaultGrammarPack.prefixFloatExpr
  cases hlit : tok.literal with
  | double val => exact Yields.pure fun _ => .float hkind hlit
  | none => exact Yields.error_bind _ _ (Yields.pure trivial)
  | int val => exact Yields.error_bind _ _ (Yields.pure trivial)

/-! ## The registry -/

/-- Every operator kind has the unary handler and the infix handler that looks
its precedence up, in place of the entries of the default pack. -/
theorem athensRegistry_infix {kind : TokenKind}
    {entry : InfixEntry D BinopTable (ExprAST D) (ExprAST D)}
    (h : (athensRegistry ofInt).findInfixHandler kind = some entry) :
    isAthensOperatorToken kind = true ∧
      entry = ⟨0, some athensOperatorPrecedence, infixOperator⟩ := by
  cases kind <;> cases h <;> exact ⟨rfl, rfl⟩

theorem athensOperatorPrecedence_nonneg {table : BinopTable} {tok : Token D}
    (h : 0 ≤ athensOperatorPrecedence table tok) :
    ∃ c p, tok.lexeme = [c] ∧ table c = some p ∧ 0 < p := by
  unfold athensOperatorPrecedence at h
  split at h
  · rename_i c hlex
    split at h
    · rename_i p hp
      split at h
      · omega
      · exact ⟨c, p, hlex, hp, by omega⟩
    · omega
  · omega

theorem athensRegistry_prefix_yields {kind : TokenKind}
    {handler : PrefixExprHandler D BinopTable (ExprAST D) (ExprAST D)}
    (h : (athensRegistry ofInt).findPrefixHandler kind = some handler)
    (hengine : EngineYields engine (Spelled ofInt)) {tok : Token D} (htok : tok.kind = kind) :
    Yields (handler engine tok) fun c e => Spelled ofInt (tok :: c) e := by
  cases kind <;> cases h
  case identifier.refl => exact parseIdentifierOrCall_yields hengine htok
  case integer.refl => exact prefixIntegerExpr_yields htok
  case float.refl => exact prefixFloatExpr_yields htok
  case lParen.refl => exact prefixParenExpr_yields hengine htok
  case kwIf.refl => exact parseIf_yields hengine htok
  case kwFor.refl => exact parseFor_yields hengine htok
  case kwVar.refl => exact parseVar_yields hengine htok
  all_goals exact parseUnary_yields hengine (by rw [htok]; rfl)

theorem athensRegistry_keepsSpec (ofInt : Int → D) :
    KeepsSpec (athensRegistry ofInt) (Spelled ofInt) := by
  refine ⟨?_, ?_⟩
  · intro kind handler h
    refine ⟨?_, fun engine hengine tok htok => athensRegistry_prefix_yields h hengine htok⟩
    rintro rfl
    cases h
  · intro kind entry h
    obtain ⟨hop, rfl⟩ := athensRegistry_infix h
    refine ⟨?_, ?_⟩
    · rintro rfl
      cases hop
    · intro engine _ globals tok htok hprec lhs rhs
      obtain ⟨op, -, hlex, -, -⟩ := athensOperatorPrecedence_nonneg hprec
      refine Yields.pure ?_
      intro l r hl hr hnarrow
      simp only [List.append_nil, narrow_append, narrow_cons] at hnarrow ⊢
      have hlhs := hl hnarrow.1
      have hrhs := hr hnarrow.2.2
      rw [makeBinary_eq hlex hlhs.ne_null hrhs.ne_null]
      exact .binary (by rw [htok]; exact hop) hlex hlhs hrhs

theorem athensEngine_yields (ofInt : Int → D) (fuel : Nat) :
    EngineYields (athensEngine ofInt fuel) (Spelled ofInt) :=
  parserEngine_yields (athensRegistry_keepsSpec ofInt) _ _ fuel

/-! ## Prototypes and items -/

/-- The result is there, read from these tokens, unless something was reported. -/
def Reads {G α : Type} (σ : ParseState D G) (a : Option α) (σ' : ParseState D G)
    (Q : List (Token D) → α → Prop) : Prop :=
  ∃ c r, Ran σ c r σ' ∧ ((r = [] ∧ ∃ x, a = some x ∧ Q c x) ∨ (r ≠ [] ∧ a = none))

theorem Reads.error {G α : Type} {σ : ParseState D G} {Q : List (Token D) → α → Prop}
    (loc : SourceLoc) (message : String) :
    Reads σ none { σ with diag := σ.diag ++ [(loc, message)] } Q :=
  ⟨[], [(loc, message)], Ran.error σ loc message, .inr ⟨by simp, rfl⟩⟩

/-- Reading on behind tokens that are already consumed. -/
theorem Reads.after {G α β : Type} {σ σ₁ σ' : ParseState D G} {a : Option α} {b : Option β}
    {Q : List (Token D) → α → Prop} {R : List (Token D) → β → Prop} {c : List (Token D)}
    (hran : Ran σ c [] σ₁) (h : Reads σ₁ a σ' Q) (hnone : a = none → b = none)
    (hsome : ∀ c' x, a = some x → Q c' x → ∃ y, b = some y ∧ R (c ++ c') y) : Reads σ b σ' R := by
  obtain ⟨c', r, hran', ⟨rfl, x, hx, hQ⟩ | ⟨hr, ha⟩⟩ := h
  · obtain ⟨y, hy, hR⟩ := hsome c' x hx hQ
    exact ⟨_, _, hran.trans hran', .inl ⟨rfl, y, hy, hR⟩⟩
  · exact ⟨_, _, hran.trans hran', .inr ⟨by simpa using hr, hnone ha⟩⟩

theorem consumeOperator_cases {message : String} {σ σ' : ParseState D BinopTable} {tok : Token D}
    (hrun : consumeOperator message σ = some (tok, σ')) :
    (∃ op, isAthensOperatorToken tok.kind = true ∧ tok.lexeme = [op] ∧ Ran σ [tok] [] σ') ∨
      (tok.lexeme = [] ∧
        σ' = { σ with diag := σ.diag ++ [((Parser.current σ).sourceLoc, message)] }) := by
  unfold consumeOperator at hrun
  split at hrun
  · cases hrun
    exact .inr ⟨rfl, rfl⟩
  · rename_i hop
    simp only [Bool.or_eq_true, Bool.not_eq_true', bne_iff_ne, not_or, not_not,
      Bool.not_eq_false] at hop
    obtain ⟨op, hlex⟩ := List.length_eq_one_iff.mp hop.2
    cases hrun
    refine .inl ⟨op, hop.1, hlex, Ran.consume ?_⟩
    intro heof
    rw [heof] at hop
    cases hop.1

theorem parseUnaryHead_reads {σ σ' : ParseState D BinopTable} {h : Option PrototypeHead}
    (hrun : parseUnaryHead σ = some (h, σ')) :
    Reads σ h σ' fun c head => ∀ kw : Token D, kw.kind = .kwUnaryOp →
      head.kind = 1 ∧ SpellsHead (kw :: c) head := by
  obtain ⟨⟨tok, σ₁⟩, hop, hrun⟩ := Option.bind_eq_some_iff.mp hrun
  rcases consumeOperator_cases hop with ⟨op, hkind, hlex, hran⟩ | ⟨hlex, rfl⟩
  · simp only [hlex, reduceCtorEq, if_false] at hrun
    cases hrun
    refine ⟨_, _, hran, .inl ⟨rfl, _, rfl, fun kw hkw => ⟨rfl, .unary hkw hkind hlex⟩⟩⟩
  · simp only [hlex, if_true] at hrun
    cases hrun
    exact Reads.error _ _

theorem checkedPrecedence_spells {tok : Token D} {n : Nat} (hkind : tok.kind = .integer)
    (h : checkedPrecedence tok.literal = some n) : SpellsPrecedence [tok] n := by
  unfold checkedPrecedence at h
  split at h
  · rename_i value hlit
    split at h
    · cases h
    · rename_i hrange
      simp only [Bool.or_eq_true, decide_eq_true_eq, not_or, Int.not_lt] at hrange
      cases h
      exact .given hkind hlit hrange.1 hrange.2
  · cases h

theorem parseBinaryPrecedence_reads {σ σ' : ParseState D BinopTable} {p : Option Nat}
    (hrun : parseBinaryPrecedence σ = some (p, σ')) : Reads σ p σ' SpellsPrecedence := by
  simp only [parseBinaryPrecedence, Bind.bind, Parser.bind, Parser.atKind, Option.bind_some] at hrun
  by_cases hint : (Parser.current σ).kind = .integer
  · have hran := Ran.consume (σ := σ) (by rw [hint]; decide)
    simp only [hint, beq_self_eq_true, if_true, Parser.bind, Parser.consume,
      Option.bind_some] at hrun
    cases hcheck : checkedPrecedence (Parser.current σ).literal with
    | none =>
      simp only [hcheck] at hrun
      cases hrun
      exact Reads.after hran (Reads.error (Q := SpellsPrecedence) _ _) (fun _ => rfl)
        (fun _ _ h _ => by cases h)
    | some n =>
      simp only [hcheck] at hrun
      cases hrun
      exact ⟨_, _, hran, .inl ⟨rfl, n, rfl, checkedPrecedence_spells hint hcheck⟩⟩
  · have hb : ((Parser.current σ).kind == TokenKind.integer) = false := by simpa using hint
    simp only [hb] at hrun
    cases hrun
    exact ⟨[], [], Ran.refl _, .inl ⟨rfl, 30, rfl, .default⟩⟩

theorem parseBinaryOperator_reads {σ σ' : ParseState D BinopTable} {r : Option (Token D × Nat)}
    (hrun : parseBinaryOperator σ = some (r, σ')) : Reads σ r σ' fun c r =>
      ∃ op ps, c = r.1 :: ps ∧ isAthensOperatorToken r.1.kind = true ∧ r.1.lexeme = [op] ∧
        SpellsPrecedence ps r.2 := by
  obtain ⟨⟨tok, σ₁⟩, hop, hrun⟩ := Option.bind_eq_some_iff.mp hrun
  rcases consumeOperator_cases hop with ⟨op, hkind, hlex, hran⟩ | ⟨hlex, rfl⟩
  · simp only [hlex, reduceCtorEq, if_false] at hrun
    obtain ⟨⟨p, σ₂⟩, hp, hrun⟩ := Option.bind_eq_some_iff.mp hrun
    cases hrun
    refine Reads.after hran (parseBinaryPrecedence_reads hp) ?_ ?_
    · rintro rfl
      rfl
    · rintro ps n rfl hps
      exact ⟨_, rfl, op, ps, rfl, hkind, hlex, hps⟩
  · simp only [hlex, if_true] at hrun
    cases hrun
    exact Reads.error _ _

/-- `BinopPrecedence` after a head has been read: binary operators are
installed at once. -/
def tableAfter (head : Option PrototypeHead) (table : BinopTable) : BinopTable :=
  match head with
  | some head => if head.kind = 2 then table.set (head.name.getLastD 0) (some head.precedence)
      else table
  | none => table

theorem parseBinaryHead_reads {σ σ' : ParseState D BinopTable} {h : Option PrototypeHead}
    (hrun : parseBinaryHead σ = some (h, σ')) : σ'.globals = tableAfter h σ.globals ∧
      Reads { σ with globals := σ'.globals } h σ' fun c head => ∀ kw : Token D,
        kw.kind = .kwBinaryOp → SpellsHead (kw :: c) head := by
  obtain ⟨⟨r, σ₁⟩, hop, hrun⟩ := Option.bind_eq_some_iff.mp hrun
  obtain ⟨c, rep, hran, hr⟩ := parseBinaryOperator_reads hop
  rcases hr with ⟨rfl, ⟨tok, n⟩, rfl, op, ps, rfl, hkind, hlex, hps⟩ | ⟨hrep, rfl⟩
  · cases hrun
    refine ⟨?_, _, _, ⟨hran.tokens, hran.diag, hran.eofLoc, rfl⟩, .inl ⟨rfl, _, rfl, ?_⟩⟩
    · simp only at hlex
      simp only [tableAfter, hlex, if_true, hran.globals]
      rfl
    · intro kw hkw
      simp only at hlex
      rw [hlex]
      exact .binary hkw hkind hlex hps
  · cases hrun
    exact ⟨hran.globals, _, _, ⟨hran.tokens, hran.diag, hran.eofLoc, rfl⟩, .inr ⟨hrep, rfl⟩⟩

/-- Apart from the table, the head of a prototype is read like the rest. -/
theorem parsePrototypeHead_reads {σ σ' : ParseState D BinopTable} {h : Option PrototypeHead}
    (hrun : parsePrototypeHead σ = some (h, σ')) : σ'.globals = tableAfter h σ.globals ∧
      Reads { σ with globals := σ'.globals } h σ' SpellsHead := by
  unfold parsePrototypeHead at hrun
  split at hrun
  · rename_i hkind
    have hran := Ran.consume (σ := σ) (by rw [hkind]; decide)
    cases hrun
    exact ⟨rfl, _, _, hran, .inl ⟨rfl, _, rfl, .function hkind⟩⟩
  · rename_i hkind
    have hran := Ran.consume (σ := σ) (by rw [hkind]; decide)
    have hread := parseUnaryHead_reads (σ := { σ with tokens := σ.tokens.tail }) hrun
    have hglobals : σ'.globals = σ.globals := by
      obtain ⟨_, _, hran', _⟩ := hread
      exact hran'.globals
    refine ⟨?_, ?_⟩
    · obtain ⟨_, _, _, ⟨_, head, rfl, hhead⟩ | ⟨_, rfl⟩⟩ := hread
      · simp only [tableAfter, (hhead _ hkind).1]
        exact hglobals
      · exact hglobals
    · rw [hglobals]
      refine Reads.after hran hread id ?_
      rintro c head rfl hhead
      exact ⟨head, rfl, (hhead _ hkind).2⟩
  · rename_i hkind
    have hran := Ran.consume (σ := { σ with globals := σ'.globals })
      (by change (Parser.current σ).kind ≠ _; rw [hkind]; decide)
    obtain ⟨hglobals, hread⟩ := parseBinaryHead_reads (σ := { σ with tokens := σ.tokens.tail }) hrun
    refine ⟨hglobals, Reads.after hran hread id ?_⟩
    rintro c head rfl hhead
    exact ⟨head, rfl, hhead _ hkind⟩
  · cases hrun
    exact ⟨rfl, Reads.error _ _⟩

theorem parseParameters_run (σ : ParseState D BinopTable) : ∃ params σ',
    parseParameters σ = some (params.map (·.lexeme), σ') ∧ Ran σ params [] σ' ∧
      ∀ tok ∈ params, tok.kind = .identifier := by
  refine ⟨_, _, rfl, ⟨?_, by simp, rfl, rfl⟩, ?_⟩
  · exact (List.takeWhile_append_dropWhile).symm
  · intro tok htok
    simpa using List.mem_takeWhile_imp htok

/-- Behind a head: `(`, names, `)`, and the number of names an operator needs. -/
theorem parsePrototypeTail_reads {σ σ' : ParseState D BinopTable} {head : PrototypeHead}
    {p : Option PrototypeAST} (hrun : parsePrototypeTail head σ = some (p, σ')) :
    Reads σ p σ' fun c proto => ∃ opening params closing, c = opening :: (params ++ [closing]) ∧
      opening.kind = .lParen ∧ (∀ tok ∈ params, tok.kind = .identifier) ∧
      closing.kind = .rParen ∧ (head.kind ≠ 0 → params.length = head.kind) ∧
      proto = ⟨head.name, params.map (·.lexeme), head.kind != 0, head.precedence⟩ := by
  obtain ⟨⟨opened, σ₁⟩, hopen, hrun⟩ := Option.bind_eq_some_iff.mp hrun
  rcases Parser.expect_cases hopen with ⟨rfl, hopening, hran₁⟩ | ⟨rfl, hran₁⟩
  · have hran₁ := hran₁ (by decide)
    obtain ⟨params, σ₂, hparams, hran₂, hnames⟩ := parseParameters_run σ₁
    simp only [if_true, Bind.bind, Parser.bind, hparams, Option.bind_some] at hrun
    obtain ⟨⟨closed, σ₃⟩, hclose, hrun⟩ := Option.bind_eq_some_iff.mp hrun
    rcases Parser.expect_cases hclose with ⟨rfl, hclosing, hran₃⟩ | ⟨rfl, hran₃⟩
    · have hran := (hran₁.trans hran₂).trans (hran₃ (by decide))
      by_cases harity : head.kind ≠ 0 ∧ (params.map (·.lexeme)).length ≠ head.kind
      · simp only [if_true, if_pos harity] at hrun
        cases hrun
        exact ⟨_, _, hran.trans (Ran.error σ₃ _ _), .inr ⟨by simp, rfl⟩⟩
      · simp only [if_true, if_neg harity] at hrun
        cases hrun
        refine ⟨_, _, hran, .inl ⟨rfl, _, rfl, _, params, _, by simp, hopening, hnames, hclosing,
          ?_, rfl⟩⟩
        intro hkind
        by_contra hlen
        exact harity ⟨hkind, by simpa using hlen⟩
    · cases hrun
      exact ⟨_, _, (hran₁.trans hran₂).trans hran₃, .inr ⟨by simp, rfl⟩⟩
  · cases hrun
    exact ⟨_, _, hran₁, .inr ⟨by simp, rfl⟩⟩

/-- A prototype is there unless something was reported; the table it leaves is
that of its head, whatever comes behind it. -/
theorem parsePrototype_reads {σ σ' : ParseState D BinopTable} {p : Option PrototypeAST}
    (hrun : parsePrototype σ = some (p, σ')) :
    ∃ h, (∃ σ₁, parsePrototypeHead σ = some (h, σ₁)) ∧ σ'.globals = tableAfter h σ.globals ∧
      Reads { σ with globals := σ'.globals } p σ' fun c proto => SpellsPrototype c proto ∧
        ∃ head, h = some head ∧ proto.name = head.name ∧ proto.precedence = head.precedence ∧
          proto.isOperator = (head.kind != 0) ∧
          (head.kind ≠ 0 → proto.args.length = head.kind) := by
  obtain ⟨⟨h, σ₁⟩, hhead, hrun⟩ := Option.bind_eq_some_iff.mp hrun
  obtain ⟨hglobals, c, r, hran, hr⟩ := parsePrototypeHead_reads hhead
  refine ⟨h, ⟨σ₁, hhead⟩, ?_⟩
  rcases hr with ⟨rfl, head, rfl, hspells⟩ | ⟨hr, rfl⟩
  · have htail := parsePrototypeTail_reads hrun
    have hsame : σ'.globals = σ₁.globals := by
      obtain ⟨_, _, hran', _⟩ := htail
      exact hran'.globals
    rw [hsame]
    refine ⟨hglobals, Reads.after hran htail id ?_⟩
    rintro c' proto rfl ⟨opening, params, closing, rfl, hopen, hnames, hclose, harity, rfl⟩
    exact ⟨_, rfl, .mk hspells hopen hnames hclose harity, head, rfl, rfl, rfl, rfl,
      by simpa using harity⟩
  · cases hrun
    exact ⟨hglobals, c, r, hran, .inr ⟨hr, rfl⟩⟩

/-- What is left to say about a `def` or an `extern` beside its table: the
tokens spell the item, as soon as the body has no operator of two characters. -/
theorem parseItem_run {fuel : Nat} {σ σ' : ParseState D BinopTable} {item : AthensParsedItem D}
    (hkind : (Parser.current σ).kind = .kwFuncDef ∨ (Parser.current σ).kind = .kwExtern)
    (hrun : athensParseItem ofInt fuel σ = some (item, σ')) :
    ∃ c r, Ran { σ with globals := σ'.globals } c r σ' ∧
      (r = [] → Narrow c → SpellsItem ofInt c item) := by
  unfold athensParseItem parseItem at hrun
  have hran := Ran.consume (σ := { σ with globals := σ'.globals })
    (by change (Parser.current σ).kind ≠ _; rcases hkind with h | h <;> simp [h])
  rcases hkind with hkind | hkind
  · have hdef : parseDefinition (athensEngine ofInt fuel) σ = some (item, σ') := by
      rw [hkind] at hrun
      exact hrun
    simp only [parseDefinition, Bind.bind, Parser.bind, Parser.consume, Option.bind_some] at hdef
    obtain ⟨⟨p, σ₁⟩, hproto, hdef⟩ := Option.bind_eq_some_iff.mp hdef
    obtain ⟨⟨body, σ₂⟩, hbody, hdef⟩ := Option.bind_eq_some_iff.mp hdef
    obtain ⟨h, -, -, c₁, r₁, hran₁, hp⟩ := parsePrototype_reads hproto
    obtain ⟨c₂, r₂, hran₂, hspells⟩ := athensEngine_yields ofInt fuel 0 (by decide) hbody
    cases hdef
    rw [hran₂.globals] at hran ⊢
    refine ⟨_, _, (hran.trans hran₁).trans hran₂, ?_⟩
    intro hr hnarrow
    simp only [List.nil_append, List.append_eq_nil_iff] at hr
    simp only [List.cons_append, List.nil_append, narrow_cons, narrow_append] at hnarrow ⊢
    rcases hp with ⟨-, proto, rfl, hps, -⟩ | ⟨hr₁, -⟩
    · have hb := hspells hr.2 hnarrow.2.2
      rw [makeFunction_eq hb.ne_null]
      exact .definition hkind hps hb
    · exact absurd hr.1 hr₁
  · have hext : parseExtern (athensEngine ofInt fuel) σ = some (item, σ') := by
      rw [hkind] at hrun
      exact hrun
    simp only [parseExtern, Bind.bind, Parser.bind, Parser.consume, Option.bind_some] at hext
    obtain ⟨⟨p, σ₁⟩, hproto, hext⟩ := Option.bind_eq_some_iff.mp hext
    obtain ⟨h, -, -, c₁, r₁, hran₁, hp⟩ := parsePrototype_reads hproto
    cases hext
    refine ⟨_, _, hran.trans hran₁, ?_⟩
    intro hr _
    rcases hp with ⟨-, proto, rfl, hps, -⟩ | ⟨hr₁, -⟩
    · exact .extern_ hkind hps
    · exact absurd (by simpa using hr) hr₁

/-! ## Complete or diagnosed -/

/-- The result is there, code generation finds every child it dereferences, and
a step or an initialiser is null only where the tokens have none. -/
structure Answers (ofInt : Int → D) (consumed : List (Token D)) (e : ExprAST D) : Prop where
  ne_null : e ≠ .null
  complete : e.Complete
  spells : Spells ofInt consumed e

structure AnswersItem (ofInt : Int → D) (consumed : List (Token D)) (item : AthensParsedItem D) :
    Prop where
  present : item.function.isSome ∨ item.prototype.isSome
  complete : ∀ f, item.function = some f → f.body.Complete
  spells : SpellsItem ofInt consumed item

theorem Spells.answers {consumed : List (Token D)} {e : ExprAST D}
    (h : Spells ofInt consumed e) : Answers ofInt consumed e :=
  ⟨h.ne_null, h.complete, h⟩

theorem SpellsItem.answers {consumed : List (Token D)} {item : AthensParsedItem D}
    (h : SpellsItem ofInt consumed item) : AnswersItem ofInt consumed item := by
  cases h with
  | definition hk hps hbody =>
    refine ⟨.inl rfl, ?_, .definition hk hps hbody⟩
    intro f hf
    cases hf
    exact hbody.complete
  | extern_ hk hps => exact ⟨.inr rfl, by simp, .extern_ hk hps⟩

/-- A parse that reports nothing answers with what its tokens spell exactly when
none of them is an operator of more than one character: `makeUnary` answers such
a prefix operator with null and says nothing. -/
theorem parse_answers_iff_narrow (ofInt : Int → D) (fuel : Nat) {σ σ' : ParseState D BinopTable}
    (hlex : NarrowEqual σ.tokens) (hdiag : σ'.diag = σ.diag) :
    (∀ e, (athensEngine ofInt fuel).parseExpression 0 σ = some (e, σ') →
      ∃ consumed, σ.tokens = consumed ++ σ'.tokens ∧
        (Answers ofInt consumed e ↔ Narrow consumed)) ∧
    ∀ item, ((Parser.current σ).kind = .kwFuncDef ∨ (Parser.current σ).kind = .kwExtern) →
      athensParseItem ofInt fuel σ = some (item, σ') →
      ∃ consumed, σ.tokens = consumed ++ σ'.tokens ∧
        (AnswersItem ofInt consumed item ↔ Narrow consumed) := by
  have hnil : ∀ {r : List (SourceLoc × String)}, σ'.diag = σ.diag ++ r → r = [] := by
    intro r hr
    rw [hdiag] at hr
    simpa using hr
  constructor
  · intro e hrun
    obtain ⟨c, r, hran, hspells⟩ := athensEngine_yields ofInt fuel 0 (by decide) hrun
    rw [hran.tokens, narrowEqual_append] at hlex
    refine ⟨c, hran.tokens, fun h => h.spells.narrow hlex.1, fun hnarrow => ?_⟩
    exact (hspells (hnil hran.diag) hnarrow).answers
  · intro item hkind hrun
    obtain ⟨c, r, hran, hspells⟩ := parseItem_run hkind hrun
    have htokens : σ.tokens = c ++ σ'.tokens := hran.tokens
    rw [htokens, narrowEqual_append] at hlex
    refine ⟨c, htokens, fun h => h.spells.narrow hlex.1, fun hnarrow => ?_⟩
    exact (hspells (hnil hran.diag) hnarrow).answers

/-- The lexer spells `=` with one character. -/
theorem lexer_narrowEqual {strtod : Text → D × Nat} {l : Lexer}
    {out : List (List TriviaPiece × Token D)} (h : l.Run athensLexRules strtod out) :
    NarrowEqual (out.map (·.2)) := by
  intro tok htok hkind
  obtain ⟨entry, hentry, rfl⟩ := List.mem_map.mp htok
  have hkeyword : ∀ t, athensLexRules.keyword t ≠ some .equal := by
    intro t ht
    obtain ⟨s, hs, -⟩ := lookupSpelling_some ht
    exact absurd hs (by simp [AthensLexRules.keywords])
  have hspelled := h.spelled hkeyword (by decide) entry hentry hkind
  obtain ⟨s, hs, htext⟩ := lookupSpelling_some hspelled
  have hs' : s = "=" := by simpa [AthensLexRules.punctuators] using hs
  rw [htext, hs']
  rfl

/-! ## On lines of source text -/

/-- The stream of the tokens that the lexer makes of a line without floats. -/
def streamOf (line : String) : Option (ParseState Unit BinopTable) :=
  ((Lexer.ofBuffer (text line)).tokenize athensLexRules (fun t => ((), t.length)) 50 50).map
    fun out => { tokens := (out.map (·.2)).dropLast, globals := fun _ => none }

/-- The line `var y = 1 in y` is narrow, and so is `def id(x) x`. -/
theorem parse_answers_lines :
    (∃ σ c e, streamOf "var y = 1 in y" = some σ ∧ Answers (fun _ => ()) c e) ∧
      ∃ σ c item, streamOf "def id(x) x" = some σ ∧ AnswersItem (fun _ => ()) c item := by
  constructor
  · have h : ((streamOf "var y = 1 in y").bind fun σ =>
        ((athensEngine (fun _ => ()) 9).parseExpression 0 σ).map fun r =>
          decide (r.2.diag = σ.diag ∧ NarrowEqual σ.tokens ∧ Narrow σ.tokens)) = some true := by
      decide +kernel
    obtain ⟨σ, hσ, h⟩ := Option.bind_eq_some_iff.mp h
    obtain ⟨⟨e, σ'⟩, hrun, h⟩ := Option.map_eq_some_iff.mp h
    obtain ⟨hdiag, hlex, hnarrow⟩ := of_decide_eq_true h
    obtain ⟨c, hc, hiff⟩ := (parse_answers_iff_narrow (fun _ => ()) 9 hlex hdiag).1 e hrun
    exact ⟨σ, c, e, hσ, hiff.mpr (narrow_append.mp (hc ▸ hnarrow)).1⟩
  · have h : ((streamOf "def id(x) x").bind fun σ =>
        (athensParseItem (fun _ => ()) 9 σ).map fun r =>
          decide (r.2.diag = σ.diag ∧ NarrowEqual σ.tokens ∧ Narrow σ.tokens ∧
            (Parser.current σ).kind = .kwFuncDef)) = some true := by
      decide +kernel
    obtain ⟨σ, hσ, h⟩ := Option.bind_eq_some_iff.mp h
    obtain ⟨⟨item, σ'⟩, hrun, h⟩ := Option.map_eq_some_iff.mp h
    obtain ⟨hdiag, hlex, hnarrow, hkind⟩ := of_decide_eq_true h
    obtain ⟨c, hc, hiff⟩ :=
      (parse_answers_iff_narrow (fun _ => ()) 9 hlex hdiag).2 item (.inl hkind) hrun
    exact ⟨σ, c, item, hσ, hiff.mpr (narrow_append.mp (hc ▸ hnarrow)).1⟩

/-- A `var` whose only variable has a null initialiser. -/
def ExprAST.bindsNull : ExprAST D → Bool
  | .varExpr [(_, init)] _ => init.isNull
  | _ => false

theorem ExprAST.eq_of_bindsNull {e : ExprAST D} (h : e.bindsNull = true) :
    ∃ name body, e = .varExpr [(name, .null)] body := by
  unfold ExprAST.bindsNull at h
  split at h
  · rename_i name init body
    rw [init.eq_null_of_isNull h]
    exact ⟨name, body, rfl⟩
  · cases h

/-- On the line `<= x` the result is null and nothing is reported; in
`var y = <= x in y` the initialiser that the source wrote is null. -/
theorem parse_drops_wide_prefix :
    (∃ σ σ', streamOf "<= x" = some σ ∧
      (athensEngine (fun _ => ()) 9).parseExpression 0 σ = some (.null, σ') ∧
        σ'.diag = σ.diag) ∧
    ∃ σ y body σ', streamOf "var y = <= x in y" = some σ ∧
      (athensEngine (fun _ => ()) 9).parseExpression 0 σ =
        some (.varExpr [(y, .null)] body, σ') ∧ σ'.diag = σ.diag := by
  constructor
  · have h : ((streamOf "<= x").bind fun σ =>
        ((athensEngine (fun _ => ()) 9).parseExpression 0 σ).map fun r =>
          r.1.isNull && decide (r.2.diag = σ.diag)) = some true := by
      decide +kernel
    obtain ⟨σ, hσ, h⟩ := Option.bind_eq_some_iff.mp h
    obtain ⟨⟨e, σ'⟩, hrun, h⟩ := Option.map_eq_some_iff.mp h
    obtain ⟨hnull, hdiag⟩ := Bool.and_eq_true_iff.mp h
    rw [e.eq_null_of_isNull hnull] at hrun
    exact ⟨σ, σ', hσ, hrun, of_decide_eq_true hdiag⟩
  · have h : ((streamOf "var y = <= x in y").bind fun σ =>
        ((athensEngine (fun _ => ()) 9).parseExpression 0 σ).map fun r =>
          r.1.bindsNull && decide (r.2.diag = σ.diag)) = some true := by
      decide +kernel
    obtain ⟨σ, hσ, h⟩ := Option.bind_eq_some_iff.mp h
    obtain ⟨⟨e, σ'⟩, hrun, h⟩ := Option.map_eq_some_iff.mp h
    obtain ⟨hnull, hdiag⟩ := Bool.and_eq_true_iff.mp h
    obtain ⟨y, body, rfl⟩ := ExprAST.eq_of_bindsNull hnull
    exact ⟨σ, y, body, σ', hσ, hrun, of_decide_eq_true hdiag⟩

end AroundTheWorld.Athens
