import AroundTheWorld.Dublin.GrammarPack
import AroundTheWorld.Dublin.SmtEmitter
import AroundTheWorld.Lex.Lexer
import AroundTheWorld.Parse.Yields

/-!
# Dublin parses and null pointers

The builder puts its children into nodes unchecked, so that an expression has
all its parts only if every source of a null pointer has reported something.
All of them do, but `makeFloat`: one lemma for each handler says that, if it
reports nothing, its expression is complete exactly when the tokens it consumed
have no floating-point literal. On complete conditions the emitter always returns.
-/

namespace AroundTheWorld.Dublin

open AroundTheWorld.Base AroundTheWorld.Lex AroundTheWorld.Smt AroundTheWorld.Parse
open DublinGrammarPack DublinParseBuilder

mutual

/-- No pointer in the expression is null. -/
def Expr.Complete : Expr → Prop
  | .null => False
  | .integer _ => True
  | .bool _ => True
  | .variable_ _ => True
  | .call _ args => AllComplete args
  | .unary _ operand => operand.Complete
  | .binary _ lhs rhs => lhs.Complete ∧ rhs.Complete

def AllComplete : List Expr → Prop
  | [] => True
  | e :: es => e.Complete ∧ AllComplete es

end

theorem allComplete_iff {es : List Expr} : AllComplete es ↔ ∀ e ∈ es, e.Complete := by
  induction es with
  | nil => simp [AllComplete]
  | cons e es ih => rw [AllComplete, ih, List.forall_mem_cons]

/-! ## What the tokens tell -/

variable {D : Type}

def NoFloat (c : List (Token D)) : Prop := ∀ tok ∈ c, tok.kind ≠ .float

/-- The tokens are before the end of the stream, and `P` holds exactly when none
of them is a floating-point literal. -/
structure Tells (c : List (Token D)) (P : Prop) : Prop where
  live : ∀ tok ∈ c, tok.kind ≠ .eof
  noFloat_iff : P ↔ NoFloat c

theorem Tells.nil : Tells ([] : List (Token D)) True :=
  ⟨List.forall_mem_nil _, iff_of_true trivial (List.forall_mem_nil _)⟩

theorem Tells.append {c c' : List (Token D)} {P Q : Prop} (h : Tells c P) (h' : Tells c' Q) :
    Tells (c ++ c') (P ∧ Q) := by
  refine ⟨List.forall_mem_append.mpr ⟨h.live, h'.live⟩, ?_⟩
  rw [h.noFloat_iff, h'.noFloat_iff, NoFloat, NoFloat, NoFloat, List.forall_mem_append]

/-- A token that is neither the end nor a literal tells nothing. -/
theorem Tells.cons {tok : Token D} {c : List (Token D)} {P : Prop} (hend : tok.kind ≠ .eof)
    (hfloat : tok.kind ≠ .float) (h : Tells c P) : Tells (tok :: c) P := by
  refine ⟨List.forall_mem_cons.mpr ⟨hend, h.live⟩, ?_⟩
  rw [h.noFloat_iff, NoFloat, NoFloat, List.forall_mem_cons, and_iff_right hfloat]

theorem Tells.cons_of {kind : TokenKind} {tok : Token D} {c : List (Token D)} {P : Prop}
    (hkind : tok.kind = kind) (hend : kind ≠ .eof) (hfloat : kind ≠ .float) (h : Tells c P) :
    Tells (tok :: c) P := h.cons (hkind ▸ hend) (hkind ▸ hfloat)

/-- The relation that the handlers keep. -/
abbrev Told (c : List (Token D)) (e : Expr) : Prop := Tells c e.Complete

/-! ## Handlers -/

section
variable {engine : DublinEngine D} (hengine : EngineYields engine Told)
include hengine

theorem parseUnary_yields {tok : Token D} (hend : tok.kind ≠ .eof) (hfloat : tok.kind ≠ .float) :
    Yields (parseUnary engine tok) fun c e => Told (tok :: c) e := by
  refine (hengine 100 (by decide)).bind fun operand => Yields.pure ?_
  intro c hc
  rw [List.append_nil]
  exact hc.cons hend hfloat

/-- The loop over arguments adds the ones that the consumed tokens tell of. -/
theorem parseArguments_yields (n : Nat) (args : List Expr) :
    Yields (parseArguments engine n args) fun c r =>
      ∃ new, r = some (args ++ new) ∧ Tells c (AllComplete new) := by
  induction n generalizing args with
  | zero => exact Yields.diverge
  | succ n ih =>
    refine (hengine 0 (by decide)).bind fun arg => Yields.atKind_bind fun closing => ?_
    cases closing with
    | true =>
      refine Yields.pure ?_
      intro c hc
      refine ⟨[arg], rfl, ?_⟩
      rw [AllComplete, AllComplete]
      exact hc.append .nil
    | false =>
      refine Yields.expect_bind (by decide) ((ih _).mono ?_) (Yields.pure trivial)
      intro c r hr comma hcomma c₀ hc₀
      obtain ⟨new, rfl, hnew⟩ := hr
      refine ⟨arg :: new, by simp, ?_⟩
      rw [AllComplete]
      exact hc₀.append (hnew.cons_of hcomma (by decide) (by decide))

theorem parseArgumentList_yields : Yields (parseArgumentList engine) fun c r =>
    ∃ args, r = some args ∧ Tells c (AllComplete args) := by
  refine Yields.atKind_bind fun empty => ?_
  cases empty with
  | true => exact Yields.pure ⟨[], rfl, by rw [AllComplete]; exact .nil⟩
  | false => exact parseArguments_yields hengine _ []

theorem parseIdentifierOrCall_yields {tok : Token D} (hkind : tok.kind = .identifier) :
    Yields (parseIdentifierOrCall engine tok) fun c e => Told (tok :: c) e := by
  refine Yields.matchKind_bind (by decide) ?_ (Yields.pure ?_)
  · refine (parseArgumentList_yields hengine).bind fun args => ?_
    cases args with
    | none =>
      refine Yields.pure ?_
      intro c ⟨args, hnone, _⟩
      cases hnone
    | some args =>
      refine Yields.expect_bind (by decide) (Yields.pure ?_) (Yields.pure trivial)
      intro closing hclose c ⟨args', hargs, hc⟩ opening hopen
      obtain rfl := Option.some.inj hargs
      have hclosing := Tells.nil.cons_of hclose (by decide) (by decide)
      have hall := hc.append hclosing
      rw [and_true] at hall
      exact (hall.cons_of hopen (by decide) (by decide)).cons_of hkind (by decide) (by decide)
  · exact Tells.nil.cons_of hkind (by decide) (by decide)

theorem prefixParenExpr_yields {tok : Token D} (hkind : tok.kind = .lParen) :
    Yields (DefaultGrammarPack.prefixParenExpr exprBuilder engine tok) fun c e =>
      Told (tok :: c) e := by
  refine (hengine 0 (by decide)).bind fun inner => ?_
  refine Yields.expect_bind (by decide) (Yields.pure ?_) (Yields.pure trivial)
  intro closing hclose c hc
  have hall := hc.append (Tells.nil.cons_of hclose (by decide) (by decide))
  rw [and_true] at hall
  exact hall.cons_of hkind (by decide) (by decide)

end

section
variable {engine : DublinEngine D}

theorem prefixIntegerExpr_yields {tok : Token D} (hkind : tok.kind = .integer) :
    Yields (DefaultGrammarPack.prefixIntegerExpr exprBuilder engine tok) fun c e =>
      Told (tok :: c) e := by
  unfold DefaultGrammarPack.prefixIntegerExpr
  cases tok.literal with
  | int val => exact Yields.pure (Tells.nil.cons_of hkind (by decide) (by decide))
  | none => exact Yields.error_bind _ _ (Yields.pure trivial)
  | double val => exact Yields.error_bind _ _ (Yields.pure trivial)

/-- The one null expression that nobody hears of. -/
theorem prefixFloatExpr_yields {tok : Token D} (hkind : tok.kind = .float) :
    Yields (DefaultGrammarPack.prefixFloatExpr exprBuilder engine tok) fun c e =>
      Told (tok :: c) e := by
  unfold DefaultGrammarPack.prefixFloatExpr
  cases tok.literal with
  | double val =>
    refine Yields.pure ⟨?_, iff_of_false id ?_⟩
    · simp [hkind]
    · intro h
      exact h tok List.mem_cons_self hkind
  | none => exact Yields.error_bind _ _ (Yields.pure trivial)
  | int val => exact Yields.error_bind _ _ (Yields.pure trivial)

/-- The infix handlers, those that the default pack leaves included. -/
theorem dublinRegistry_infix {kind : TokenKind} {entry : InfixEntry D Unit Expr Assertion}
    (h : dublinRegistry.findInfixHandler kind = some entry) : kind ≠ .eof ∧ kind ≠ .float ∧
      ∀ engine lhs tok rhs, entry.handler engine lhs tok rhs = pure (makeBinary tok lhs rhs) := by
  cases kind <;> cases h <;> exact ⟨by decide, by decide, fun _ _ _ _ => rfl⟩

theorem dublinRegistry_prefix_yields {kind : TokenKind}
    {handler : PrefixExprHandler D Unit Expr Assertion}
    (h : dublinRegistry.findPrefixHandler kind = some handler)
    (hengine : EngineYields engine Told) {tok : Token D} (htok : tok.kind = kind) :
    Yields (handler engine tok) fun c e => Told (tok :: c) e := by
  cases kind <;> cases h
  case identifier.refl => exact parseIdentifierOrCall_yields hengine htok
  case integer.refl => exact prefixIntegerExpr_yields htok
  case float.refl => exact prefixFloatExpr_yields htok
  case lParen.refl => exact prefixParenExpr_yields hengine htok
  case minus.refl => exact parseUnary_yields hengine (by simp [htok]) (by simp [htok])
  case logicNot.refl => exact parseUnary_yields hengine (by simp [htok]) (by simp [htok])
  all_goals exact Yields.pure (Tells.nil.cons_of htok (by decide) (by decide))

theorem dublinRegistry_keepsSpec : KeepsSpec (dublinRegistry (D := D)) Told := by
  constructor
  · intro kind handler h
    refine ⟨?_, fun engine hengine tok htok => dublinRegistry_prefix_yields h hengine htok⟩
    rintro rfl
    cases h
  · intro kind entry h
    obtain ⟨hend, hfloat, hhandler⟩ := dublinRegistry_infix h
    refine ⟨hend, ?_⟩
    intro engine _ globals tok htok _ lhs rhs
    rw [hhandler]
    refine Yields.pure ?_
    intro l r hl hr
    rw [List.append_nil]
    exact hl.append (hr.cons_of htok hend hfloat)

theorem dublinEngine_yields (fuel : Nat) : EngineYields (dublinEngine (D := D) fuel) Told :=
  parserEngine_yields dublinRegistry_keepsSpec _ _ fuel

end

/-! ## Statements and items -/

theorem consume_yields : Yields (D := D) (G := Unit) Parser.consume fun _ _ => True := by
  intro σ tok σ' hrun
  cases hrun
  obtain ⟨c, hran⟩ := Ran.tail σ
  exact ⟨c, [], hran, fun _ => trivial⟩

theorem parseAssert_yields {engine : DublinEngine D} (hengine : EngineYields engine Told)
    {σ σ' : ParseState D Unit} {e : Assertion} (hkind : (Parser.current σ).kind = .kwAssert)
    (hrun : parseAssert engine σ = some (e, σ')) :
    ∃ c r, Ran σ c r σ' ∧ (r = [] → Told c e) := by
  have hrest : Yields (do
      let condition ← engine.parseExpression 0
      let _ ← Parser.expect .semicolon "expected ';' after assertion"
      pure (makeAssert (Parser.current σ) condition)) Told := by
    refine (hengine 0 (by decide)).bind fun condition => ?_
    refine Yields.expect_bind (by decide) (Yields.pure ?_) (Yields.pure trivial)
    intro closing hclose c hc
    have hall := hc.append (Tells.nil.cons_of hclose (by decide) (by decide))
    rwa [and_true] at hall
  obtain ⟨c, r, hran, htold⟩ := hrest hrun
  have hne : (Parser.current σ).kind ≠ .eof := by simp [hkind]
  refine ⟨_, _, (Ran.consume hne).trans hran, fun hr => ?_⟩
  exact (htold hr).cons_of hkind (by decide) (by decide)

theorem dublinRegistry_stmt {kind : TokenKind} {handler : StmtHandler D Unit Expr Assertion}
    (h : dublinRegistry.findStmtHandler kind = some handler) :
    kind = .kwAssert ∧ handler = parseAssert := by
  cases kind <;> cases h
  exact ⟨rfl, rfl⟩

theorem parseStatement_yields (fuel : Nat) :
    Yields (dublinEngine (D := D) fuel).parseStatement Told := by
  cases fuel with
  | zero => exact Yields.diverge
  | succ n =>
    intro σ e σ' hrun
    replace hrun : parseStatement dublinRegistry .null (dublinEngine n) σ = some (e, σ') := hrun
    unfold parseStatement at hrun
    cases hfind : (dublinRegistry (D := D)).findStmtHandler (Parser.current σ).kind with
    | none =>
      rw [hfind] at hrun
      have herror : Yields (D := D) (G := Unit) (do
          Parser.errorHere "unexpected token at statement start"
          let _ ← Parser.consume
          pure Expr.null) Told := by
        apply Yields.errorHere_bind
        exact consume_yields.bind fun _ => Yields.pure fun _ _ => trivial
      exact herror hrun
    | some handler =>
      rw [hfind] at hrun
      obtain ⟨hkind, rfl⟩ := dublinRegistry_stmt hfind
      exact parseAssert_yields (dublinEngine_yields n) hkind hrun

theorem dublinRegistry_item {kind : TokenKind}
    {handler : ItemHandler D Unit Expr Assertion DublinItem}
    (h : dublinRegistry.findItemHandler kind = some handler) :
    kind = .kwVerify ∧ handler = parseVerify := by
  cases kind <;> cases h
  exact ⟨rfl, rfl⟩

/-- The loop over statements, which ends at the end of the stream. -/
theorem parseAssertions_yields {engine : DublinEngine D}
    (hstatement : Yields engine.parseStatement Told) (n : Nat) (assertions : List Assertion) :
    Yields (parseAssertions engine n assertions) fun c r =>
      ∃ new, r = assertions ++ new ∧ Tells c (AllComplete new) := by
  induction n generalizing assertions with
  | zero => exact Yields.diverge
  | succ n ih =>
    apply Yields.atKind_bind
    intro atEnd
    cases atEnd with
    | true => exact Yields.pure ⟨[], by simp, by rw [AllComplete]; exact .nil⟩
    | false =>
      refine hstatement.bind fun assertion => (ih _).mono ?_
      intro c r hr c₀ hc₀
      obtain ⟨new, rfl, hnew⟩ := hr
      refine ⟨assertion :: new, by simp, ?_⟩
      rw [AllComplete]
      exact hc₀.append hnew

theorem parseAssertions_end {engine : DublinEngine D} {n : Nat} {assertions r : List Assertion}
    {σ σ' : ParseState D Unit} (hrun : parseAssertions engine n assertions σ = some (r, σ')) :
    (Parser.current σ').kind = .eof := by
  induction n generalizing assertions σ with
  | zero => cases hrun
  | succ n ih =>
    by_cases hend : (Parser.current σ).kind = .eof
    · have hatEnd : ((Parser.current σ).kind == .eof) = true := by simp [hend]
      simp only [parseAssertions, Bind.bind, Parser.bind, Parser.atKind, hatEnd,
        Option.bind_some, if_true] at hrun
      cases hrun
      exact hend
    · have hatEnd : ((Parser.current σ).kind == .eof) = false := by simpa using hend
      simp only [parseAssertions, Bind.bind, Parser.bind, Parser.atKind, hatEnd,
        Option.bind_some] at hrun
      obtain ⟨⟨assertion, σ₁⟩, -, hrun⟩ := Option.bind_eq_some_iff.mp hrun
      exact ih hrun

theorem parseTypeToken_kind {tok : Token D} {type : Ty} (h : parseTypeToken tok = some type) :
    tok.kind = .identifier := by
  unfold parseTypeToken at h
  by_contra hkind
  rw [if_pos hkind] at h
  cases h

theorem parseArgumentType_yields :
    Yields (parseArgumentType (D := D)) fun c r => r.isSome ∧ Tells c True := by
  intro σ r σ' hrun
  simp only [parseArgumentType, Bind.bind, Parser.bind, Parser.consume, Option.bind_some] at hrun
  cases htype : parseTypeToken (Parser.current σ) with
  | none =>
    rw [htype] at hrun
    cases hrun
    obtain ⟨c, hran⟩ := Ran.tail σ
    exact ⟨_, _, hran.trans (Ran.error _ _ _), fun hr => by simp at hr⟩
  | some type =>
    rw [htype] at hrun
    cases hrun
    have hkind := parseTypeToken_kind htype
    refine ⟨_, _, Ran.consume (by simp [hkind]), fun _ => ⟨rfl, ?_⟩⟩
    exact Tells.nil.cons_of hkind (by decide) (by decide)

/-- The arguments of a block tell nothing. -/
theorem parseVerifyArguments_yields (n : Nat) (args : List Argument) :
    Yields (parseVerifyArguments (D := D) n args) fun c r => r.isSome ∧ Tells c True := by
  induction n generalizing args with
  | zero => exact Yields.diverge
  | succ n ih =>
    refine Yields.atKind_consume (by decide) ?_ (Yields.errorHere_bind _ (Yields.pure trivial))
    intro argName hname
    refine parseArgumentType_yields.bind fun type => ?_
    cases type with
    | none => exact Yields.pure fun c h => absurd h.1 (by simp)
    | some type =>
      refine Yields.atKind_bind fun closing => ?_
      cases closing with
      | true =>
        refine Yields.pure fun c h => ⟨rfl, ?_⟩
        rw [List.append_nil]
        exact h.2.cons_of hname (by decide) (by decide)
      | false =>
        refine Yields.expect_bind (by decide) ((ih _).mono ?_) (Yields.pure trivial)
        intro c r hr comma hcomma c₀ h₀
        refine ⟨hr.1, ?_⟩
        have hall := h₀.2.append (hr.2.cons_of hcomma (by decide) (by decide))
        rw [and_true] at hall
        exact hall.cons_of hname (by decide) (by decide)

theorem parseVerifyArgumentList_yields (fuel : Nat) :
    Yields (parseVerifyArgumentList (D := D) fuel) fun c r => r.isSome ∧ Tells c True := by
  apply Yields.atKind_bind
  intro empty
  cases empty with
  | true => exact Yields.pure ⟨rfl, .nil⟩
  | false => exact parseVerifyArguments_yields fuel []

/-- The block that an item has, if it has one. -/
def DublinItem.TellsOf (c : List (Token D)) (item : DublinItem) : Prop :=
  ∃ block, item.verify = some block ∧ Tells c (AllComplete block.assertions)

theorem parseVerifyBody_yields {engine : DublinEngine D}
    (hstatement : Yields engine.parseStatement Told) (name : Token D) :
    Yields (parseVerifyBody engine name) DublinItem.TellsOf := by
  refine Yields.expect_bind (by decide) ?_ (Yields.pure trivial)
  refine (parseVerifyArgumentList_yields _).bind fun args => ?_
  cases args with
  | none => exact Yields.pure fun c h => absurd h.1 (by simp)
  | some args =>
    refine Yields.expect_bind (by decide) ?_ (Yields.pure trivial)
    refine (parseAssertions_yields hstatement _ []).bind fun assertions => Yields.pure ?_
    intro c ⟨new, hnew, hc⟩ closing hclose c₀ h₀ opening hopen
    rw [List.nil_append] at hnew
    subst hnew
    have hclosing := hc.cons_of hclose (by decide) (by decide)
    have hall := h₀.2.append hclosing
    rw [true_and] at hall
    rw [List.append_nil]
    exact ⟨_, rfl, hall.cons_of hopen (by decide) (by decide)⟩

theorem parseVerify_yields {engine : DublinEngine D}
    (hstatement : Yields engine.parseStatement Told) {σ σ' : ParseState D Unit} {item : DublinItem}
    (hkind : (Parser.current σ).kind = .kwVerify)
    (hrun : parseVerify engine σ = some (item, σ')) :
    ∃ c r, Ran σ c r σ' ∧ (r = [] → item.TellsOf c) := by
  have hrest : Yields (do
      let named ← Parser.atKind .identifier
      if named then do
        let name ← Parser.consume
        parseVerifyBody engine name
      else do
        Parser.errorHere "expected name after 'verify'"
        pure {}) fun c item => item.TellsOf c := by
    refine Yields.atKind_consume (by decide) ?_ (Yields.errorHere_bind _ (Yields.pure trivial))
    intro name hname
    apply (parseVerifyBody_yields hstatement name).mono
    intro c item ⟨block, hblock, hc⟩
    exact ⟨block, hblock, hc.cons_of hname (by decide) (by decide)⟩
  obtain ⟨c, r, hran, htells⟩ := hrest hrun
  refine ⟨_, _, (Ran.consume (by simp [hkind])).trans hran, fun hr => ?_⟩
  obtain ⟨block, hblock, hc⟩ := htells hr
  exact ⟨block, hblock, hc.cons_of hkind (by decide) (by decide)⟩

/-- A block is only returned at the end of the stream. -/
def EndsStream (p : DublinParser D DublinItem) : Prop :=
  ∀ σ item σ', p σ = some (item, σ') → item.verify = none ∨ (Parser.current σ').kind = .eof

theorem EndsStream.empty : EndsStream (pure {} : DublinParser D DublinItem) := by
  intro σ item σ' hrun
  cases hrun
  exact .inl rfl

theorem EndsStream.bind {α : Type} {p : DublinParser D α} {f : α → DublinParser D DublinItem}
    (hf : ∀ a, EndsStream (f a)) : EndsStream (p >>= f) := by
  intro σ item σ' hrun
  obtain ⟨⟨a, σ₁⟩, -, hrun⟩ := Option.bind_eq_some_iff.mp hrun
  exact hf a σ₁ item σ' hrun

theorem EndsStream.ite {p q : DublinParser D DublinItem} {b : Bool} (hp : EndsStream p)
    (hq : EndsStream q) : EndsStream (if b then p else q) := by
  cases b with
  | true => exact hp
  | false => exact hq

theorem parseAssertions_endsStream (engine : DublinEngine D) (n : Nat) (name : Text)
    (args : List Argument) : EndsStream (do
      let assertions ← parseAssertions engine n []
      pure (makeVerify name args assertions)) := by
  intro σ item σ' hrun
  obtain ⟨⟨assertions, σ₁⟩, hassertions, hrun⟩ := Option.bind_eq_some_iff.mp hrun
  cases hrun
  exact .inr (parseAssertions_end hassertions)

theorem parseVerify_endsStream (engine : DublinEngine D) : EndsStream (parseVerify engine) := by
  refine .bind fun _ => .bind fun named => .ite (.bind fun name => ?_) (.bind fun _ => .empty)
  refine .bind fun opened => .ite (.bind fun args => ?_) .empty
  cases args with
  | none => exact .empty
  | some args => exact .bind fun closed => .ite (parseAssertions_endsStream _ _ _ _) .empty

/-- The tokens before the end of the stream. -/
def beforeEnd (tokens : List (Token D)) : List (Token D) :=
  tokens.takeWhile fun tok => tok.kind != .eof

theorem beforeEnd_append {c : List (Token D)} (hc : ∀ tok ∈ c, tok.kind ≠ .eof)
    {σ : ParseState D Unit} (hend : (Parser.current σ).kind = .eof) :
    beforeEnd (c ++ σ.tokens) = c := by
  unfold beforeEnd
  rw [List.takeWhile_append_of_pos (by simpa using hc)]
  unfold Parser.current at hend
  cases htokens : σ.tokens with
  | nil => simp
  | cons tok rest =>
    rw [htokens, List.headD_cons] at hend
    simp [hend]

/-- A run of the item parser that returns a block and reports nothing. -/
theorem parseItem_tells {fuel : Nat} {σ σ' : ParseState D Unit} {item : DublinItem}
    {block : VerifyBlock} (hrun : dublinParseItem fuel σ = some (item, σ'))
    (hblock : item.verify = some block) (hdiag : σ'.diag = σ.diag) :
    Tells (beforeEnd σ.tokens) (AllComplete block.assertions) := by
  unfold dublinParseItem parseItem at hrun
  cases hfind : (dublinRegistry (D := D)).findItemHandler (Parser.current σ).kind with
  | none =>
    rw [hfind] at hrun
    cases hrun
    cases hblock
  | some handler =>
    rw [hfind] at hrun
    obtain ⟨hkind, rfl⟩ := dublinRegistry_item hfind
    obtain ⟨c, r, hran, htells⟩ := parseVerify_yields (parseStatement_yields fuel) hkind hrun
    have hnil : r = [] := by simpa [hdiag] using hran.diag
    obtain ⟨block', hblock', hc⟩ := htells hnil
    obtain rfl : block = block' := Option.some.inj (hblock.symm.trans hblock')
    rcases parseVerify_endsStream _ σ item σ' hrun with hnone | hend
    · rw [hnone] at hblock
      cases hblock
    · rwa [hran.tokens, beforeEnd_append hc.live hend]

/-! ## The emitter on complete expressions -/

/-- The call returns a value or an error, and follows no null pointer. -/
abbrev Returns {α : Type} (x : Emit α) : Prop := Gen.Keeps (fun _ => True) (fun _ => False) x

theorem fail_returns {α : Type} (message : Text) : Returns (fail message : Emit α) :=
  fun _ _ => trivial

theorem emitDef_returns (hint : Text) (d : Def Text) : Returns (emitDef hint d) :=
  fun _ _ => trivial

theorem emitInteger_returns (value : Int) (expected : Option Ty) :
    Returns (emitInteger value expected) := by
  unfold emitInteger
  split
  · exact emitDef_returns _ _
  · exact fail_returns _

theorem lookupSymbol_returns (name : Text) : Returns (lookupSymbol name) := fun _ _ => trivial

theorem emitVariable_returns (name : Text) : Returns (emitVariable name) := by
  apply (lookupSymbol_returns name).bind
  intro value
  cases value with
  | none => exact fail_returns _
  | some value => exact .pure value

section
variable {lhs rhs operand : Option Ty → Emit SmtValue}

theorem emitUnary_returns (op : Text) (h : ∀ expected, Returns (operand expected))
    (expected : Option Ty) : Returns (emitUnary op operand expected) := by
  unfold emitUnary
  split
  · apply (h _).bind
    intro x
    split
    · exact emitDef_returns _ _
    · exact fail_returns _
  split
  · apply (h _).bind
    intro x
    split
    · exact emitDef_returns _ _
    · exact fail_returns _
  · exact fail_returns _

theorem emitOperands_returns (hl : ∀ expected, Returns (lhs expected))
    (hr : ∀ expected, Returns (rhs expected)) (expected : Option Ty) :
    Returns (emitOperands lhs rhs expected) :=
  (hl expected).bind fun l => (hr (some l.type)).bind fun r => .pure (l, r)

theorem emitArithmetic_returns (hint : String) (op : BinOp) (l r : SmtValue) :
    Returns (emitArithmetic hint op l r) := by
  unfold emitArithmetic
  split
  · exact emitDef_returns _ _
  · exact fail_returns _

theorem emitEquality_returns (negated : Bool) (l r : SmtValue) :
    Returns (emitEquality negated l r) := by
  unfold emitEquality
  split
  · apply (emitDef_returns _ _).bind
    intro eq
    split
    · exact emitDef_returns _ _
    · exact .pure eq
  · exact fail_returns _

theorem emitComparison_returns (hint message : Text) (pred : Pred) (l r : SmtValue) :
    Returns (emitComparison hint message pred l r) := by
  unfold emitComparison
  split
  · exact emitDef_returns _ _
  · exact fail_returns _

theorem emitBinary_returns (op : Text) (hl : ∀ expected, Returns (lhs expected))
    (hr : ∀ expected, Returns (rhs expected)) (expected : Option Ty) :
    Returns (emitBinary op lhs rhs expected) := by
  have hoperands := emitOperands_returns hl hr expected
  unfold emitBinary
  split
  · apply hoperands.bind
    intro (l, r)
    dsimp only
    split
    · exact emitArithmetic_returns _ _ _ _
    split
    · exact emitArithmetic_returns _ _ _ _
    · exact emitArithmetic_returns _ _ _ _
  split
  · exact hoperands.bind fun p => emitEquality_returns _ _ _
  split
  · exact hoperands.bind fun p => emitComparison_returns _ _ _ _ _
  · exact fail_returns _

theorem emitCall_returns (callee : Text) {args : List (Option Ty → Emit SmtValue)}
    (h : ∀ x ∈ args, ∀ expected, Returns (x expected)) : Returns (emitCall callee args) := by
  unfold emitCall
  split
  · exact fail_returns _
  split
  · rename_i lhs rhs
    have hoperands := emitOperands_returns (h lhs (by simp)) (h rhs (by simp)) none
    exact hoperands.bind fun p => emitComparison_returns _ _ _ _ _
  · exact fail_returns _

end

theorem emitArgs_eq (args : List Expr) : emitArgs args = args.map emitExpr := by
  induction args with
  | nil => rfl
  | cons arg args ih => rw [emitArgs, ih, List.map_cons]

theorem emitExpr_returns {e : Expr} (h : e.Complete) : ∀ expected,
    Returns (emitExpr e expected) := by
  induction e using Expr.induction with
  | null => cases h
  | integer value =>
    intro expected
    rw [emitExpr]
    exact emitInteger_returns value expected
  | bool value =>
    intro expected
    rw [emitExpr]
    exact emitDef_returns _ _
  | variable_ name =>
    intro expected
    rw [emitExpr]
    exact emitVariable_returns name
  | call callee args ih =>
    intro expected
    rw [emitExpr]
    rw [Expr.Complete, allComplete_iff] at h
    apply emitCall_returns
    intro x hx
    rw [emitArgs_eq] at hx
    obtain ⟨arg, harg, rfl⟩ := List.mem_map.mp hx
    exact ih arg harg (h arg harg)
  | unary op operand ih =>
    intro expected
    rw [emitExpr]
    exact emitUnary_returns op (ih h) expected
  | binary op lhs rhs ihl ihr =>
    intro expected
    rw [emitExpr]
    rw [Expr.Complete] at h
    exact emitBinary_returns op (ihl h.1) (ihr h.2) expected

theorem emitCondition_returns {condition : Expr} (h : condition.Complete) :
    Returns (emitCondition condition) := by
  apply (emitExpr_returns h none).bind
  intro value
  split
  · exact .pure value
  · exact fail_returns _

theorem declareArgs_returns (args : List Argument) : Returns (declareArgs args) := by
  induction args with
  | nil => exact .pure ()
  | cons arg args ih =>
    apply (lookupSymbol_returns arg.name).bind
    intro declared
    cases declared with
    | some _ => exact fail_returns _
    | none =>
      have hbind : ∀ value, Returns (bindSymbol arg.name value) := fun _ _ _ => trivial
      exact (emitDef_returns _ _).bind fun value => (hbind value).bind fun _ => ih

theorem writeLine_returns (line : Line Text) : Returns (writeLine line) := fun _ _ => trivial

theorem emitAssumptions_returns {conditions : List Expr} (h : AllComplete conditions) :
    Returns (emitAssumptions conditions) := by
  induction conditions with
  | nil => exact .pure ()
  | cons condition rest ih =>
    rw [AllComplete] at h
    apply (emitCondition_returns h.1).bind
    intro assumption
    exact (writeLine_returns _).bind fun _ => ih h.2

theorem emit_returns {block : VerifyBlock} (h : AllComplete block.assertions) {i : Nat}
    (hi : i < block.assertions.length) : Returns (emit block i) := by
  have hearlier : AllComplete (block.assertions.take i) := by
    rw [allComplete_iff] at h ⊢
    exact fun e he => h e (List.mem_of_mem_take he)
  have hthis : block.assertions[i].Complete := allComplete_iff.mp h _ (List.getElem_mem hi)
  unfold emit
  refine (declareArgs_returns block.args).bind fun _ => ?_
  refine (emitAssumptions_returns hearlier).bind fun _ => ?_
  rw [List.getElem?_eq_getElem hi]
  refine (emitCondition_returns hthis).bind fun assertion => ?_
  exact (emitDef_returns _ _).bind fun bad => writeLine_returns _

/-! ## Complete or diagnosed -/

/-- No condition has a null pointer in it, and the emitter returns a module or an
error for every assertion. -/
structure EmitsSafely (block : VerifyBlock) : Prop where
  complete : ∀ condition ∈ block.assertions, condition.Complete
  returns : ∀ i < block.assertions.length, ∀ why, runEmitter block i ≠ .abort why

theorem emitsSafely_iff {block : VerifyBlock} :
    EmitsSafely block ↔ AllComplete block.assertions := by
  constructor
  · intro h
    exact allComplete_iff.mpr h.complete
  · intro h
    refine ⟨allComplete_iff.mp h, fun i hi why habort => ?_⟩
    have hwithin := emit_returns h hi {} trivial
    rw [show emit block i {} = .abort why from habort] at hwithin
    exact hwithin

/-- A block that is parsed without a diagnostic can be emitted safely exactly
when its tokens have no floating-point literal. -/
theorem parsed_safe_iff_noFloat {fuel : Nat} {σ σ' : ParseState D Unit} {item : DublinItem}
    {block : VerifyBlock} (hrun : dublinParseItem fuel σ = some (item, σ'))
    (hblock : item.verify = some block) (hdiag : σ'.diag = σ.diag) :
    EmitsSafely block ↔ NoFloat (beforeEnd σ.tokens) :=
  emitsSafely_iff.trans (parseItem_tells hrun hblock hdiag).noFloat_iff

/-! ## On lines of source text -/

/-- The stream of the tokens that the lexer makes of a line. -/
def streamOf (line : String) : Option (ParseState Unit Unit) :=
  ((Lexer.ofBuffer (text line)).tokenize dublinLexRules (fun t => ((), t.length)) 50 50).map
    fun out => { tokens := (out.map (·.2)).dropLast, globals := () }

/-- The block that a line is parsed to, with the tokens, if nothing is reported. -/
def parseLine (line : String) : Option (List (Token Unit) × VerifyBlock) :=
  (streamOf line).bind fun σ => (dublinParseItem 9 σ).bind fun r =>
    if r.2.diag = σ.diag then r.1.verify.map fun block => (σ.tokens, block) else none

theorem parseLine_some {line : String} {tokens : List (Token Unit)} {block : VerifyBlock}
    (h : parseLine line = some (tokens, block)) : ∃ σ item σ', streamOf line = some σ ∧
      σ.tokens = tokens ∧ dublinParseItem 9 σ = some (item, σ') ∧ item.verify = some block ∧
      σ'.diag = σ.diag := by
  obtain ⟨σ, hσ, h⟩ := Option.bind_eq_some_iff.mp h
  obtain ⟨⟨item, σ'⟩, hrun, h⟩ := Option.bind_eq_some_iff.mp h
  split at h
  · rename_i hdiag
    obtain ⟨block', hblock, heq⟩ := Option.map_eq_some_iff.mp h
    cases heq
    exact ⟨σ, item, σ', hσ, rfl, hrun, hblock, hdiag⟩
  · cases h

instance (c : List (Token Unit)) : Decidable (NoFloat c) :=
  inferInstanceAs (Decidable (∀ tok ∈ c, tok.kind ≠ .float))

/-- The emitter follows a null pointer. -/
def crashes (block : VerifyBlock) (i : Nat) : Bool :=
  match runEmitter block i with
  | .abort .nullDereference => true
  | _ => false

theorem runEmitter_of_crashes {block : VerifyBlock} {i : Nat} (h : crashes block i = true) :
    runEmitter block i = .abort .nullDereference := by
  unfold crashes at h
  split at h
  · assumption
  · cases h

/-- The line `verify f(x i8) assert ult(x, 2);`. -/
theorem parsed_safe_ult : ∃ σ item block σ', streamOf "verify f(x i8) assert ult(x, 2);" = some σ ∧
    dublinParseItem 9 σ = some (item, σ') ∧ item.verify = some block ∧ σ'.diag = σ.diag ∧
    EmitsSafely block := by
  have hline : ((parseLine "verify f(x i8) assert ult(x, 2);").map
      fun r => decide (NoFloat (beforeEnd r.1))) = some true := by decide +kernel
  obtain ⟨⟨tokens, block⟩, hline, hfloat⟩ := Option.map_eq_some_iff.mp hline
  obtain ⟨σ, item, σ', hσ, rfl, hrun, hblock, hdiag⟩ := parseLine_some hline
  exact ⟨σ, item, block, σ', hσ, hrun, hblock, hdiag,
    (parsed_safe_iff_noFloat hrun hblock hdiag).mpr (of_decide_eq_true hfloat)⟩

/-- The line `verify f(x i8) assert x < 1.5;` is parsed without a diagnostic, to a
condition with a null operand that the emitter follows. -/
theorem parsed_float_crashes : ∃ σ item block σ',
    streamOf "verify f(x i8) assert x < 1.5;" = some σ ∧
    dublinParseItem 9 σ = some (item, σ') ∧ item.verify = some block ∧ σ'.diag = σ.diag ∧
    (¬ ∀ condition ∈ block.assertions, condition.Complete) ∧
    runEmitter block 0 = .abort .nullDereference := by
  have hline : ((parseLine "verify f(x i8) assert x < 1.5;").map
      fun r => crashes r.2 0 && r.2.assertions.length == 1) = some true := by decide +kernel
  obtain ⟨⟨tokens, block⟩, hline, hcrash⟩ := Option.map_eq_some_iff.mp hline
  obtain ⟨σ, item, σ', hσ, rfl, hrun, hblock, hdiag⟩ := parseLine_some hline
  obtain ⟨hcrash, hlength⟩ := Bool.and_eq_true_iff.mp hcrash
  have hnull := runEmitter_of_crashes hcrash
  refine ⟨σ, item, block, σ', hσ, hrun, hblock, hdiag, fun hcomplete => ?_, hnull⟩
  have hsafe := emitsSafely_iff.mpr (allComplete_iff.mpr hcomplete)
  have hlength : block.assertions.length = 1 := by simpa using hlength
  exact hsafe.returns 0 (by omega) _ hnull

end AroundTheWorld.Dublin
