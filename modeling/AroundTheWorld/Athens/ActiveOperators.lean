import AroundTheWorld.Athens.Keeps
import AroundTheWorld.Athens.ParseComplete
import AroundTheWorld.Parse.Returns

/-!
# The parser only makes binary expressions of active operators

A token becomes an infix operator when `BinopPrecedence` has its character. No
handler writes the table, so every operator of an expression is in it.
-/

namespace AroundTheWorld.Athens

open AroundTheWorld.Lex AroundTheWorld.Parse
open AthensGrammarPack AthensParseBuilder
open ExprAST (binaryOps binaryOpsArgs binaryOpsBindings)

variable {D : Type} {ofInt : Int → D} {g : BinopTable} {engine : AthensEngine D}

def BinopTable.Active (table : BinopTable) (op : Byte) : Prop := table op ≠ none

/-- Every binary operator of the expression is active. -/
def UsesActive (table : BinopTable) (e : ExprAST D) : Prop := ∀ op ∈ e.binaryOps, table.Active op

/-! ## The builder -/

section
variable {a b c d : ExprAST D} {tok : Token D}

theorem usesActive_null : UsesActive g (.null : ExprAST D) := by
  intro op hop
  cases hop

theorem makeUnary_active (ha : UsesActive g a) : UsesActive g (makeUnary tok a) := by
  unfold makeUnary
  split
  · exact usesActive_null
  · exact ha
  · exact usesActive_null

/-- The only expression with an operator that its children do not have. -/
theorem makeBinary_active (htok : ∀ op, tok.lexeme = [op] → g.Active op) (ha : UsesActive g a)
    (hb : UsesActive g b) : UsesActive g (makeBinary tok a b) := by
  unfold makeBinary
  split
  · exact usesActive_null
  · exact usesActive_null
  · rename_i op _ _ hlex
    intro op' hop
    simp only [binaryOps, List.mem_cons, List.mem_append] at hop
    rcases hop with rfl | hop | hop
    · exact htok _ hlex
    · exact ha _ hop
    · exact hb _ hop
  · exact usesActive_null

theorem makeIf_active (ha : UsesActive g a) (hb : UsesActive g b) (hc : UsesActive g c) :
    UsesActive g (makeIf a b c) := by
  unfold makeIf
  split
  · exact usesActive_null
  · exact usesActive_null
  · exact usesActive_null
  · intro op hop
    simp only [binaryOps, List.mem_append] at hop
    rcases hop with hop | hop | hop
    · exact ha _ hop
    · exact hb _ hop
    · exact hc _ hop

theorem makeFor_active (ha : UsesActive g a) (hb : UsesActive g b) (hc : UsesActive g c)
    (hd : UsesActive g d) : UsesActive g (makeFor tok a b c d) := by
  unfold makeFor
  split
  · exact usesActive_null
  · exact usesActive_null
  · exact usesActive_null
  · intro op hop
    simp only [binaryOps, List.mem_append] at hop
    rcases hop with hop | hop | hop | hop
    · exact ha _ hop
    · exact hb _ hop
    · exact hc _ hop
    · exact hd _ hop

theorem mem_binaryOpsArgs {args : List (ExprAST D)} {op : Byte} :
    op ∈ binaryOpsArgs args ↔ ∃ a ∈ args, op ∈ a.binaryOps := by
  induction args with
  | nil => simp [binaryOpsArgs]
  | cons arg args ih => simp [binaryOpsArgs, ih]

theorem mem_binaryOpsBindings {bs : List (Name × ExprAST D)} {op : Byte} :
    op ∈ binaryOpsBindings bs ↔ ∃ b ∈ bs, op ∈ b.2.binaryOps := by
  induction bs with
  | nil => simp [binaryOpsBindings]
  | cons b bs ih =>
    obtain ⟨name, init⟩ := b
    simp [binaryOpsBindings, ih]

theorem makeCall_active {args : List (ExprAST D)} (hargs : ∀ a ∈ args, UsesActive g a) :
    UsesActive g (makeCall tok args) := by
  intro op hop
  obtain ⟨a, ha, hop⟩ := mem_binaryOpsArgs.mp hop
  exact hargs a ha op hop

theorem makeVar_active {bs : List (Name × ExprAST D)} (hbs : ∀ b ∈ bs, UsesActive g b.2)
    (ha : UsesActive g a) : UsesActive g (makeVar bs a) := by
  unfold makeVar
  split
  · exact usesActive_null
  · intro op hop
    simp only [binaryOps, List.mem_append] at hop
    rcases hop with hop | hop
    · obtain ⟨b, hb, hop⟩ := mem_binaryOpsBindings.mp hop
      exact hbs b hb op hop
    · exact ha op hop

end

/-! ## Handlers -/

section
variable (hengine : EngineReturns g engine (UsesActive g))
include hengine

theorem subexpr_returns : Returns g (engine.parseExpression 0) (UsesActive g) :=
  hengine 0 (by decide)

theorem parseUnary_returns (tok : Token D) :
    Returns g (parseUnary engine tok) (UsesActive g) :=
  (hengine 100 (by decide)).bind fun _ h => Returns.pure (makeUnary_active h)

theorem parseArguments_returns (n : Nat) {args : List (ExprAST D)}
    (hargs : ∀ a ∈ args, UsesActive g a) : Returns g (parseArguments engine n args)
      fun r => ∀ args', r = some args' → ∀ a ∈ args', UsesActive g a := by
  induction n generalizing args with
  | zero => exact Returns.diverge
  | succ n ih =>
    refine (subexpr_returns hengine).bind fun arg harg => ?_
    have hmore : ∀ a ∈ args ++ [arg], UsesActive g a := by
      intro a ha
      rcases List.mem_append.mp ha with ha | ha
      · exact hargs a ha
      · exact List.mem_singleton.mp ha ▸ harg
    refine (Returns.atKind _).bind fun closing _ => Returns.ite ?_ ?_
    · refine Returns.pure ?_
      rintro args' ⟨⟩
      exact hmore
    · refine (Returns.expect _ _).bind fun comma _ => Returns.ite (ih hmore) (Returns.pure ?_)
      rintro args' ⟨⟩

theorem parseIdentifierOrCall_returns (tok : Token D) :
    Returns g (parseIdentifierOrCall engine tok) (UsesActive g) := by
  refine (Returns.matchKind _).bind fun opened _ => Returns.ite ?_ (Returns.pure ?_)
  · have hlist : Returns g (parseArgumentList engine)
        fun r => ∀ args, r = some args → ∀ a ∈ args, UsesActive g a := by
      refine (Returns.atKind _).bind fun empty _ => Returns.ite (Returns.pure ?_)
        (parseArguments_returns hengine _ (by simp))
      rintro args ⟨⟩
      simp
    refine hlist.bind fun args hargs => ?_
    cases args with
    | none => exact Returns.pure usesActive_null
    | some args =>
      refine (Returns.expect _ _).bind fun closed _ => Returns.ite (Returns.pure ?_)
        (Returns.pure usesActive_null)
      exact makeCall_active (hargs args rfl)
  · intro op hop
    cases hop

theorem parseIf_returns (tok : Token D) : Returns g (parseIf engine tok) (UsesActive g) := by
  refine (subexpr_returns hengine).bind fun cond hc => (Returns.expect _ _).bind fun ok _ => ?_
  refine Returns.ite ?_ (Returns.pure usesActive_null)
  refine (subexpr_returns hengine).bind fun then_ ht => (Returns.expect _ _).bind fun ok _ => ?_
  refine Returns.ite ?_ (Returns.pure usesActive_null)
  exact (subexpr_returns hengine).bind fun else_ he => Returns.pure (makeIf_active hc ht he)

/-- An expression that is there when its first token is. -/
theorem optional_returns (kind : TokenKind) : Returns g (do
    let found ← Parser.matchKind kind
    if found then engine.parseExpression 0 else pure .null) (UsesActive g) :=
  (Returns.matchKind kind).bind fun _ _ =>
    Returns.ite (subexpr_returns hengine) (Returns.pure usesActive_null)

theorem parseFor_returns (tok : Token D) : Returns g (parseFor engine tok) (UsesActive g) := by
  refine (Returns.atKind _).bind fun named _ => Returns.ite ?_ ?_
  · refine Returns.consume.bind fun varName _ => (Returns.expect _ _).bind fun ok _ => ?_
    refine Returns.ite ?_ (Returns.pure usesActive_null)
    refine (subexpr_returns hengine).bind fun start hs => (Returns.expect _ _).bind fun ok _ => ?_
    refine Returns.ite ?_ (Returns.pure usesActive_null)
    refine (subexpr_returns hengine).bind fun end_ he => ?_
    refine (optional_returns hengine .comma).bind fun step hst => ?_
    refine (Returns.expect _ _).bind fun ok _ => Returns.ite ?_ (Returns.pure usesActive_null)
    exact (subexpr_returns hengine).bind fun body hb => Returns.pure (makeFor_active hs he hst hb)
  · exact (Returns.errorHere _).bind fun _ _ => Returns.pure usesActive_null

theorem parseBindings_returns (n : Nat) {bs : List (Name × ExprAST D)}
    (hbs : ∀ b ∈ bs, UsesActive g b.2) : Returns g (parseBindings engine n bs)
      fun r => ∀ bs', r = some bs' → ∀ b ∈ bs', UsesActive g b.2 := by
  induction n generalizing bs with
  | zero => exact Returns.diverge
  | succ n ih =>
    refine (Returns.atKind _).bind fun named _ => Returns.ite ?_ ?_
    · refine Returns.consume.bind fun nameTok _ => ?_
      refine (optional_returns hengine .equal).bind fun init hinit => ?_
      have hmore : ∀ b ∈ bs ++ [(nameTok.lexeme, init)], UsesActive g b.2 := by
        intro b hb
        rcases List.mem_append.mp hb with hb | hb
        · exact hbs b hb
        · exact List.mem_singleton.mp hb ▸ hinit
      refine (Returns.matchKind _).bind fun comma _ => Returns.ite (ih hmore) (Returns.pure ?_)
      rintro bs' ⟨⟩
      exact hmore
    · refine (Returns.errorHere _).bind fun _ _ => Returns.pure ?_
      rintro bs' ⟨⟩

theorem parseVar_returns (tok : Token D) : Returns g (parseVar engine tok) (UsesActive g) := by
  refine (parseBindings_returns hengine _ (by simp)).bind fun bindings hbs => ?_
  cases bindings with
  | none => exact Returns.pure usesActive_null
  | some bindings =>
    refine (Returns.expect _ _).bind fun ok _ => Returns.ite ?_ (Returns.pure usesActive_null)
    exact (subexpr_returns hengine).bind fun body hb =>
      Returns.pure (makeVar_active (hbs bindings rfl) hb)

theorem prefixParenExpr_returns (tok : Token D) :
    Returns g (DefaultGrammarPack.prefixParenExpr (exprBuilder ofInt) engine tok)
      (UsesActive g) :=
  (subexpr_returns hengine).bind fun _ h => (Returns.expect _ _).bind fun _ _ =>
    Returns.ite (Returns.pure h) (Returns.pure usesActive_null)

omit hengine in
theorem prefixNumber_returns (tok : Token D) :
    Returns g (DefaultGrammarPack.prefixIntegerExpr (exprBuilder ofInt) engine tok)
        (UsesActive g) ∧
      Returns g (DefaultGrammarPack.prefixFloatExpr (exprBuilder ofInt) engine tok)
        (UsesActive g) := by
  unfold DefaultGrammarPack.prefixIntegerExpr DefaultGrammarPack.prefixFloatExpr
  have hnumber : ∀ val : D, UsesActive g (.numberExpr val) := by
    intro val op hop
    cases hop
  constructor
  · split
    · exact Returns.pure (hnumber _)
    · exact (Returns.error _ _).bind fun _ _ => Returns.pure usesActive_null
  · split
    · exact Returns.pure (hnumber _)
    · exact (Returns.error _ _).bind fun _ _ => Returns.pure usesActive_null

theorem athensRegistry_prefix_returns {kind : TokenKind}
    {handler : PrefixExprHandler D BinopTable (ExprAST D) (ExprAST D)}
    (h : (athensRegistry ofInt).findPrefixHandler kind = some handler) (tok : Token D) :
    Returns g (handler engine tok) (UsesActive g) := by
  cases kind <;> cases h
  case identifier.refl => exact parseIdentifierOrCall_returns hengine tok
  case integer.refl => exact (prefixNumber_returns tok).1
  case float.refl => exact (prefixNumber_returns tok).2
  case lParen.refl => exact prefixParenExpr_returns hengine tok
  case kwIf.refl => exact parseIf_returns hengine tok
  case kwFor.refl => exact parseFor_returns hengine tok
  case kwVar.refl => exact parseVar_returns hengine tok
  all_goals exact parseUnary_returns hengine tok

end

theorem athensRegistry_keepsResult (ofInt : Int → D) (g : BinopTable) :
    KeepsResult g (athensRegistry ofInt) (UsesActive g) := by
  constructor
  · intro kind handler h engine hengine tok
    exact athensRegistry_prefix_returns hengine h tok
  · intro kind entry h engine _ tok hprec lhs rhs hl hr
    obtain ⟨-, rfl⟩ := athensRegistry_infix h
    obtain ⟨c, p, hlex, hc, -⟩ := athensOperatorPrecedence_nonneg hprec
    refine Returns.pure (makeBinary_active ?_ hl hr)
    intro op hop
    obtain rfl : c = op := by simpa [hlex] using hop
    simp [BinopTable.Active, hc]

/-- Every operator of a parsed expression is active in the table it was parsed with. -/
theorem athensEngine_returns (ofInt : Int → D) (g : BinopTable) (fuel : Nat) :
    EngineReturns g (athensEngine ofInt fuel) (UsesActive g) :=
  parserEngine_returns (athensRegistry_keepsResult ofInt g) usesActive_null _ fuel

/-- The body of a definition is parsed with the table that its head has left. -/
theorem parseItem_active {fuel : Nat} {σ σ' : ParseState D BinopTable}
    {item : AthensParsedItem D}
    (hkind : (Parser.current σ).kind = .kwFuncDef ∨ (Parser.current σ).kind = .kwExtern)
    (hrun : athensParseItem ofInt fuel σ = some (item, σ')) {f : FunctionAST D}
    (hf : item.function = some f) : UsesActive σ'.globals f.body := by
  unfold athensParseItem parseItem at hrun
  rcases hkind with hkind | hkind
  · have hdef : parseDefinition (athensEngine ofInt fuel) σ = some (item, σ') := by
      rw [hkind] at hrun
      exact hrun
    obtain ⟨⟨p, σ₁⟩, -, hdef⟩ := Option.bind_eq_some_iff.mp hdef
    obtain ⟨⟨body, σ₂⟩, hbody, hdef⟩ := Option.bind_eq_some_iff.mp hdef
    obtain ⟨hg, hactive⟩ := athensEngine_returns ofInt σ₁.globals fuel 0 (by decide) rfl hbody
    cases hdef
    rw [hg]
    unfold makeFunction at hf
    split at hf <;> cases hf
    exact hactive
  · have hext : parseExtern (athensEngine ofInt fuel) σ = some (item, σ') := by
      rw [hkind] at hrun
      exact hrun
    obtain ⟨⟨p, σ₁⟩, -, hext⟩ := Option.bind_eq_some_iff.mp hext
    cases hext
    cases hf

end AroundTheWorld.Athens
