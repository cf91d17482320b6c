import AroundTheWorld.Parse.Engine

/-!
# What a parser takes from a given stream

`Takes σ p ts a rest`: on the stream `ts` the parser `p` returns `a`, leaves
`rest` and changes nothing else, so that it reports nothing. One rule for each
primitive of the context, and the turns of the engine.
-/

namespace AroundTheWorld.Parse

open AroundTheWorld.Lex

variable {D G E S I α β : Type}

/-- The state with other tokens to come. -/
def ParseState.on (σ : ParseState D G) (tokens : List (Token D)) : ParseState D G :=
  { σ with tokens }

@[simp]
theorem ParseState.on_globals (σ : ParseState D G) (ts : List (Token D)) :
    (σ.on ts).globals = σ.globals := rfl

@[simp]
theorem ParseState.current_on_cons (σ : ParseState D G) (tok : Token D) (ts : List (Token D)) :
    Parser.current (σ.on (tok :: ts)) = tok := rfl

def Takes (σ : ParseState D G) (p : Parser D G α) (ts : List (Token D)) (a : α)
    (rest : List (Token D)) : Prop :=
  p (σ.on ts) = some (a, σ.on rest)

namespace Takes

variable {σ : ParseState D G} {ts us rest : List (Token D)} {tok : Token D} {kind : TokenKind}
  {message : String} {a : α} {b : β}

theorem pure : Takes σ (Pure.pure a) ts a ts := rfl

theorem bind {p : Parser D G α} {f : α → Parser D G β} (hp : Takes σ p ts a us)
    (hf : Takes σ (f a) us b rest) : Takes σ (p >>= f) ts b rest := by
  show (p (σ.on ts)).bind (fun r => f r.1 r.2) = _
  rw [show p (σ.on ts) = some (a, σ.on us) from hp]
  exact hf

theorem consume : Takes σ Parser.consume (tok :: ts) tok ts := rfl

theorem atKind : Takes σ (Parser.atKind kind) ts ((Parser.current (σ.on ts)).kind == kind) ts := rfl

theorem atKind_true (h : (Parser.current (σ.on ts)).kind = kind) :
    Takes σ (Parser.atKind kind) ts true ts := by
  have hat : Takes σ (Parser.atKind kind) ts ((Parser.current (σ.on ts)).kind == kind) ts := atKind
  rwa [h, beq_self_eq_true] at hat

theorem atKind_false (h : (Parser.current (σ.on ts)).kind ≠ kind) :
    Takes σ (Parser.atKind kind) ts false ts := by
  have hat : Takes σ (Parser.atKind kind) ts ((Parser.current (σ.on ts)).kind == kind) ts := atKind
  rwa [beq_eq_false_iff_ne.mpr h] at hat

theorem expect (h : tok.kind = kind) :
    Takes σ (Parser.expect kind message) (tok :: ts) true ts := by
  unfold Takes Parser.expect
  rw [ParseState.current_on_cons, if_pos h]
  rfl

theorem matchKind_true (h : tok.kind = kind) :
    Takes σ (Parser.matchKind kind) (tok :: ts) true ts := by
  unfold Takes Parser.matchKind
  rw [ParseState.current_on_cons, if_pos h]
  rfl

theorem matchKind_false (h : (Parser.current (σ.on ts)).kind ≠ kind) :
    Takes σ (Parser.matchKind kind) ts false ts := by
  unfold Takes Parser.matchKind
  rw [if_neg h]

end Takes

/-! ## The engine -/

section
variable {reg : ParserRegistry D G E S I} {engine : Engine D G E S} {σ : ParseState D G}
  {ts us rest : List (Token D)} {tok : Token D} {m : Int} {lhs rhs e : E} {n : Nat}

/-- No operator of the precedence that the loop asks for comes next. -/
def StopsAt (reg : ParserRegistry D G E S I) (m : Int) (σ : ParseState D G) : Prop :=
  ∀ entry, reg.findInfixHandler (Parser.current σ).kind = some entry →
    entry.getPrecedence σ.globals (Parser.current σ) < m

/-- Without a handler for the first token there is a report and no expression. -/
theorem parseExpression_without_handler {nullExpr : E}
    (h : reg.findPrefixHandler (Parser.current σ).kind = none) :
    Parse.parseExpression reg nullExpr engine m σ = some (nullExpr, { σ with
      tokens := σ.tokens.tail
      diag := σ.diag ++
        [((Parser.current σ).sourceLoc, "unexpected token at expression start")] }) := by
  unfold Parse.parseExpression
  show Parser.bind Parser.consume _ σ = _
  unfold Parser.bind Parser.consume
  simp only [Option.bind_some]
  rw [h]
  rfl

theorem Takes.infixLoop_stop (h : StopsAt reg m (σ.on ts)) :
    Takes σ (infixLoop reg engine m (n + 1) lhs) ts lhs ts := by
  unfold Takes infixLoop
  cases hfind : reg.findInfixHandler (Parser.current (σ.on ts)).kind with
  | none => rfl
  | some entry =>
    dsimp only
    rw [if_pos (h entry hfind)]

/-- One turn of the loop: an operator, its right operand, what the handler makes
of the two. -/
theorem Takes.infixLoop_step {entry : InfixEntry D G E S} {lhs' : E}
    (hfind : reg.findInfixHandler tok.kind = some entry)
    (hprec : m ≤ entry.getPrecedence σ.globals tok)
    (hrhs : Takes σ (engine.parseExpression (entry.getPrecedence σ.globals tok + 1)) ts rhs us)
    (hhandler : Takes σ (entry.handler engine lhs tok rhs) us lhs' us)
    (hrest : Takes σ (infixLoop reg engine m n lhs') us e rest) :
    Takes σ (infixLoop reg engine m (n + 1) lhs) (tok :: ts) e rest := by
  unfold Takes infixLoop
  rw [ParseState.current_on_cons, hfind]
  dsimp only
  rw [ParseState.on_globals, if_neg (by omega)]
  exact Takes.bind Takes.consume (hrhs.bind (hhandler.bind hrest))

theorem Takes.parseExpression {nullExpr : E} {nullStmt : S} {handler : PrefixExprHandler D G E S}
    (hfind : reg.findPrefixHandler tok.kind = some handler)
    (hhandler : Takes σ (handler (parserEngine reg nullExpr nullStmt n) tok) ts lhs us)
    (hrest : Takes σ (infixLoop reg (parserEngine reg nullExpr nullStmt n) m n lhs) us e rest) :
    Takes σ ((parserEngine reg nullExpr nullStmt (n + 1)).parseExpression m) (tok :: ts) e
      rest := by
  rw [parserEngine_parseExpression]
  refine Takes.bind Takes.consume ?_
  rw [hfind]
  dsimp only
  rw [parserEngine_fuel]
  exact hhandler.bind hrest

end

end AroundTheWorld.Parse
