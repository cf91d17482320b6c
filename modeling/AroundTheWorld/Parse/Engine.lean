import AroundTheWorld.Parse.Context

/-!
# The parser engine

The registry maps token kinds to handlers; the engine is the Pratt loop that
calls them. `E`, `S` and `I` are the expression, statement and item types of the
builder; `nullExpr`, `nullStmt` and `nullItem` their default values. A handler
receives the engine as the functions it may call back, with the bound that is
left for loops of its own.

The `int` precedences are integers here: a registry whose `precedence + 1`
leaves the range of `int` has no defined behaviour.
-/

namespace AroundTheWorld.Parse

open AroundTheWorld.Lex

/-- What a handler can do with the engine it is given. -/
structure Engine (D G E S : Type) where
  parseExpression : Int → Parser D G E
  parseStatement : Parser D G S
  fuel : Nat

section
variable (D G E S I : Type)

abbrev PrefixExprHandler := Engine D G E S → Token D → Parser D G E

abbrev InfixExprHandler := Engine D G E S → E → Token D → E → Parser D G E

abbrev StmtHandler := Engine D G E S → Parser D G S

abbrev ItemHandler := Engine D G E S → Parser D G I

structure InfixEntry where
  precedence : Int := 0
  precedenceFor : Option (G → Token D → Int) := none
  handler : InfixExprHandler D G E S

structure HandlerTables where
  prefix_ : TokenKind → Option (PrefixExprHandler D G E S) := fun _ => none
  infix_ : TokenKind → Option (InfixEntry D G E S) := fun _ => none
  stmt : TokenKind → Option (StmtHandler D G E S) := fun _ => none
  item : TokenKind → Option (ItemHandler D G E S I) := fun _ => none

/-- A registry with its own tables, over the fallback registry if it has one. -/
inductive ParserRegistry where
  | base (own : HandlerTables D G E S I)
  | withFallback (fallback : ParserRegistry) (own : HandlerTables D G E S I)

end

variable {D G E S I : Type}

def InfixEntry.getPrecedence (entry : InfixEntry D G E S) (globals : G) (tok : Token D) : Int :=
  match entry.precedenceFor with
  | some precedenceFor => precedenceFor globals tok
  | none => entry.precedence

namespace ParserRegistry

def empty : ParserRegistry D G E S I := .base {}

def modify (f : HandlerTables D G E S I → HandlerTables D G E S I) :
    ParserRegistry D G E S I → ParserRegistry D G E S I
  | base own => base (f own)
  | withFallback fallback own => withFallback fallback (f own)

def setPrefix (kind : TokenKind) (handler : PrefixExprHandler D G E S) :
    ParserRegistry D G E S I → ParserRegistry D G E S I :=
  modify fun t => { t with prefix_ := fun k => if k = kind then some handler else t.prefix_ k }

def setInfixEntry (kind : TokenKind) (entry : InfixEntry D G E S) :
    ParserRegistry D G E S I → ParserRegistry D G E S I :=
  modify fun t => { t with infix_ := fun k => if k = kind then some entry else t.infix_ k }

def setInfix (kind : TokenKind) (precedence : Int) (handler : InfixExprHandler D G E S) :
    ParserRegistry D G E S I → ParserRegistry D G E S I :=
  setInfixEntry kind ⟨precedence, none, handler⟩

def setInfixDynamic (kind : TokenKind) (precedenceFor : G → Token D → Int)
    (handler : InfixExprHandler D G E S) :
    ParserRegistry D G E S I → ParserRegistry D G E S I :=
  setInfixEntry kind ⟨0, some precedenceFor, handler⟩

def setStmt (kind : TokenKind) (handler : StmtHandler D G E S) :
    ParserRegistry D G E S I → ParserRegistry D G E S I :=
  modify fun t => { t with stmt := fun k => if k = kind then some handler else t.stmt k }

def setItem (kind : TokenKind) (handler : ItemHandler D G E S I) :
    ParserRegistry D G E S I → ParserRegistry D G E S I :=
  modify fun t => { t with item := fun k => if k = kind then some handler else t.item k }

def findPrefixHandler :
    ParserRegistry D G E S I → TokenKind → Option (PrefixExprHandler D G E S)
  | base own, kind => own.prefix_ kind
  | withFallback fallback own, kind => (own.prefix_ kind).or (fallback.findPrefixHandler kind)

def findInfixHandler : ParserRegistry D G E S I → TokenKind → Option (InfixEntry D G E S)
  | base own, kind => own.infix_ kind
  | withFallback fallback own, kind => (own.infix_ kind).or (fallback.findInfixHandler kind)

def findStmtHandler : ParserRegistry D G E S I → TokenKind → Option (StmtHandler D G E S)
  | base own, kind => own.stmt kind
  | withFallback fallback own, kind => (own.stmt kind).or (fallback.findStmtHandler kind)

def findItemHandler : ParserRegistry D G E S I → TokenKind → Option (ItemHandler D G E S I)
  | base own, kind => own.item kind
  | withFallback fallback own, kind => (own.item kind).or (fallback.findItemHandler kind)

end ParserRegistry

section
variable (reg : ParserRegistry D G E S I) (nullExpr : E) (nullStmt : S) (nullItem : I)

/-- The `while (true)` loop of `parseExpression`, with at most the given number
of iterations. -/
def infixLoop (engine : Engine D G E S) (minPrecedence : Int) : Nat → E → Parser D G E
  | 0, _ => Parser.diverge
  | n + 1, lhs => fun σ =>
    match reg.findInfixHandler (Parser.current σ).kind with
    | none => some (lhs, σ)
    | some entry =>
      let precedence := entry.getPrecedence σ.globals (Parser.current σ)
      if precedence < minPrecedence then some (lhs, σ)
      else
        (do
          let opTok ← Parser.consume
          let rhs ← engine.parseExpression (precedence + 1)
          let lhs' ← entry.handler engine lhs opTok rhs
          infixLoop engine minPrecedence n lhs') σ

/-- `ParserEngine::parseExpression`, with `engine` for the calls it makes. -/
def parseExpression (engine : Engine D G E S) (minPrecedence : Int) : Parser D G E := do
  let firstTok ← Parser.consume
  match reg.findPrefixHandler firstTok.kind with
  | none => do
    Parser.error firstTok.sourceLoc "unexpected token at expression start"
    pure nullExpr
  | some prefixHandler => do
    let lhs ← prefixHandler engine firstTok
    infixLoop reg engine minPrecedence engine.fuel lhs

/-- `ParserEngine::parseStatement`, with `engine` for the calls it makes. -/
def parseStatement (engine : Engine D G E S) : Parser D G S := fun σ =>
  match reg.findStmtHandler (Parser.current σ).kind with
  | none =>
    (do
      Parser.errorHere "unexpected token at statement start"
      let _ ← Parser.consume
      pure nullStmt) σ
  | some stmtHandler => stmtHandler engine σ

/-- The engine whose calls nest at most `fuel` deep. -/
def parserEngine : Nat → Engine D G E S
  | 0 => ⟨fun _ => Parser.diverge, Parser.diverge, 0⟩
  | n + 1 => ⟨parseExpression reg nullExpr (parserEngine n),
      parseStatement reg nullStmt (parserEngine n), n + 1⟩

@[simp]
theorem parserEngine_parseExpression (n : Nat) (m : Int) :
    (parserEngine reg nullExpr nullStmt (n + 1)).parseExpression m =
      parseExpression reg nullExpr (parserEngine reg nullExpr nullStmt n) m := rfl

@[simp]
theorem parserEngine_fuel (n : Nat) : (parserEngine reg nullExpr nullStmt n).fuel = n := by
  cases n <;> rfl

/-- `ParserEngine::parseItem`. -/
def parseItem (fuel : Nat) : Parser D G I := fun σ =>
  match reg.findItemHandler (Parser.current σ).kind with
  | none =>
    (do
      Parser.errorHere "unexpected token at top-level start"
      let _ ← Parser.consume
      pure nullItem) σ
  | some itemHandler => itemHandler (parserEngine reg nullExpr nullStmt fuel) σ

end

end AroundTheWorld.Parse
