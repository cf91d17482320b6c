import AroundTheWorld.Parse.Engine

/-!
# The default grammar pack

The expression handlers shared by the languages: identifiers, numbers,
parentheses and the common binary tokens.
-/

namespace AroundTheWorld.Parse

open AroundTheWorld.Lex

/-- The builder functions that the default handlers call. -/
structure ExprBuilder (D E : Type) where
  makeIdentifier : Token D → E
  makeInteger : Token D → Int → E
  makeFloat : Token D → D → E
  makeBinary : Token D → E → E → E
  makeErrorExpr : SourceLoc → E

namespace DefaultGrammarPack

variable {D G E S I : Type} (builder : ExprBuilder D E)

def prefixIdentifierExpr : PrefixExprHandler D G E S := fun _ tok =>
  pure (builder.makeIdentifier tok)

def prefixIntegerExpr : PrefixExprHandler D G E S := fun _ tok =>
  match tok.literal with
  | .int val => pure (builder.makeInteger tok val)
  | _ => do
    Parser.error tok.sourceLoc "integer token missing numeric payload"
    pure (builder.makeErrorExpr tok.sourceLoc)

def prefixFloatExpr : PrefixExprHandler D G E S := fun _ tok =>
  match tok.literal with
  | .double val => pure (builder.makeFloat tok val)
  | _ => do
    Parser.error tok.sourceLoc "float token missing numeric payload"
    pure (builder.makeErrorExpr tok.sourceLoc)

def prefixParenExpr : PrefixExprHandler D G E S := fun engine tok => do
  let inner ← engine.parseExpression 0
  let closed ← Parser.expect .rParen "expected ')' to close parenthesized expression"
  if closed then pure inner else pure (builder.makeErrorExpr tok.sourceLoc)

def infixBinaryExpr : InfixExprHandler D G E S := fun _ lhs opTok rhs =>
  pure (builder.makeBinary opTok lhs rhs)

/-- The tokens that get `infixBinaryExpr`, with their precedences. -/
def infixPrecedences : List (TokenKind × Int) :=
  [(.equal, 5), (.less, 10), (.lessEqual, 10), (.greater, 10), (.greaterEqual, 10),
    (.plus, 20), (.minus, 20), (.star, 40), (.slash, 40)]

def registerExpressionHandlers (registry : ParserRegistry D G E S I) :
    ParserRegistry D G E S I :=
  let registry := registry
    |>.setPrefix .identifier (prefixIdentifierExpr builder)
    |>.setPrefix .integer (prefixIntegerExpr builder)
    |>.setPrefix .float (prefixFloatExpr builder)
    |>.setPrefix .lParen (prefixParenExpr builder)
  infixPrecedences.foldl (fun registry (kind, precedence) =>
    registry.setInfix kind precedence (infixBinaryExpr builder)) registry

end DefaultGrammarPack

end AroundTheWorld.Parse
