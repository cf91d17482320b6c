import AroundTheWorld.Dublin.Ast
import AroundTheWorld.Parse.DefaultGrammarPack

/-!
# The Dublin grammar

`DublinParseBuilder` and `DublinGrammarPack`: `verify` blocks with typed
arguments and assertions, over the shared engine. There are no global tables,
and the builder makes a node whatever its children are.
-/

namespace AroundTheWorld.Dublin

open AroundTheWorld.Lex AroundTheWorld.Smt AroundTheWorld.Parse

structure DublinItem where
  verify : Option VerifyBlock := none

/-- An assertion is its condition, null in `Assertion{}`. -/
abbrev Assertion := Expr

abbrev DublinParser (D : Type) := Parser D Unit

abbrev DublinEngine (D : Type) := Engine D Unit Expr Assertion

abbrev DublinRegistry (D : Type) := ParserRegistry D Unit Expr Assertion DublinItem

variable {D : Type}

namespace DublinParseBuilder

def makeIdentifier (tok : Token D) : Expr := .variable_ tok.lexeme

def makeInteger (_ : Token D) (value : Int) : Expr := .integer value

def makeErrorExpr (_ : SourceLoc) : Expr := .null

def makeFloat (tok : Token D) (_ : D) : Expr := makeErrorExpr tok.sourceLoc

def makeBool (value : Bool) : Expr := .bool value

def makeCall (callee : Token D) (arguments : List Expr) : Expr := .call callee.lexeme arguments

def makeUnary (opTok : Token D) (operand : Expr) : Expr := .unary opTok.lexeme operand

def makeBinary (opTok : Token D) (lhs rhs : Expr) : Expr := .binary opTok.lexeme lhs rhs

def makeAssert (_ : Token D) (condition : Expr) : Assertion := condition

def makeVerify (name : Text) (args : List Argument) (assertions : List Assertion) : DublinItem :=
  { verify := some ⟨name, args, assertions⟩ }

/-- The functions that the default pack calls. -/
def exprBuilder : ExprBuilder D Expr where
  makeIdentifier := makeIdentifier
  makeInteger := makeInteger
  makeFloat := makeFloat
  makeBinary := makeBinary
  makeErrorExpr := makeErrorExpr

end DublinParseBuilder

namespace DublinGrammarPack

open DublinParseBuilder

/-- The lexemes that name a type. -/
def typeLexemes : List (String × Ty) :=
  [("i1", .bv 1), ("i8", .bv 8), ("i16", .bv 16), ("i32", .bv 32), ("i64", .bv 64)]

def parseTypeToken (tok : Token D) : Option Ty :=
  if tok.kind ≠ .identifier then none
  else (typeLexemes.find? fun p => text p.1 = tok.lexeme).map (·.2)

/-- The `while (true)` loop over arguments; `none` once it has failed. -/
def parseArguments (engine : DublinEngine D) :
    Nat → List Expr → DublinParser D (Option (List Expr))
  | 0, _ => Parser.diverge
  | n + 1, args => do
    let arg ← engine.parseExpression 0
    let closing ← Parser.atKind .rParen
    if closing then pure (some (args ++ [arg]))
    else do
      let comma ← Parser.expect .comma "expected ',' in argument list"
      if comma then parseArguments engine n (args ++ [arg]) else pure none

def parseArgumentList (engine : DublinEngine D) : DublinParser D (Option (List Expr)) := do
  let empty ← Parser.atKind .rParen
  if empty then pure (some []) else parseArguments engine engine.fuel []

def parseIdentifierOrCall (engine : DublinEngine D) (tok : Token D) : DublinParser D Expr := do
  let opened ← Parser.matchKind .lParen
  if opened then do
    let args ← parseArgumentList engine
    match args with
    | none => pure (makeErrorExpr tok.sourceLoc)
    | some args => do
      let closed ← Parser.expect .rParen "expected ')' to close argument list"
      if closed then pure (makeCall tok args) else pure (makeErrorExpr tok.sourceLoc)
  else pure (makeIdentifier tok)

def parseBool (_ : DublinEngine D) (tok : Token D) : DublinParser D Expr :=
  pure (makeBool (tok.kind == .kwTrue))

def parseUnary (engine : DublinEngine D) (tok : Token D) : DublinParser D Expr := do
  let operand ← engine.parseExpression 100
  pure (makeUnary tok operand)

def parseAssert (engine : DublinEngine D) : DublinParser D Assertion := do
  let assertTok ← Parser.consume
  let condition ← engine.parseExpression 0
  let _ ← Parser.expect .semicolon "expected ';' after assertion"
  pure (makeAssert assertTok condition)

/-- The type behind an argument's name. -/
def parseArgumentType : DublinParser D (Option Ty) := do
  let typeTok ← Parser.consume
  match parseTypeToken typeTok with
  | none => do
    Parser.error typeTok.sourceLoc "expected type i1, i8, i16, i32, or i64"
    pure none
  | some type => pure (some type)

/-- The `while (true)` loop over the block's arguments; `none` once it has failed. -/
def parseVerifyArguments : Nat → List Argument → DublinParser D (Option (List Argument))
  | 0, _ => Parser.diverge
  | n + 1, args => do
    let named ← Parser.atKind .identifier
    if named then do
      let argName ← Parser.consume
      let type ← parseArgumentType
      match type with
      | none => pure none
      | some type => do
        let closing ← Parser.atKind .rParen
        if closing then pure (some (args ++ [⟨argName.lexeme, type⟩]))
        else do
          let comma ← Parser.expect .comma "expected ',' between arguments"
          if comma then parseVerifyArguments n (args ++ [⟨argName.lexeme, type⟩]) else pure none
    else do
      Parser.errorHere "expected argument name"
      pure none

def parseVerifyArgumentList (fuel : Nat) : DublinParser D (Option (List Argument)) := do
  let empty ← Parser.atKind .rParen
  if empty then pure (some []) else parseVerifyArguments fuel []

/-- The loop over statements up to the end of the stream. -/
def parseAssertions (engine : DublinEngine D) :
    Nat → List Assertion → DublinParser D (List Assertion)
  | 0, _ => Parser.diverge
  | n + 1, assertions => do
    let atEnd ← Parser.atKind .eof
    if atEnd then pure assertions
    else do
      let assertion ← engine.parseStatement
      parseAssertions engine n (assertions ++ [assertion])

/-- `parseVerify` behind the name. -/
def parseVerifyBody (engine : DublinEngine D) (name : Token D) : DublinParser D DublinItem := do
  let opened ← Parser.expect .lParen "expected '(' after verify name"
  if opened then do
    let args ← parseVerifyArgumentList engine.fuel
    match args with
    | none => pure {}
    | some args => do
      let closed ← Parser.expect .rParen "expected ')' after argument list"
      if closed then do
        let assertions ← parseAssertions engine engine.fuel []
        pure (makeVerify name.lexeme args assertions)
      else pure {}
  else pure {}

def parseVerify (engine : DublinEngine D) : DublinParser D DublinItem := do
  let _ ← Parser.consume
  let named ← Parser.atKind .identifier
  if named then do
    let name ← Parser.consume
    parseVerifyBody engine name
  else do
    Parser.errorHere "expected name after 'verify'"
    pure {}

def infixBinary (_ : DublinEngine D) (lhs : Expr) (opTok : Token D) (rhs : Expr) :
    DublinParser D Expr :=
  pure (makeBinary opTok lhs rhs)

/-- The calls of `setInfix`, in order. -/
def infixPrecedences : List (TokenKind × Int) :=
  [(.equalEqual, 10), (.bangEqual, 10), (.less, 10), (.lessEqual, 10), (.greater, 10),
    (.greaterEqual, 10), (.plus, 20), (.minus, 20), (.star, 40)]

def registerHandlers (registry : DublinRegistry D) : DublinRegistry D :=
  let registry := DefaultGrammarPack.registerExpressionHandlers exprBuilder registry
    |>.setPrefix .identifier parseIdentifierOrCall
    |>.setPrefix .kwTrue parseBool
    |>.setPrefix .kwFalse parseBool
    |>.setPrefix .logicNot parseUnary
    |>.setPrefix .minus parseUnary
  let registry := infixPrecedences.foldl (fun registry (kind, precedence) =>
    registry.setInfix kind precedence infixBinary) registry
  registry
    |>.setStmt .kwAssert parseAssert
    |>.setItem .kwVerify parseVerify

end DublinGrammarPack

def dublinRegistry : DublinRegistry D := DublinGrammarPack.registerHandlers .empty

/-- The `DublinEngine` of a stream, with a bound on the depth of its calls. -/
def dublinEngine (fuel : Nat) : DublinEngine D := parserEngine dublinRegistry .null .null fuel

def dublinParseItem (fuel : Nat) : DublinParser D DublinItem :=
  parseItem dublinRegistry .null .null {} fuel

end AroundTheWorld.Dublin
