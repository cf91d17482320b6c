import AroundTheWorld.Athens.Ast
import AroundTheWorld.Parse.DefaultGrammarPack

/-!
# The Athens grammar

`AthensParseBuilder` and `AthensGrammarPack`: calls, conditionals, loops,
`var`/`in`, prototypes and user operators, over the shared engine. The global
`BinopPrecedence` is the table that handlers read and prototypes write.
-/

namespace AroundTheWorld.Athens

open AroundTheWorld.Lex AroundTheWorld.Parse

/-- `std::map<char, int>`. -/
abbrev BinopTable := Byte → Option Int

def BinopTable.set (table : BinopTable) (c : Byte) (precedence : Option Int) : BinopTable :=
  fun k => if k = c then precedence else table k

structure AthensParsedItem (D : Type) where
  function : Option (FunctionAST D) := none
  prototype : Option PrototypeAST := none

abbrev AthensParser (D : Type) := Parser D BinopTable

abbrev AthensEngine (D : Type) := Engine D BinopTable (ExprAST D) (ExprAST D)

abbrev AthensRegistry (D : Type) :=
  ParserRegistry D BinopTable (ExprAST D) (ExprAST D) (AthensParsedItem D)

variable {D : Type}

namespace AthensParseBuilder

def makeIdentifier (tok : Token D) : ExprAST D := .variableExpr tok.lexeme

def makeCall (callee : Token D) (arguments : List (ExprAST D)) : ExprAST D :=
  .callExpr callee.lexeme arguments

def makeUnary (opTok : Token D) (operand : ExprAST D) : ExprAST D :=
  match operand, opTok.lexeme with
  | .null, _ => .null
  | operand, [op] => .unaryExpr op operand
  | _, _ => .null

def makeBinary (opTok : Token D) (lhs rhs : ExprAST D) : ExprAST D :=
  match lhs, rhs, opTok.lexeme with
  | .null, _, _ => .null
  | _, .null, _ => .null
  | lhs, rhs, [op] => .binaryExpr op lhs rhs
  | _, _, _ => .null

def makeIf (cond thenExpr elseExpr : ExprAST D) : ExprAST D :=
  match cond, thenExpr, elseExpr with
  | .null, _, _ => .null
  | _, .null, _ => .null
  | _, _, .null => .null
  | cond, thenExpr, elseExpr => .ifExpr cond thenExpr elseExpr

def makeFor (varName : Token D) (start end_ step body : ExprAST D) : ExprAST D :=
  match start, end_, body with
  | .null, _, _ => .null
  | _, .null, _ => .null
  | _, _, .null => .null
  | start, end_, body => .forExpr varName.lexeme start end_ step body

def makeVar (bindings : List (Name × ExprAST D)) (body : ExprAST D) : ExprAST D :=
  match body with
  | .null => .null
  | body => .varExpr bindings body

def makeFunction (prototype : Option PrototypeAST) (body : ExprAST D) : AthensParsedItem D :=
  match prototype, body with
  | none, _ => {}
  | _, .null => {}
  | some prototype, body => { function := some ⟨prototype, body⟩ }

def makeExtern (prototype : Option PrototypeAST) : AthensParsedItem D := { prototype }

/-- The functions that the default pack calls; `ofInt` is the conversion of a
`long long` to `double`. -/
def exprBuilder (ofInt : Int → D) : ExprBuilder D (ExprAST D) where
  makeIdentifier := makeIdentifier
  makeInteger _ value := .numberExpr (ofInt value)
  makeFloat _ value := .numberExpr value
  makeBinary := makeBinary
  makeErrorExpr _ := .null

end AthensParseBuilder

namespace AthensGrammarPack

open AthensParseBuilder

def isAthensOperatorToken : TokenKind → Bool
  | .plus | .minus | .star | .slash | .equal | .less | .lessEqual | .greater | .greaterEqual
  | .logicNot | .operator => true
  | _ => false

def athensOperatorPrecedence (table : BinopTable) (tok : Token D) : Int :=
  match tok.lexeme with
  | [c] =>
    match table c with
    | some precedence => if precedence ≤ 0 then -1 else precedence
    | none => -1
  | _ => -1

/-- `{}` is the token with an empty lexeme that callers test for. -/
def consumeOperator (message : String) : AthensParser D (Token D) := fun σ =>
  if !isAthensOperatorToken (Parser.current σ).kind || (Parser.current σ).lexeme.length != 1 then
    (do
      Parser.errorHere message
      pure { kind := .invalid, lexeme := [] : Token D }) σ
  else Parser.consume σ

/-- The `while (true)` loop over arguments; `none` once it has failed. -/
def parseArguments (engine : AthensEngine D) :
    Nat → List (ExprAST D) → AthensParser D (Option (List (ExprAST D)))
  | 0, _ => Parser.diverge
  | n + 1, args => do
    let arg ← engine.parseExpression 0
    let closing ← Parser.atKind .rParen
    if closing then pure (some (args ++ [arg]))
    else do
      let comma ← Parser.expect .comma "expected ',' in argument list"
      if comma then parseArguments engine n (args ++ [arg]) else pure none

def parseArgumentList (engine : AthensEngine D) : AthensParser D (Option (List (ExprAST D))) := do
  let empty ← Parser.atKind .rParen
  if empty then pure (some []) else parseArguments engine engine.fuel []

def parseIdentifierOrCall (engine : AthensEngine D) (tok : Token D) :
    AthensParser D (ExprAST D) := do
  let opened ← Parser.matchKind .lParen
  if opened then do
    let args ← parseArgumentList engine
    match args with
    | none => pure .null
    | some args => do
      let closed ← Parser.expect .rParen "expected ')' to close argument list"
      if closed then pure (makeCall tok args) else pure .null
  else pure (makeIdentifier tok)

def parseUnary (engine : AthensEngine D) (tok : Token D) : AthensParser D (ExprAST D) := do
  let operand ← engine.parseExpression 100
  pure (makeUnary tok operand)

def parseIf (engine : AthensEngine D) (_ : Token D) : AthensParser D (ExprAST D) := do
  let cond ← engine.parseExpression 0
  let ok ← Parser.expect .kwThen "expected 'then' in if expression"
  if ok then do
    let thenExpr ← engine.parseExpression 0
    let ok ← Parser.expect .kwElse "expected 'else' in if expression"
    if ok then do
      let elseExpr ← engine.parseExpression 0
      pure (makeIf cond thenExpr elseExpr)
    else pure .null
  else pure .null

/-- The step of a `for`, null when there is no second comma. -/
def parseStep (engine : AthensEngine D) : AthensParser D (ExprAST D) := do
  let comma ← Parser.matchKind .comma
  if comma then engine.parseExpression 0 else pure .null

/-- `parseFor` from the start expression on. -/
def parseForRange (engine : AthensEngine D) (varName : Token D) : AthensParser D (ExprAST D) := do
  let start ← engine.parseExpression 0
  let ok ← Parser.expect .comma "expected ',' after loop start"
  if ok then do
    let end_ ← engine.parseExpression 0
    let step ← parseStep engine
    let ok ← Parser.expect .kwIn "expected 'in' after for range"
    if ok then do
      let body ← engine.parseExpression 0
      pure (makeFor varName start end_ step body)
    else pure .null
  else pure .null

def parseFor (engine : AthensEngine D) (_ : Token D) : AthensParser D (ExprAST D) := do
  let named ← Parser.atKind .identifier
  if named then do
    let varName ← Parser.consume
    let ok ← Parser.expect .equal "expected '=' after loop variable"
    if ok then parseForRange engine varName else pure .null
  else do
    Parser.errorHere "expected loop variable after 'for'"
    pure .null

/-- The initialiser of a binding, null when there is no '='. -/
def parseInit (engine : AthensEngine D) : AthensParser D (ExprAST D) := do
  let equal ← Parser.matchKind .equal
  if equal then engine.parseExpression 0 else pure .null

/-- The `while (true)` loop over bindings; `none` once it has failed. -/
def parseBindings (engine : AthensEngine D) :
    Nat → List (Name × ExprAST D) → AthensParser D (Option (List (Name × ExprAST D)))
  | 0, _ => Parser.diverge
  | n + 1, bindings => do
    let named ← Parser.atKind .identifier
    if named then do
      let nameTok ← Parser.consume
      let init ← parseInit engine
      let comma ← Parser.matchKind .comma
      if comma then parseBindings engine n (bindings ++ [(nameTok.lexeme, init)])
      else pure (some (bindings ++ [(nameTok.lexeme, init)]))
    else do
      Parser.errorHere "expected variable name after 'var'"
      pure none

def parseVar (engine : AthensEngine D) (_ : Token D) : AthensParser D (ExprAST D) := do
  let bindings ← parseBindings engine engine.fuel []
  match bindings with
  | none => pure .null
  | some bindings => do
    let ok ← Parser.expect .kwIn "expected 'in' after var bindings"
    if ok then do
      let body ← engine.parseExpression 0
      pure (makeVar bindings body)
    else pure .null

/-! ## Prototypes and items -/

/-- What stands before the parameter list: the name, the number of operands of
an operator (0 for a function), the precedence. -/
structure PrototypeHead where
  name : Name
  kind : Nat
  precedence : Nat

/-- `BinopPrecedence[c] = precedence`. -/
def installBinop (c : Byte) (precedence : Int) : AthensParser D Unit :=
  fun σ => some ((), { σ with globals := σ.globals.set c (some precedence) })

def parseUnaryHead : AthensParser D (Option PrototypeHead) := do
  let opTok ← consumeOperator "expected unary operator in prototype"
  if opTok.lexeme = [] then pure none
  else pure (some ⟨text "unary" ++ opTok.lexeme, 1, 30⟩)

/-- The value of a precedence token that passes the checks on it. -/
def checkedPrecedence : LiteralValue D → Option Nat
  | .int value => if value < 1 || value > 100 then none else some value.toNat
  | _ => none

def parseBinaryPrecedence : AthensParser D (Option Nat) := do
  let given ← Parser.atKind .integer
  if given then do
    let precTok ← Parser.consume
    match checkedPrecedence precTok.literal with
    | none => do
      Parser.error precTok.sourceLoc "binary precedence must be in [1, 100]"
      pure none
    | some precedence => pure (some precedence)
  else pure (some 30)

/-- The operator and the precedence of a binary prototype. -/
def parseBinaryOperator : AthensParser D (Option (Token D × Nat)) := do
  let opTok ← consumeOperator "expected binary operator in prototype"
  if opTok.lexeme = [] then pure none
  else do
    let precedence ← parseBinaryPrecedence
    pure (precedence.map fun precedence => (opTok, precedence))

def parseBinaryHead : AthensParser D (Option PrototypeHead) := do
  let operator ← parseBinaryOperator
  match operator with
  | none => pure none
  | some (opTok, precedence) => do
    installBinop (opTok.lexeme.headD 0) precedence
    pure (some ⟨text "binary" ++ opTok.lexeme, 2, precedence⟩)

def parsePrototypeHead : AthensParser D (Option PrototypeHead) := fun σ =>
  match (Parser.current σ).kind with
  | .identifier =>
    (do
      let nameTok ← Parser.consume
      pure (some (PrototypeHead.mk nameTok.lexeme 0 30))) σ
  | .kwUnaryOp =>
    (do
      let _ ← Parser.consume
      parseUnaryHead) σ
  | .kwBinaryOp =>
    (do
      let _ ← Parser.consume
      parseBinaryHead) σ
  | _ =>
    (do
      Parser.errorHere "expected function name in prototype"
      pure none) σ

/-- The `while` loop over parameter names. -/
def parseParameters : AthensParser D (List Name) := fun σ =>
  let isName := fun tok : Token D => tok.kind == .identifier
  some ((σ.tokens.takeWhile isName).map (·.lexeme),
    { σ with tokens := σ.tokens.dropWhile isName })

def parsePrototypeTail (head : PrototypeHead) : AthensParser D (Option PrototypeAST) := do
  let opened ← Parser.expect .lParen "expected '(' in prototype"
  if opened then do
    let args ← parseParameters
    let closed ← Parser.expect .rParen "expected ')' in prototype"
    if closed then
      if head.kind ≠ 0 ∧ args.length ≠ head.kind then do
        Parser.errorHere "invalid number of operator operands"
        pure none
      else pure (some ⟨head.name, args, head.kind != 0, head.precedence⟩)
    else pure none
  else pure none

def parsePrototype : AthensParser D (Option PrototypeAST) := do
  let head ← parsePrototypeHead
  match head with
  | none => pure none
  | some head => parsePrototypeTail head

def parseDefinition (engine : AthensEngine D) : AthensParser D (AthensParsedItem D) := do
  let _ ← Parser.consume
  let prototype ← parsePrototype
  let body ← engine.parseExpression 0
  pure (makeFunction prototype body)

def parseExtern (_ : AthensEngine D) : AthensParser D (AthensParsedItem D) := do
  let _ ← Parser.consume
  let prototype ← parsePrototype
  pure (makeExtern prototype)

def infixOperator (_ : AthensEngine D) (lhs : ExprAST D) (opTok : Token D) (rhs : ExprAST D) :
    AthensParser D (ExprAST D) :=
  pure (makeBinary opTok lhs rhs)

/-- The kinds that `registerOperator` is called for, in order. -/
def operatorKinds : List TokenKind :=
  [.plus, .minus, .star, .slash, .equal, .less, .lessEqual, .greater, .greaterEqual, .logicNot,
    .operator]

def registerAthensGrammar (ofInt : Int → D) (registry : AthensRegistry D) : AthensRegistry D :=
  let registry := DefaultGrammarPack.registerExpressionHandlers (exprBuilder ofInt) registry
    |>.setPrefix .identifier parseIdentifierOrCall
    |>.setPrefix .kwIf parseIf
    |>.setPrefix .kwFor parseFor
    |>.setPrefix .kwVar parseVar
    |>.setItem .kwFuncDef parseDefinition
    |>.setItem .kwExtern parseExtern
  operatorKinds.foldl (fun registry kind =>
    registry.setPrefix kind parseUnary
      |>.setInfixDynamic kind athensOperatorPrecedence infixOperator) registry

end AthensGrammarPack

def athensRegistry (ofInt : Int → D) : AthensRegistry D :=
  AthensGrammarPack.registerAthensGrammar ofInt .empty

/-- The `AthensEngine` of a stream, with a bound on the depth of its calls. -/
def athensEngine (ofInt : Int → D) (fuel : Nat) : AthensEngine D :=
  parserEngine (athensRegistry ofInt) .null .null fuel

def athensParseItem (ofInt : Int → D) (fuel : Nat) : AthensParser D (AthensParsedItem D) :=
  parseItem (athensRegistry ofInt) .null .null {} fuel

end AroundTheWorld.Athens
