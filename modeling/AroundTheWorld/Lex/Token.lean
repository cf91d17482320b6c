import Mathlib.Data.List.Basic

/-!
# Tokens and trivia

Source text is a list of bytes: a C++ `char` is a byte here, and both
`std::string` and `std::string_view` are byte lists. The type `D` of doubles is
a parameter, since nothing in the front end computes with them.
-/

namespace AroundTheWorld.Lex

abbrev Byte := UInt8

abbrev Text := List Byte

/-- The byte of an ASCII character of the source. -/
def byte (c : Char) : Byte := UInt8.ofNat c.toNat

/-- The bytes of an ASCII string literal of the source. -/
def text (s : String) : Text := s.toList.map byte

structure SourceLoc where
  startOffset : Nat := 0
  endOffset : Nat := 0
  startLine : Nat := 1
  startColumn : Nat := 1
  endLine : Nat := 1
  endColumn : Nat := 1
  deriving DecidableEq, Repr, Inhabited

inductive TokenKind where
  | invalid | invalidNumber | eof
  | identifier | integer | float
  | lParen | rParen | comma | semicolon
  | plus | minus | star | slash
  | equal | equalEqual | bangEqual
  | less | lessEqual | greater | greaterEqual
  | logicNot | operator
  | kwFuncDef | kwExtern | kwIf | kwThen | kwElse | kwFor | kwIn
  | kwBinaryOp | kwUnaryOp | kwVar | kwVerify | kwAssert | kwTrue | kwFalse
  deriving DecidableEq, Repr, Inhabited

/-- `std::variant<std::monostate, long long, double>`. -/
inductive LiteralValue (D : Type) where
  | none
  | int (value : Int)
  | double (value : D)
  deriving DecidableEq, Repr, Inhabited

structure Token (D : Type) where
  kind : TokenKind := .invalid
  lexeme : Text := []
  sourceLoc : SourceLoc := {}
  literal : LiteralValue D := .none
  deriving DecidableEq, Repr, Inhabited

/-- A token without its location. -/
def Token.content {D : Type} (tok : Token D) : TokenKind × Text × LiteralValue D :=
  (tok.kind, tok.lexeme, tok.literal)

inductive TriviaKind where
  | whitespace | newline | comment
  deriving DecidableEq, Repr

structure TriviaPiece where
  kind : TriviaKind
  text : Text
  sourceLoc : SourceLoc
  deriving DecidableEq, Repr

end AroundTheWorld.Lex
