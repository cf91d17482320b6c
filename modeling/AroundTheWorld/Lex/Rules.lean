import AroundTheWorld.Lex.Token

/-!
# Lexical rules of a language

`ILexLanguageRules` with the members the lexer calls, and its two
implementations. The character classes are those of `<cctype>` in the C locale.
-/

namespace AroundTheWorld.Lex

def isdigit (c : Byte) : Bool := byte '0' ≤ c && c ≤ byte '9'

def isalpha (c : Byte) : Bool :=
  (byte 'a' ≤ c && c ≤ byte 'z') || (byte 'A' ≤ c && c ≤ byte 'Z')

def isalnum (c : Byte) : Bool := isalpha c || isdigit c

/-- Space, and the controls from horizontal tab to carriage return. -/
def isspace (c : Byte) : Bool := c == byte ' ' || (9 ≤ c && c ≤ 13)

inductive CommentDelimiter.Kind where
  | line | block
  deriving DecidableEq, Repr

structure CommentDelimiter where
  kind : CommentDelimiter.Kind
  opening : Text
  closing : Text
  deriving DecidableEq, Repr

structure LexLanguageRules where
  keyword : Text → Option TokenKind
  punctuator : Text → Option TokenKind
  comments : List CommentDelimiter
  isIdentStart : Byte → Bool
  isIdentContinue : Byte → Bool

/-- A chain of `if (text == spelling) return kind;`. -/
def lookupSpelling (table : List (String × TokenKind)) (t : Text) : Option TokenKind :=
  (table.find? fun entry => text entry.1 == t).map (·.2)

namespace AthensLexRules

def keywords : List (String × TokenKind) :=
  [("def", .kwFuncDef), ("extern", .kwExtern), ("if", .kwIf), ("then", .kwThen),
    ("else", .kwElse), ("for", .kwFor), ("in", .kwIn), ("binary", .kwBinaryOp),
    ("unary", .kwUnaryOp), ("var", .kwVar)]

def punctuators : List (String × TokenKind) :=
  [("(", .lParen), (")", .rParen), (",", .comma), (";", .semicolon), ("+", .plus),
    ("-", .minus), ("*", .star), ("/", .slash), ("=", .equal), ("<", .less),
    ("<=", .lessEqual), (">", .greater), (">=", .greaterEqual), ("!", .logicNot)]

def comments : List CommentDelimiter := [⟨.line, text "#", text ""⟩]

def isIdentStart (c : Byte) : Bool := isalpha c

def isIdentContinue (c : Byte) : Bool := isalnum c || c == byte '_'

end AthensLexRules

def athensLexRules : LexLanguageRules where
  keyword := lookupSpelling AthensLexRules.keywords
  punctuator := lookupSpelling AthensLexRules.punctuators
  comments := AthensLexRules.comments
  isIdentStart := AthensLexRules.isIdentStart
  isIdentContinue := AthensLexRules.isIdentContinue

namespace DublinLexRules

def keywords : List (String × TokenKind) :=
  [("verify", .kwVerify), ("assert", .kwAssert), ("true", .kwTrue), ("false", .kwFalse)]

def punctuators : List (String × TokenKind) :=
  [("(", .lParen), (")", .rParen), (",", .comma), (";", .semicolon), ("+", .plus),
    ("-", .minus), ("*", .star), ("==", .equalEqual), ("!=", .bangEqual), ("<", .less),
    ("<=", .lessEqual), (">", .greater), (">=", .greaterEqual), ("!", .logicNot)]

def comments : List CommentDelimiter :=
  [⟨.line, text "#", text ""⟩, ⟨.line, text "//", text ""⟩]

def isIdentStart (c : Byte) : Bool := isalpha c || c == byte '_'

def isIdentContinue (c : Byte) : Bool := isalnum c || c == byte '_'

end DublinLexRules

def dublinLexRules : LexLanguageRules where
  keyword := lookupSpelling DublinLexRules.keywords
  punctuator := lookupSpelling DublinLexRules.punctuators
  comments := DublinLexRules.comments
  isIdentStart := DublinLexRules.isIdentStart
  isIdentContinue := DublinLexRules.isIdentContinue

/-- The two languages that have a lexer of their own. -/
inductive Language where
  | athens | dublin
  deriving DecidableEq, Repr

def Language.rules : Language → LexLanguageRules
  | .athens => athensLexRules
  | .dublin => dublinLexRules

/-- What the lexer needs of its rules to move forward: an identifier start also
continues one, no rule looks at NUL bytes, and no spelling yields an `Eof`
token. -/
structure LawfulRules (r : LexLanguageRules) : Prop where
  start_continue : ∀ c, r.isIdentStart c = true → r.isIdentContinue c = true
  continue_zero : r.isIdentContinue 0 = false
  keyword_ne_eof : ∀ t, r.keyword t ≠ some .eof
  punctuator_ne_eof : ∀ t, r.punctuator t ≠ some .eof
  punctuator_nul : ∀ t k, r.punctuator t = some k → (0 : Byte) ∉ t
  comments_nul : ∀ d ∈ r.comments, (0 : Byte) ∉ d.opening ∧ (0 : Byte) ∉ d.closing

theorem lookupSpelling_some {table : List (String × TokenKind)} {t : Text} {k : TokenKind}
    (h : lookupSpelling table t = some k) : ∃ s, (s, k) ∈ table ∧ t = text s := by
  simp only [lookupSpelling, Option.map_eq_some_iff] at h
  obtain ⟨⟨s, k'⟩, hfind, rfl⟩ := h
  have hp := List.find?_some hfind
  exact ⟨s, List.mem_of_find?_eq_some hfind, (eq_of_beq hp).symm⟩

private theorem lookup_ne_eof {table : List (String × TokenKind)}
    (h : ∀ e ∈ table, e.2 ≠ .eof) (t : Text) : lookupSpelling table t ≠ some .eof := by
  intro he
  obtain ⟨s, hs, _⟩ := lookupSpelling_some he
  exact h _ hs rfl

private theorem lookup_nul {table : List (String × TokenKind)}
    (h : ∀ e ∈ table, (0 : Byte) ∉ text e.1) (t : Text) (k : TokenKind)
    (hk : lookupSpelling table t = some k) : (0 : Byte) ∉ t := by
  obtain ⟨s, hs, rfl⟩ := lookupSpelling_some hk
  exact h _ hs

theorem athensLexRules_lawful : LawfulRules athensLexRules where
  start_continue c h := by
    simp only [athensLexRules, AthensLexRules.isIdentStart] at h
    simp [athensLexRules, AthensLexRules.isIdentContinue, isalnum, h]
  continue_zero := by decide
  keyword_ne_eof := lookup_ne_eof (by decide)
  punctuator_ne_eof := lookup_ne_eof (by decide)
  punctuator_nul := lookup_nul (by decide)
  comments_nul := by decide

theorem dublinLexRules_lawful : LawfulRules dublinLexRules where
  start_continue c h := by
    simp only [dublinLexRules, DublinLexRules.isIdentStart, Bool.or_eq_true] at h
    simp only [dublinLexRules, DublinLexRules.isIdentContinue, isalnum, Bool.or_eq_true]
    tauto
  continue_zero := by decide
  keyword_ne_eof := lookup_ne_eof (by decide)
  punctuator_ne_eof := lookup_ne_eof (by decide)
  punctuator_nul := lookup_nul (by decide)
  comments_nul := by decide

theorem Language.lawful (lang : Language) : LawfulRules lang.rules := by
  cases lang
  · exact athensLexRules_lawful
  · exact dublinLexRules_lawful

end AroundTheWorld.Lex
