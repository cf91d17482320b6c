import Mathlib.Algebra.Group.Nat.Defs
import AroundTheWorld.Base.While
import AroundTheWorld.Lex.CharStream
import AroundTheWorld.Lex.Rules

/-!
# The lexer

Every loop of the source is a `whileLoop` with a common bound `fuel`, so a call
that never returns is `none` under every bound. `strtod` belongs to the C
library: it is a parameter giving the parsed value and the number of bytes read.
-/

namespace AroundTheWorld.Lex

open AroundTheWorld.Base

variable {D : Type}

/-- `while (!cs.eof() && pred(cs.peek())) cs.consumeOne();` -/
def consumeWhile (pred : Byte → Bool) (fuel : Nat) (cs : CharStream) : Option CharStream :=
  whileLoop (fun cs => !cs.eof && pred cs.peek) (fun cs => some cs.consumeOne.2) fuel cs

/-- One iteration of the scan for the closing delimiter of a block comment; the
flag stands for the `break`. -/
def consumeBlockStep (closing : Text) (s : CharStream × Bool) : Option (CharStream × Bool) :=
  if s.1.size - s.1.cursor ≥ closing.length ∧
      s.1.view s.1.cursor (s.1.cursor + closing.length) = closing then
    some (s.1.advance closing.length, true)
  else some (s.1.consumeOne.2, false)

def consumeBlock (closing : Text) (fuel : Nat) (cs : CharStream) : Option CharStream :=
  (whileLoop (fun s : CharStream × Bool => !s.1.eof && !s.2) (consumeBlockStep closing)
    fuel (cs, false)).map (·.1)

/-- The rest of a comment, from just after its opening delimiter. -/
def consumeCommentBody (delim : CommentDelimiter) (fuel : Nat) (cs : CharStream) :
    Option CharStream :=
  match delim.kind with
  | .line => consumeWhile (fun c => c != byte '\n') fuel cs
  | .block =>
    if delim.closing = [] then consumeWhile (fun _ => true) fuel cs
    else consumeBlock delim.closing fuel cs

def triviaPiece (kind : TriviaKind) (cs cs' : CharStream) : TriviaPiece where
  kind := kind
  text := cs'.view cs.cursor cs'.cursor
  sourceLoc := cs.locTo cs'

/-- The loop of `consumeCommentMaybe` over the remaining delimiters; `none` in
the pair when no comment starts at the cursor. -/
def consumeCommentMaybe (fuel : Nat) (cs : CharStream) :
    List CommentDelimiter → Option (Option (TriviaPiece × CharStream))
  | [] => some none
  | delim :: rest =>
    if delim.opening = [] then consumeCommentMaybe fuel cs rest
    else if cs.size - cs.cursor < delim.opening.length then consumeCommentMaybe fuel cs rest
    else if cs.view cs.cursor (cs.cursor + delim.opening.length) ≠ delim.opening then
      consumeCommentMaybe fuel cs rest
    else
      (consumeCommentBody delim fuel (cs.advance delim.opening.length)).map fun cs' =>
        some (triviaPiece .comment cs cs', cs')

structure TriviaState where
  cs : CharStream
  trivia : List TriviaPiece
  consumedAny : Bool

section
variable (rules : LexLanguageRules)

/-- The body of the loop of `consumeTrivia`. -/
def consumeTriviaStep (fuel : Nat) (s : TriviaState) : Option TriviaState :=
  if s.cs.peek = byte '\n' then
    some ⟨s.cs.consumeOne.2, s.trivia ++ [triviaPiece .newline s.cs s.cs.consumeOne.2], true⟩
  else if isspace s.cs.peek then
    (consumeWhile (fun wc => !(wc == byte '\n' || !isspace wc)) fuel s.cs).map fun cs' =>
      ⟨cs', s.trivia ++ [triviaPiece .whitespace s.cs cs'], true⟩
  else
    (consumeCommentMaybe fuel s.cs rules.comments).map fun
      | some (piece, cs') => ⟨cs', s.trivia ++ [piece], true⟩
      | none => { s with consumedAny := false }

def consumeTrivia (fuel : Nat) (cs : CharStream) : Option (CharStream × List TriviaPiece) :=
  (whileLoop (fun s : TriviaState => !s.cs.eof && s.consumedAny) (consumeTriviaStep rules fuel)
    fuel ⟨cs, [], true⟩).map fun s => (s.cs, s.trivia)

/-- The token read between two states of the stream. -/
def tokenAt (kind : TokenKind) (lexeme : Text) (literal : LiteralValue D) (cs cs' : CharStream) :
    Token D :=
  ⟨kind, lexeme, cs.locTo cs', literal⟩

def lexIdentifierOrKeyword (fuel : Nat) (cs : CharStream) : Option (Token D × CharStream) :=
  (consumeWhile rules.isIdentContinue fuel cs).map fun cs' =>
    let lexeme := cs'.view cs.cursor cs'.cursor
    match rules.keyword lexeme with
    | some kind => (tokenAt kind lexeme .none cs cs', cs')
    | none => (tokenAt .identifier lexeme .none cs cs', cs')

structure NumberState where
  cs : CharStream
  sawDot : Bool
  invalid : Bool

/-- The first loop of `lexNumber`: digits and dots, noting a second dot. -/
def scanNumber (fuel : Nat) (cs : CharStream) : Option NumberState :=
  whileLoop (fun s : NumberState => !s.cs.eof && (isdigit s.cs.peek || s.cs.peek == byte '.'))
    (fun s =>
      if isdigit s.cs.peek then some { s with cs := s.cs.consumeOne.2 }
      else some ⟨s.cs.consumeOne.2, true, s.invalid || s.sawDot⟩)
    fuel ⟨cs, false, false⟩

/-- The value of a string of decimal digits. -/
def decimalValue (digits : Text) : Nat :=
  digits.foldl (fun acc c => acc * 10 + (c - byte '0').toNat) 0

/-- `std::from_chars` into a `long long`, on text without a sign: the number of
bytes read and the value, absent when nothing was read or it is out of range. -/
def fromChars (lexeme : Text) : Nat × Option Int :=
  let digits := lexeme.takeWhile isdigit
  (digits.length,
    if digits = [] then none
    else if decimalValue digits < 2 ^ 63 then some (decimalValue digits : Int) else none)

/-- The second loop of `lexNumber`, entered only for a malformed number. -/
def skipInvalid (fuel : Nat) (s : NumberState) : Option CharStream :=
  if s.invalid then consumeWhile (fun c => isdigit c || c == byte '.') fuel s.cs else some s.cs

variable (strtod : Text → D × Nat)

/-- The rest of `lexNumber`, once the numeric spelling ends at `cs₁`. -/
def classifyNumber (fuel : Nat) (cs : CharStream) (s : NumberState) (cs₁ : CharStream) :
    Option (Token D × CharStream) :=
  let lexeme := cs₁.view cs.cursor cs₁.cursor
  if s.invalid then some (tokenAt .invalidNumber lexeme .none cs cs₁, cs₁)
  else if s.sawDot then
    if (strtod lexeme).2 ≠ lexeme.length then
      some (tokenAt .invalidNumber lexeme .none cs cs₁, cs₁)
    else some (tokenAt .float lexeme (.double (strtod lexeme).1) cs cs₁, cs₁)
  else
    -- the end of the lexeme was sampled before this loop
    (consumeWhile isdigit fuel cs₁).map fun cs₂ =>
      match fromChars lexeme with
      | (read, some value) =>
        if read ≠ lexeme.length then (tokenAt .invalidNumber lexeme .none cs cs₁, cs₂)
        else (tokenAt .integer lexeme (.int value) cs cs₁, cs₂)
      | (_, none) => (tokenAt .invalidNumber lexeme .none cs cs₁, cs₂)

def lexNumber (fuel : Nat) (cs : CharStream) : Option (Token D × CharStream) :=
  (scanNumber fuel cs).bind fun s =>
    (skipInvalid fuel s).bind fun cs₁ => classifyNumber strtod fuel cs s cs₁

/-- The two-character spelling at the cursor, when it is a punctuator. -/
def twoCharPunct (cs : CharStream) : Option TokenKind :=
  if cs.size - cs.cursor ≥ 2 then rules.punctuator (cs.view cs.cursor (cs.cursor + 2)) else none

def lexPunctOrInvalid (cs : CharStream) : Token D × CharStream :=
  match twoCharPunct rules cs with
  | some kind =>
    let cs' := cs.advance 2
    (tokenAt kind (cs.view cs.cursor (cs.cursor + 2)) .none cs cs', cs')
  | none =>
    let one := cs.view cs.cursor (cs.cursor + 1)
    let cs' := cs.consumeOne.2
    match rules.punctuator one with
    | some kind => (tokenAt kind one .none cs cs', cs')
    | none =>
      if !isalnum cs.peek && !isspace cs.peek then (tokenAt .operator one .none cs cs', cs')
      else (tokenAt .invalid one .none cs cs', cs')

structure Lexer where
  cs : CharStream
  trivia : List TriviaPiece := []

def Lexer.ofBuffer (buffer : Text) : Lexer := ⟨CharStream.ofBuffer buffer, []⟩

/-- The token that starts at the cursor, once the trivia before it is gone. -/
def lexToken (fuel : Nat) (cs : CharStream) : Option (Token D × CharStream) :=
  if cs.eof then some (tokenAt .eof [] .none cs cs, cs)
  else if rules.isIdentStart cs.peek then lexIdentifierOrKeyword rules fuel cs
  else if isdigit cs.peek || (cs.peek == byte '.' && isdigit cs.peek2) then
    lexNumber strtod fuel cs
  else some (lexPunctOrInvalid rules cs)

def Lexer.next (fuel : Nat) (l : Lexer) : Option (Token D × Lexer) :=
  (consumeTrivia rules fuel l.cs).bind fun (cs, trivia) =>
    (lexToken rules strtod fuel cs).map fun (tok, cs') => (tok, ⟨cs', trivia⟩)

/-- A call of `next` that returns, under some bound on its loops. -/
def Lexer.Next (l : Lexer) (tok : Token D) (l' : Lexer) : Prop :=
  ∃ fuel, l.next rules strtod fuel = some (tok, l')

/-- The states reached by calls of `next` on a source buffer. -/
inductive Lexer.Reached (buffer : Text) : Lexer → Prop
  | start : Reached buffer (Lexer.ofBuffer buffer)
  | next {l l' : Lexer} {tok : Token D} :
      Reached buffer l → l.Next rules strtod tok l' → Reached buffer l'

/-- Repeated `next` up to and including `Eof`: each call's trivia and token. -/
inductive Lexer.Run : Lexer → List (List TriviaPiece × Token D) → Prop
  | eof {l l' : Lexer} {tok : Token D} :
      l.Next rules strtod tok l' → tok.kind = .eof → Run l [(l'.trivia, tok)]
  | step {l l' : Lexer} {tok : Token D} {out : List (List TriviaPiece × Token D)} :
      l.Next rules strtod tok l' → tok.kind ≠ .eof → Run l' out → Run l ((l'.trivia, tok) :: out)

/-- At most `calls` calls of `next`, each with the same bound on its loops,
until the first `Eof`. -/
def Lexer.tokenize (fuel : Nat) : Nat → Lexer → Option (List (List TriviaPiece × Token D))
  | 0, _ => none
  | calls + 1, l =>
    (l.next rules strtod fuel).bind fun (tok, l') =>
      if tok.kind = .eof then some [(l'.trivia, tok)]
      else (Lexer.tokenize fuel calls l').map fun out => (l'.trivia, tok) :: out

end

end AroundTheWorld.Lex
