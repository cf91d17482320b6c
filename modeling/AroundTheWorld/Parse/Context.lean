import AroundTheWorld.Lex.Token

/-!
# The parsing context

`ParseContext` bundles the token stream, the builder and the diagnostics. The
stream is the list of tokens up to the first `Eof`, which then repeats at the
same location. Global tables that handlers read and write travel along as `G`.
A parser that has not returned within its bound is `none`.
-/

namespace AroundTheWorld.Parse

open AroundTheWorld.Lex

structure ParseState (D G : Type) where
  tokens : List (Token D)
  eofLoc : SourceLoc := {}
  diag : List (SourceLoc × String) := []
  globals : G

abbrev Parser (D G α : Type) := ParseState D G → Option (α × ParseState D G)

namespace Parser

variable {D G α β : Type}

def pure (a : α) : Parser D G α := fun σ => some (a, σ)

def bind (p : Parser D G α) (f : α → Parser D G β) : Parser D G β :=
  fun σ => (p σ).bind fun (a, σ') => f a σ'

/-- The token at the head of the stream; `Eof` once the others are consumed. -/
def current (σ : ParseState D G) : Token D := σ.tokens.headD ⟨.eof, [], σ.eofLoc, .none⟩

def consume : Parser D G (Token D) :=
  fun σ => some (current σ, { σ with tokens := σ.tokens.tail })

/-- `TokenStream::is`. -/
def atKind (kind : TokenKind) : Parser D G Bool := fun σ => some ((current σ).kind == kind, σ)

/-- `IDiagnostics::error` of a diagnostics object that keeps what it is told. -/
def error (loc : SourceLoc) (message : String) : Parser D G Unit :=
  fun σ => some ((), { σ with diag := σ.diag ++ [(loc, message)] })

/-- `diag.error(tokenStream.current().source_loc, message)`. -/
def errorHere (message : String) : Parser D G Unit :=
  fun σ => error (current σ).sourceLoc message σ

/-- `TokenStream::match`. -/
def matchKind (kind : TokenKind) : Parser D G Bool :=
  fun σ => if (current σ).kind = kind then some (true, { σ with tokens := σ.tokens.tail })
    else some (false, σ)

def expect (kind : TokenKind) (message : String) : Parser D G Bool :=
  fun σ => if (current σ).kind = kind then some (true, { σ with tokens := σ.tokens.tail })
    else (errorHere message σ).map fun (_, σ') => (false, σ')

def diverge : Parser D G α := fun _ => none

end Parser

instance {D G : Type} : Monad (Parser D G) where
  pure := Parser.pure
  bind := Parser.bind

end AroundTheWorld.Parse
