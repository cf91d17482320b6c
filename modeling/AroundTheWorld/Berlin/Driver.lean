import AroundTheWorld.Athens.Driver
import AroundTheWorld.Berlin.Module

/-!
# The Berlin driver

`ParseFile` over the tokens of a file and `main` behind it. What `mlir::verify` says
about a module is a parameter. The generator never changes what is parsed, so that a
run is one over the items that the parser finds, up to where it stops.
-/

namespace AroundTheWorld.Berlin

open AroundTheWorld.Base AroundTheWorld.Lex AroundTheWorld.Parse AroundTheWorld.Mlir
open AroundTheWorld.Athens (BinopTable athensParseItem standardBinaryOperators)
open AroundTheWorld.Llvm (FloatOps)

variable {D : Type}

/-- What a turn of the loop finds; a line on `std::cerr` when `ParseFile` returns
false, empty when the parser has written one itself. -/
inductive Found (D : Type) where
  | eof
  | nothing (rest : ParseState D BinopTable)
  | item (item : Item D) (rest : ParseState D BinopTable)
  | rejected (line : Text)

/-- `(void)tokens.match(Semicolon)`. -/
def matchSemicolon (σ : ParseState D BinopTable) : ParseState D BinopTable :=
  if (Parser.current σ).kind = .semicolon then { σ with tokens := σ.tokens.tail } else σ

/-- What stderr gets, and false, or the item. -/
def checkItem (item : Athens.AthensParsedItem D) (σ : ParseState D BinopTable) : Found D :=
  if σ.diag ≠ [] then .rejected []
  else
    match item.function, item.prototype with
    | some f, _ => .item (.function f) (matchSemicolon σ)
    | none, some proto => .item (.prototype proto) (matchSemicolon σ)
    | none, none => .rejected (text "unexpected top-level item\n")

inductive Ending where
  | returned (code : Nat)
  | crashed (why : Crash)
  deriving DecidableEq, Repr

/-- `std::cerr << line`. -/
def ModuleState.complain (s : ModuleState D) (line : Text) : ModuleState D :=
  { s with gen := { s.gen with errors := s.gen.errors ++ [line] } }

section
variable (ops : FloatOps D) (ofInt : Int → D) (fuel : Nat) (verify : ModuleState D → Bool)

/-- The part of a turn in front of the generator, `none` when `fuel` does not bound
the depth of the parser's calls. -/
def findItem (σ : ParseState D BinopTable) : Option (Found D) :=
  match (Parser.current σ).kind with
  | .eof => some .eof
  | .semicolon => some (.nothing { σ with tokens := σ.tokens.tail })
  | .kwFuncDef | .kwExtern =>
    (athensParseItem ofInt fuel σ).map fun (item, σ) => checkItem item σ
  | _ => some (.rejected (text "unexpected top-level token\n"))

/-- `ParseFile` on a file that could be opened, with at most the given number of
turns. -/
def parseFile : Nat → ParseState D BinopTable → ModuleState D →
    Option (Except Crash (Bool × ModuleState D))
  | 0, _, _ => none
  | turns + 1, σ, s =>
    (findItem ofInt fuel σ).bind fun
      | .eof => some (.ok (true, s))
      | .nothing σ => parseFile turns σ s
      | .item item σ =>
        match genItem ops item s with
        | .ok s => parseFile turns σ s
        | .error why => some (.error why)
      | .rejected line => some (.ok (false, s.complain line))

/-- `main` behind `ParseFile`. -/
def finishMain : Except Crash (Bool × ModuleState D) → Ending
  | .error why => .crashed why
  | .ok (false, _) => .returned 1
  | .ok (true, s) => if verify s then .returned 0 else .returned 1

/-- Where `ParseFile` starts. -/
def openFile (tokens : List (Token D)) (eofLoc : SourceLoc) : ParseState D BinopTable :=
  { tokens, eofLoc, globals := standardBinaryOperators }

/-- `main` on a file with these tokens. -/
def runMain (turns : Nat) (tokens : List (Token D)) (eofLoc : SourceLoc) : Option Ending :=
  (parseFile ops ofInt fuel turns (openFile tokens eofLoc) {}).map (finishMain verify)

/-! ## The items of a file -/

inductive SourceEnd where
  | eof
  | rejected (line : Text)
  | outOfBounds
  deriving DecidableEq, Repr

/-- The items that the parser finds, and what comes behind them. -/
structure Source (D : Type) where
  items : List (Item D)
  ending : SourceEnd

def Source.cons (item : Item D) (source : Source D) : Source D :=
  { source with items := item :: source.items }

def readSource : Nat → ParseState D BinopTable → Source D
  | 0, _ => ⟨[], .outOfBounds⟩
  | turns + 1, σ =>
    match findItem ofInt fuel σ with
    | none => ⟨[], .outOfBounds⟩
    | some .eof => ⟨[], .eof⟩
    | some (.nothing σ) => readSource turns σ
    | some (.item item σ) => (readSource turns σ).cons item
    | some (.rejected line) => ⟨[], .rejected line⟩

/-- What `ParseFile` returns once all items have been generated. -/
def SourceEnd.result (s : ModuleState D) : SourceEnd → Option (Except Crash (Bool × ModuleState D))
  | .eof => some (.ok (true, s))
  | .rejected line => some (.ok (false, s.complain line))
  | .outOfBounds => none

def SourceEnd.after (ending : SourceEnd) :
    Except Crash (ModuleState D) → Option (Except Crash (Bool × ModuleState D))
  | .error why => some (.error why)
  | .ok s => ending.result s

def Source.run (source : Source D) (s : ModuleState D) :
    Option (Except Crash (Bool × ModuleState D)) :=
  source.ending.after (genItems ops source.items s)

/-- Parsing does not depend on what is generated. -/
theorem parseFile_eq (turns : Nat) (σ : ParseState D BinopTable) (s : ModuleState D) :
    parseFile ops ofInt fuel turns σ s = (readSource ofInt fuel turns σ).run ops s := by
  induction turns generalizing σ s with
  | zero => rfl
  | succ turns ih =>
    rw [parseFile, readSource]
    cases findItem ofInt fuel σ with
    | none => rfl
    | some found =>
      cases found with
      | eof => rfl
      | rejected line => rfl
      | nothing rest => exact ih rest s
      | item item rest =>
        show _ = (readSource ofInt fuel turns rest).ending.after
          (genItem ops item s >>= genItems ops (readSource ofInt fuel turns rest).items)
        cases hgen : genItem ops item s with
        | error why =>
          simp only [Option.bind_some, hgen]
          rfl
        | ok s =>
          simp only [Option.bind_some, hgen]
          exact ih rest s

end

end AroundTheWorld.Berlin
