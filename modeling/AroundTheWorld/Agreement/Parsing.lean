import AroundTheWorld.Athens.Terminates
import AroundTheWorld.Dublin.Terminates

/-!
# Parsing terminates

For both grammars every call returns, consumes a token and makes at most as many
calls as it consumes tokens, and one more at `Eof`. The loops of the drivers follow.
-/

namespace AroundTheWorld.Agreement

open AroundTheWorld.Lex AroundTheWorld.Llvm AroundTheWorld.Parse AroundTheWorld.Athens
open AroundTheWorld.Dublin (dublinEngine dublinParseItem dublinRegistry Assertion)

variable {D : Type}

/-- What is noted at a call of `parseExpression`. -/
def callNote : SourceLoc × String := ({}, "parseExpression")

def athensNoting (ofInt : Int → D) (fuel : Nat) : AthensEngine D :=
  notingEngine (athensRegistry ofInt) .null .null [callNote] fuel

def dublinNoting (fuel : Nat) : Dublin.DublinEngine D :=
  notingEngine dublinRegistry .null .null [callNote] fuel

/-- Every entry of both parsers returns on every stream, under every table and
whatever it reports, within the bounds on tokens and calls; `ParseStream` reaches
`Eof`, returns on an error or ends the process, and the statements of a block are read
up to `Eof`. -/
theorem parsing_terminates (ops : FloatOps D) (jit : List (FunctionIR D) → Bool)
    (ofInt : Int → D) :
    ((∀ m, Terminates [callNote] (fun fuel => (athensEngine ofInt fuel).parseExpression m)
        fun fuel => (athensNoting ofInt fuel).parseExpression m) ∧
      Terminates [callNote] (fun fuel => (athensEngine ofInt fuel).parseStatement)
        (fun fuel => (athensNoting ofInt fuel).parseStatement) ∧
      Terminates [callNote] (athensParseItem ofInt)
        fun fuel => itemWith (athensRegistry ofInt) {} (athensNoting ofInt fuel)) ∧
    ((∀ m, Terminates [callNote] (fun fuel => (dublinEngine (D := D) fuel).parseExpression m)
        fun fuel => (dublinNoting fuel).parseExpression m) ∧
      Terminates [callNote] (fun fuel => (dublinEngine (D := D) fuel).parseStatement)
        (fun fuel => (dublinNoting fuel).parseStatement) ∧
      Terminates [callNote] (dublinParseItem (D := D))
        fun fuel => itemWith dublinRegistry {} (dublinNoting fuel)) ∧
    (∀ input s, StreamEnds ops jit ofInt input s) ∧
    ∀ fuel (σ : ParseState D Unit) (assertions : List Assertion), σ.tokens.length < fuel →
      ∃ r σ', Dublin.DublinGrammarPack.parseAssertions (dublinEngine fuel) fuel assertions σ =
        some (r, σ') ∧ (Parser.current σ').kind = .eof := by
  have hathens := athensRegistry_handlersCount ofInt
  have hdublin := Dublin.dublinRegistry_handlersCount (D := D)
  refine ⟨⟨?_, ?_, ?_⟩, ⟨?_, ?_, ?_⟩, ?_, ?_⟩
  · exact parseExpression_terminates hathens .null .null _
  · exact parseStatement_terminates hathens .null .null _
  · exact parseItem_terminates hathens .null .null {} _
  · exact parseExpression_terminates hdublin .null .null _
  · exact parseStatement_terminates hdublin .null .null _
  · exact parseItem_terminates hdublin .null .null {} _
  · exact parseStream_ends ops jit ofInt
  · intro fuel σ assertions hfuel
    exact Dublin.parseAssertions_reaches_eof hfuel assertions

end AroundTheWorld.Agreement
