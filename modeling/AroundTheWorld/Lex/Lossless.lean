import AroundTheWorld.Lex.Determinism
import AroundTheWorld.Lex.Progress

/-!
# Lexing is lossless

Over a run that reaches `Eof`, the trivia and the tokens cut the buffer into
contiguous non-empty pieces, so printing them in order gives the buffer back.
-/

namespace AroundTheWorld.Lex

open AroundTheWorld.Base CharStream

variable {D : Type} {rules : LexLanguageRules} {strtod : Text → D × Nat}

/-- The pieces of one call: its trivia, then its token unless that is `Eof`. -/
def outputSpans (o : List TriviaPiece × Token D) : List (Span Byte) :=
  o.1.map TriviaPiece.span ++ if o.2.kind = .eof then [] else [o.2.span]

/-- The text of one call: the trivia texts followed by the lexeme. -/
def outputText (o : List TriviaPiece × Token D) : Text :=
  (o.1.map TriviaPiece.text).flatten ++ o.2.lexeme

/-- The output of a run gives the buffer back, piece by piece. -/
structure Lossless (buffer : Text) (out : List (List TriviaPiece × Token D)) : Prop where
  concat : (out.map outputText).flatten = buffer
  pieces : Covers buffer 0 (out.flatMap outputSpans) buffer.length

section
variable {l l' : Lexer} {tok : Token D} {out : List (List TriviaPiece × Token D)}

/-- A run that reaches `Eof` has no NUL byte before it: the cursor would have
stopped there, short of the end of the buffer. -/
theorem Run.no_nul_ahead (hr : LawfulRules rules) (h : Lexer.Run rules strtod l out) :
    ∀ p, (hp : p < l.cs.buffer.length) → l.cs.cursor ≤ p → l.cs.buffer[p] ≠ 0 := by
  induction h with
  | eof hnext he =>
    intro p hp hle h0
    obtain ⟨cs, hm, _, hlast⟩ := next_spec hr hnext
    rcases hlast with ⟨hend, _, _⟩ | ⟨_, htok⟩
    · have hbar := hm.barrier p hp h0 hle
      rw [eof_eq_true_iff, hm.buffer_eq] at hend
      omega
    · exact htok.kind_ne he
  | step hnext _ _ ih =>
    intro p hp hle h0
    have hm := next_moves hr hnext
    have hb := hm.buffer_eq
    exact ih p (by rw [hb]; exact hp) (hm.barrier p hp h0 hle) (by simp only [hb]; exact h0)

/-- One call that is not the last covers the bytes it moved over. -/
theorem next_covers (hr : LawfulRules rules) (hne : tok.kind ≠ .eof)
    (h0 : ∀ p, (hp : p < l.cs.buffer.length) → l.cs.cursor ≤ p → l.cs.buffer[p] ≠ 0)
    (h : l.Next rules strtod tok l') :
    Covers l.cs.buffer l.cs.cursor (outputSpans (l'.trivia, tok)) l'.cs.cursor := by
  obtain ⟨cs, hm, hcov, hlast⟩ := next_spec hr h
  rcases hlast with ⟨_, rfl, _⟩ | ⟨he, htok⟩
  · exact absurd rfl hne
  · have hlt := (eof_eq_false_iff cs).mp he
    have hb := hm.buffer_eq
    have hz : cs.peek ≠ 0 := by
      rw [peek_of_lt cs hlt]
      simp only [hb]
      exact h0 cs.cursor (by rw [← hb]; exact hlt) hm.cursor_le
    have htokcov := htok.covers hz
    rw [hb] at htokcov
    simp only [outputSpans, hne, ↓reduceIte]
    exact hcov.append htokcov

/-- The last call covers what is left of the buffer with its trivia. -/
theorem next_eof_covers (hr : LawfulRules rules) (he : tok.kind = .eof)
    (h : l.Next rules strtod tok l') :
    tok.lexeme = [] ∧
      Covers l.cs.buffer l.cs.cursor (outputSpans (l'.trivia, tok)) l.cs.buffer.length := by
  obtain ⟨cs, hm, hcov, hlast⟩ := next_spec hr h
  rcases hlast with ⟨hend, rfl, _⟩ | ⟨_, htok⟩
  · rw [eof_eq_true_iff, hm.buffer_eq] at hend
    refine ⟨rfl, ?_⟩
    simp only [outputSpans, he, ↓reduceIte, List.append_nil]
    rw [← hend]
    exact hcov
  · exact absurd he htok.kind_ne

/-- The pieces of a run cover the buffer from the cursor on. -/
theorem Run.covers (hr : LawfulRules rules) (h : Lexer.Run rules strtod l out) :
    Covers l.cs.buffer l.cs.cursor (out.flatMap outputSpans) l.cs.buffer.length := by
  induction h with
  | eof hnext he =>
    simpa using (next_eof_covers hr he hnext).2
  | step hnext hne hrest ih =>
    have hrun := Lexer.Run.step hnext hne hrest
    rw [(next_moves hr hnext).buffer_eq] at ih
    rw [List.flatMap_cons]
    exact (next_covers hr hne (Run.no_nul_ahead hr hrun) hnext).append ih

/-- Dropping `Eof` from the pieces loses no text, as its lexeme is empty. -/
theorem Run.text_eq (hr : LawfulRules rules) (h : Lexer.Run rules strtod l out) :
    (out.map outputText).flatten = ((out.flatMap outputSpans).map Span.text).flatten := by
  have hpiece : ∀ ps : List TriviaPiece,
      (ps.map TriviaPiece.span).map Span.text = ps.map TriviaPiece.text := by
    intro ps
    rw [List.map_map]
    rfl
  induction h with
  | eof hnext he =>
    have hlex := (next_eof_covers hr he hnext).1
    simp [outputText, outputSpans, he, hlex, hpiece]
  | step hnext hne _ ih =>
    simp only [List.map_cons, List.flatten_cons, List.flatMap_cons, List.map_append,
      List.flatten_append, ih]
    congr 1
    simp only [outputText, outputSpans, hne, ↓reduceIte, List.map_append, hpiece,
      List.flatten_append]
    simp [Token.span]

end

/-- Whenever repeated `next` reaches `Eof`, the trivia and lexemes it returned
spell the buffer, and they are contiguous non-empty slices of it. -/
theorem lexing_lossless (lang : Language) (strtod : Text → D × Nat) (buffer : Text)
    (out : List (List TriviaPiece × Token D))
    (h : Lexer.Run lang.rules strtod (Lexer.ofBuffer buffer) out) : Lossless buffer out := by
  have hcov : Covers buffer 0 (out.flatMap outputSpans) buffer.length :=
    Run.covers lang.lawful h
  refine ⟨?_, hcov⟩
  rw [Run.text_eq lang.lawful h]
  exact hcov.concat_full

/-- A line with a comment: two tokens before `Eof`, three pieces of trivia. -/
theorem lexing_lossless_line :
    ∃ out : List (List TriviaPiece × Token Unit), out.length = 3 ∧
      Lossless (text "x 10 # ten\n") out := by
  obtain ⟨out, hlen, hout⟩ : ∃ out : List (List TriviaPiece × Token Unit), out.length = 3 ∧
      (Lexer.ofBuffer (text "x 10 # ten\n")).tokenize athensLexRules (fun t => ((), t.length))
        20 5 = some out := ⟨_, by decide +kernel, rfl⟩
  exact ⟨out, hlen, lexing_lossless .athens _ _ _ (tokenize_run hout)⟩

end AroundTheWorld.Lex
