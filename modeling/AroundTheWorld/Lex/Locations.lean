import AroundTheWorld.Lex.Progress

/-!
# Source locations

The stream counts lines and columns as it moves, and each lexing function samples
them before and after. Whatever it moved over, the counters are a function of the
cursor, so every location is one of its offsets.
-/

namespace AroundTheWorld.Lex

open AroundTheWorld.Base CharStream

variable {D : Type}

/-- One more than the newlines before the offset. -/
def lineAt (buffer : Text) (offset : Nat) : Nat :=
  1 + (buffer.take offset).count (byte '\n')

/-- One more than the bytes since the last newline before the offset. -/
def columnAt (buffer : Text) (offset : Nat) : Nat :=
  1 + ((buffer.take offset).reverse.takeWhile (· != byte '\n')).length

structure Located (buffer : Text) (loc : SourceLoc) : Prop where
  startLine : loc.startLine = lineAt buffer loc.startOffset
  startColumn : loc.startColumn = columnAt buffer loc.startOffset
  endLine : loc.endLine = lineAt buffer loc.endOffset
  endColumn : loc.endColumn = columnAt buffer loc.endOffset

/-- The counters of the stream are those of its cursor. -/
structure CharStream.Counts (buffer : Text) (cs : CharStream) : Prop where
  buffer_eq : cs.buffer = buffer
  line : cs.line = lineAt buffer cs.cursor
  col : cs.col = columnAt buffer cs.cursor

section
variable {buffer : Text} {cs cs' : CharStream}

theorem take_succ_cursor (h : cs.cursor < cs.buffer.length) :
    cs.buffer.take (cs.cursor + 1) = cs.buffer.take cs.cursor ++ [cs.buffer[cs.cursor]] :=
  List.take_succ_eq_append_getElem h

/-- One byte: a newline starts the next line, any other byte is one more column. -/
theorem CharStream.Counts.step (h : cs.Counts buffer) (hlt : cs.cursor < cs.buffer.length) :
    (cs.step hlt).Counts buffer := by
  obtain ⟨rfl, hline, hcol⟩ := h
  refine ⟨rfl, ?_, ?_⟩
  · show (if cs.buffer[cs.cursor] = byte '\n' then cs.line + 1 else cs.line) =
      1 + (cs.buffer.take (cs.cursor + 1)).count (byte '\n')
    rw [take_succ_cursor hlt, List.count_append, List.count_singleton, hline, lineAt]
    split <;> simp_all [Nat.add_assoc]
  · show (if cs.buffer[cs.cursor] = byte '\n' then 1 else cs.col + 1) =
      1 + ((cs.buffer.take (cs.cursor + 1)).reverse.takeWhile (· != byte '\n')).length
    rw [take_succ_cursor hlt, List.reverse_append, List.reverse_singleton, List.singleton_append,
      hcol, columnAt]
    by_cases hnewline : cs.buffer[cs.cursor] = byte '\n'
    · rw [if_pos hnewline, List.takeWhile_cons_of_neg (by simp [hnewline])]
      rfl
    · rw [if_neg hnewline, List.takeWhile_cons_of_pos (by simp [hnewline]), List.length_cons]
      omega

theorem CharStream.Counts.advance (h : cs.Counts buffer) (n : Nat) :
    (cs.advance n).Counts buffer := by
  induction n generalizing cs with
  | zero => exact h
  | succ n ih =>
    unfold CharStream.advance
    split
    · rename_i hlt
      exact ih (h.step hlt)
    · exact h

theorem CharStream.Counts.moves (h : cs.Counts buffer) (hm : Moves cs cs') : cs'.Counts buffer := by
  obtain ⟨n, rfl⟩ := hm.scans
  exact h.advance n

theorem CharStream.Counts.locTo (h : cs.Counts buffer) (h' : cs'.Counts buffer) :
    Located buffer (cs.locTo cs') :=
  ⟨h.line, h.col, h'.line, h'.col⟩

theorem CharStream.counts_ofBuffer (buffer : Text) : (ofBuffer buffer).Counts buffer :=
  ⟨rfl, rfl, rfl⟩

end

section
variable {rules : LexLanguageRules} {strtod : Text → D × Nat} {fuel : Nat}
  {cs cs' : CharStream} {tok : Token D} {buffer : Text} {trivia : List TriviaPiece}

/-! ## Each token is cut out between two states of the stream -/

theorem lexIdentifierOrKeyword_loc (h : lexIdentifierOrKeyword rules fuel cs = some (tok, cs')) :
    ∃ n, tok.sourceLoc = cs.locTo (cs.advance n) := by
  obtain ⟨cs₁, hw, heq⟩ := Option.map_eq_some_iff.mp h
  obtain ⟨n, rfl⟩ := (consumeWhile_moves hw).scans
  refine ⟨n, ?_⟩
  simp only at heq
  split at heq <;> rw [← (Prod.mk.inj heq).1] <;> rfl

/-- The end of a number is sampled before the last loop. -/
theorem classifyNumber_loc {s : NumberState} {cs₁ : CharStream}
    (h : classifyNumber strtod fuel cs s cs₁ = some (tok, cs')) :
    tok.sourceLoc = cs.locTo cs₁ := by
  simp only [classifyNumber] at h
  split at h
  · rw [← (Prod.mk.inj (Option.some.inj h)).1]
    rfl
  · split at h
    · split at h <;> rw [← (Prod.mk.inj (Option.some.inj h)).1] <;> rfl
    · obtain ⟨cs₂, -, h⟩ := Option.map_eq_some_iff.mp h
      split at h
      · split at h <;> rw [← (Prod.mk.inj h).1] <;> rfl
      · rw [← (Prod.mk.inj h).1]
        rfl

theorem lexNumber_loc (h : lexNumber strtod fuel cs = some (tok, cs')) :
    ∃ n, tok.sourceLoc = cs.locTo (cs.advance n) := by
  obtain ⟨s, hscan, h⟩ := Option.bind_eq_some_iff.mp h
  obtain ⟨cs₁, hskip, h⟩ := Option.bind_eq_some_iff.mp h
  have hm : Moves s.cs cs₁ := by
    unfold skipInvalid at hskip
    split at hskip
    · exact consumeWhile_moves hskip
    · rw [Option.some.inj hskip]
      exact .refl cs₁
  obtain ⟨n, rfl⟩ := ((scanNumber_spec hscan).1.trans hm).scans
  exact ⟨n, classifyNumber_loc h⟩

theorem lexPunctOrInvalid_loc
    (h : (lexPunctOrInvalid rules cs : Token D × CharStream) = (tok, cs')) :
    ∃ n, tok.sourceLoc = cs.locTo (cs.advance n) := by
  simp only [lexPunctOrInvalid, consumeOne_snd] at h
  split at h
  · exact ⟨2, by rw [← (Prod.mk.inj h).1]; rfl⟩
  · split at h
    · exact ⟨_, by rw [← (Prod.mk.inj h).1]; rfl⟩
    · split at h <;> exact ⟨_, by rw [← (Prod.mk.inj h).1]; rfl⟩

theorem lexToken_loc (h : lexToken rules strtod fuel cs = some (tok, cs')) :
    ∃ n, tok.sourceLoc = cs.locTo (cs.advance n) := by
  unfold lexToken at h
  split at h
  · exact ⟨0, by rw [← (Prod.mk.inj (Option.some.inj h)).1]; rfl⟩
  · split at h
    · exact lexIdentifierOrKeyword_loc h
    · split at h
      · exact lexNumber_loc h
      · exact lexPunctOrInvalid_loc (Option.some.inj h)

/-! ## The lexer -/

/-- The pieces of trivia, of which one may span many lines. -/
theorem consumeTrivia_located (hr : LawfulRules rules) (h : cs.Counts buffer)
    (hrun : consumeTrivia rules fuel cs = some (cs', trivia)) :
    cs'.Counts buffer ∧ ∀ piece ∈ trivia, Located buffer piece.sourceLoc := by
  simp only [consumeTrivia, Option.map_eq_some_iff, Prod.mk.injEq] at hrun
  obtain ⟨s, hs, rfl, rfl⟩ := hrun
  refine (whileLoop_invariant (fun s : TriviaState => s.cs.Counts buffer ∧
    ∀ piece ∈ s.trivia, Located buffer piece.sourceLoc) ?_ hs ⟨h, by simp⟩).1
  intro s t hinv _ hstep
  obtain ⟨hcounts, hpieces⟩ := hinv
  rcases consumeTriviaStep_cases hr hstep with ⟨kind, hm, -, htrivia⟩ | rfl
  · have hcounts' := hcounts.moves hm
    refine ⟨hcounts', fun piece hpiece => ?_⟩
    rw [htrivia] at hpiece
    rcases List.mem_append.mp hpiece with hold | hnew
    · exact hpieces piece hold
    · rw [List.mem_singleton.mp hnew]
      exact hcounts.locTo hcounts'
  · exact ⟨hcounts, hpieces⟩

variable {l l' : Lexer}

theorem Next.located (hr : LawfulRules rules) (hl : l.cs.Counts buffer)
    (h : l.Next rules strtod tok l') :
    l'.cs.Counts buffer ∧ Located buffer tok.sourceLoc ∧
      ∀ piece ∈ l'.trivia, Located buffer piece.sourceLoc := by
  have hend := hl.moves (next_moves hr h)
  obtain ⟨fuel, h⟩ := h
  obtain ⟨⟨cs, trivia⟩, htrivia, h⟩ := Option.bind_eq_some_iff.mp h
  obtain ⟨⟨tok', cs'⟩, htok, heq⟩ := Option.map_eq_some_iff.mp h
  obtain ⟨rfl, rfl⟩ := Prod.mk.inj heq
  obtain ⟨hcounts, hpieces⟩ := consumeTrivia_located hr hl htrivia
  obtain ⟨n, hloc⟩ := lexToken_loc htok
  refine ⟨hend, ?_, hpieces⟩
  rw [hloc]
  exact hcounts.locTo (hcounts.advance n)

theorem Reached.counts (hr : LawfulRules rules) (h : Lexer.Reached rules strtod buffer l) :
    l.cs.Counts buffer := by
  induction h with
  | start => exact counts_ofBuffer buffer
  | next _ hnext ih => exact (Next.located hr ih hnext).1

end

/-- The location of every token and of every piece of trivia is a function of its
offsets, in each call of `next` from each state that a run reaches. -/
theorem locations_of_offsets (lang : Language) (strtod : Text → D × Nat) (buffer : Text)
    (l l' : Lexer) (tok : Token D) (hl : Lexer.Reached lang.rules strtod buffer l)
    (h : l.Next lang.rules strtod tok l') :
    Located buffer tok.sourceLoc ∧ ∀ piece ∈ l'.trivia, Located buffer piece.sourceLoc :=
  (Next.located lang.lawful (Reached.counts lang.lawful hl) h).2

/-- The name behind a comment and its newline stands on the second line. -/
theorem locations_of_offsets_line : ∃ tok : Token Unit,
    Located (text "# c\n y") tok.sourceLoc ∧
      (tok.sourceLoc.startLine, tok.sourceLoc.startColumn) = (2, 2) := by
  obtain ⟨⟨tok, l'⟩, hnext, hplace⟩ : ∃ r : Token Unit × Lexer,
      (Lexer.ofBuffer (text "# c\n y")).next athensLexRules (fun t => ((), t.length)) 20 = some r ∧
        (r.1.sourceLoc.startLine, r.1.sourceLoc.startColumn) = (2, 2) := ⟨_, rfl, by decide +kernel⟩
  exact ⟨tok, (locations_of_offsets .athens _ _ _ l' tok .start ⟨20, hnext⟩).1, hplace⟩

end AroundTheWorld.Lex
