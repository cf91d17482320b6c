import AroundTheWorld.Lex.Scan

/-!
# Progress and termination of the lexer

`next` and the lexing functions below it are documented to consume at least one
character unless they are at the end of the buffer. Each function gets one
specification of what it returns; the law about whole runs follows from them.
-/

namespace AroundTheWorld.Lex

open AroundTheWorld.Base CharStream

variable {D : Type} {rules : LexLanguageRules} {strtod : Text → D × Nat}

section
variable {fuel : Nat} {s t : TriviaState}

/-- One iteration of `consumeTrivia` records the piece it moved over, or stops. -/
theorem consumeTriviaStep_cases (hr : LawfulRules rules)
    (h : consumeTriviaStep rules fuel s = some t) :
    (∃ kind, Moves s.cs t.cs ∧ s.cs.cursor < t.cs.cursor ∧
      t.trivia = s.trivia ++ [triviaPiece kind s.cs t.cs]) ∨
    t = { s with consumedAny := false } := by
  unfold consumeTriviaStep at h
  split at h
  · rename_i hc
    obtain rfl := Option.some.inj h
    have h0 : s.cs.peek ≠ 0 := by rw [hc]; decide
    exact .inl ⟨.newline, .consumeOne s.cs, consumeOne_lt h0, rfl⟩
  · rename_i hc
    split at h
    · rename_i hs
      obtain ⟨cs', hw, rfl⟩ := Option.map_eq_some_iff.mp h
      have h0 : s.cs.peek ≠ 0 := by
        intro hz
        rw [hz] at hs
        exact absurd hs (by decide)
      have hlt := consumeWhile_lt hw (by simp [hc, hs]) h0
      exact .inl ⟨.whitespace, consumeWhile_moves hw, hlt, rfl⟩
    · obtain ⟨r, hcomment, rfl⟩ := Option.map_eq_some_iff.mp h
      cases r with
      | none => exact .inr rfl
      | some found =>
        obtain ⟨piece, cs'⟩ := found
        obtain ⟨hm, hlt, rfl⟩ := consumeCommentMaybe_moves hr.comments_nul hcomment
        exact .inl ⟨.comment, hm, hlt, rfl⟩

theorem consumeTriviaStep_total (hr : LawfulRules rules) (h0 : (0 : Byte) ∉ s.cs.buffer)
    (hf : s.cs.remaining + 1 < fuel) : ∃ t, consumeTriviaStep rules fuel s = some t := by
  unfold consumeTriviaStep
  split
  · exact ⟨_, rfl⟩
  · split
    · have htotal : ∃ cs', consumeWhile (fun wc => !(wc == byte '\n' || !isspace wc)) fuel s.cs =
          some cs' := consumeWhile_total h0 (by omega)
      obtain ⟨cs', hw⟩ := htotal
      exact ⟨_, by rw [hw]; rfl⟩
    · obtain ⟨r, hcomment⟩ := consumeCommentMaybe_total h0 hf hr.comments_nul
      exact ⟨_, by rw [hcomment]; rfl⟩

end

section
variable {fuel : Nat} {cs cs' : CharStream} {trivia : List TriviaPiece}

/-- The trivia cover exactly what `consumeTrivia` moved over. -/
theorem consumeTrivia_spec (hr : LawfulRules rules)
    (h : consumeTrivia rules fuel cs = some (cs', trivia)) :
    Moves cs cs' ∧ Covers cs.buffer cs.cursor (trivia.map TriviaPiece.span) cs'.cursor := by
  simp only [consumeTrivia, Option.map_eq_some_iff, Prod.mk.injEq] at h
  obtain ⟨s, hs, rfl, rfl⟩ := h
  refine (whileLoop_invariant (fun s : TriviaState => Moves cs s.cs ∧
    Covers cs.buffer cs.cursor (s.trivia.map TriviaPiece.span) s.cs.cursor) ?_ hs ?_).1
  · intro s t hinv _ hstep
    obtain ⟨hm, hcov⟩ := hinv
    rcases consumeTriviaStep_cases hr hstep with ⟨kind, hm', hlt, htrivia⟩ | rfl
    · refine ⟨hm.trans hm', ?_⟩
      rw [htrivia, List.map_append]
      have hpiece := triviaPiece_covers kind hm' hlt
      rw [hm.buffer_eq] at hpiece
      exact hcov.append hpiece
    · exact ⟨hm, hcov⟩
  · exact ⟨.refl cs, .nil _⟩

theorem consumeTrivia_total (hr : LawfulRules rules) (h0 : (0 : Byte) ∉ cs.buffer)
    (hf : cs.remaining + 1 < fuel) : ∃ r, consumeTrivia rules fuel cs = some r := by
  -- an iteration that finds nothing costs the one unit that the flag is worth
  have hloop : ∃ t, whileLoop (fun s : TriviaState => !s.cs.eof && s.consumedAny)
      (consumeTriviaStep rules fuel) fuel ⟨cs, [], true⟩ = some t := by
    refine whileLoop_total (fun s => Moves cs s.cs)
      (fun s => s.cs.remaining + if s.consumedAny then 1 else 0) ?_ (.refl cs) (by simpa using hf)
    intro s hs hc
    simp only [Bool.and_eq_true, Bool.not_eq_true'] at hc
    have hrem := hs.remaining_le
    obtain ⟨t, ht⟩ : ∃ t, consumeTriviaStep rules fuel s = some t :=
      consumeTriviaStep_total hr (by rw [hs.buffer_eq]; exact h0) (by omega)
    refine ⟨t, ht, ?_⟩
    rcases consumeTriviaStep_cases hr ht with ⟨_, hm, hlt, _⟩ | rfl
    · refine ⟨hs.trans hm, ?_⟩
      have hdec := hm.remaining_lt hlt
      simp only [hc.2, ↓reduceIte]
      split <;> omega
    · exact ⟨hs, by simp [hc.2]⟩
  obtain ⟨t, ht⟩ := hloop
  exact ⟨_, by rw [consumeTrivia, ht]; rfl⟩

/-- A loop whose condition fails at once leaves the stream where it is. -/
theorem consumeWhile_stays {pred : Byte → Bool} (h : consumeWhile pred fuel cs = some cs')
    (hstop : cs.eof = true ∨ pred cs.peek = false) : cs' = cs := by
  cases fuel with
  | zero => simp [consumeWhile, whileLoop] at h
  | succ n =>
    have hc : (!cs.eof && pred cs.peek) = false := by
      rcases hstop with he | hp
      · simp [he]
      · simp [hp]
    simpa [consumeWhile, whileLoop, hc, eq_comm] using h

end

/-- What every lexing function below `next` returns: a token other than `Eof`
whose lexeme and offsets are those of the bytes it moved over. -/
structure LexesToken (cs : CharStream) (tok : Token D) (cs' : CharStream) : Prop where
  moves : Moves cs cs'
  kind_ne : tok.kind ≠ .eof
  covers : cs.peek ≠ 0 → Covers cs.buffer cs.cursor [tok.span] cs'.cursor

section
variable {fuel : Nat} {cs cs' : CharStream} {tok : Token D}

/-- A token cut out by `view` between the two ends of a move. -/
theorem tokenAt_lexes {kind : TokenKind} {literal : LiteralValue D} (hk : kind ≠ .eof)
    (hm : Moves cs cs') (hlt : cs.peek ≠ 0 → cs.cursor < cs'.cursor) :
    LexesToken cs (tokenAt kind (cs'.view cs.cursor cs'.cursor) literal cs cs') cs' := by
  refine ⟨hm, hk, fun h0 => ?_⟩
  exact Covers.single (s := (tokenAt kind (cs'.view cs.cursor cs'.cursor) literal cs cs').span)
    (hlt h0) hm.view_eq

theorem lexIdentifierOrKeyword_spec (hr : LawfulRules rules)
    (hs : rules.isIdentStart cs.peek = true)
    (h : lexIdentifierOrKeyword rules fuel cs = some (tok, cs')) : LexesToken cs tok cs' := by
  obtain ⟨cs₁, hw, heq⟩ := Option.map_eq_some_iff.mp h
  have hm := consumeWhile_moves hw
  have hlt := consumeWhile_lt hw (hr.start_continue _ hs)
  cases hkw : rules.keyword (cs₁.view cs.cursor cs₁.cursor) with
  | none =>
    simp only [hkw, Prod.mk.injEq] at heq
    obtain ⟨rfl, rfl⟩ := heq
    exact tokenAt_lexes (by decide) hm hlt
  | some kind =>
    simp only [hkw, Prod.mk.injEq] at heq
    obtain ⟨rfl, rfl⟩ := heq
    refine tokenAt_lexes ?_ hm hlt
    rintro rfl
    exact hr.keyword_ne_eof _ hkw

/-- The first loop of `lexNumber` moves, and stops where no digit or dot stands. -/
theorem scanNumber_spec {s : NumberState} (h : scanNumber fuel cs = some s) :
    Moves cs s.cs ∧ (s.cs.eof = true ∨ (isdigit s.cs.peek || s.cs.peek == byte '.') = false) := by
  have hinv := whileLoop_invariant (fun s : NumberState => Moves cs s.cs)
    (fun s t hm _ ht => ?_) h (.refl cs)
  · refine ⟨hinv.1, ?_⟩
    have hc := hinv.2
    simp only [Bool.and_eq_false_iff, Bool.not_eq_false'] at hc
    exact hc
  · split at ht <;> obtain rfl := Option.some.inj ht <;> exact hm.trans (.consumeOne s.cs)

/-- A number starts with a digit or a dot, so the first loop consumes something. -/
theorem scanNumber_lt {s : NumberState} (h : scanNumber fuel cs = some s)
    (hd : (isdigit cs.peek || cs.peek == byte '.') = true) (h0 : cs.peek ≠ 0) :
    cs.cursor < s.cs.cursor := by
  have hlt := peek_ne_zero_lt cs h0
  obtain ⟨hm, hstop⟩ := scanNumber_spec h
  rcases Nat.lt_or_ge cs.cursor s.cs.cursor with hc | hge
  · exact hc
  · -- not having moved, the loop would have to stop at a byte it accepts
    obtain ⟨n, hn⟩ := hm.scans
    have hcur : s.cs.cursor = cs.cursor := Nat.le_antisymm hge hm.cursor_le
    have hsame : s.cs.peek = cs.peek := by
      have hb := hm.buffer_eq
      simp only [peek, hb, hcur]
    rcases hstop with he | hf
    · rw [eof_eq_true_iff, hm.buffer_eq, hcur] at he
      omega
    · rw [hsame, hd] at hf
      cases hf

theorem classifyNumber_spec {s : NumberState} (hm : Moves cs s.cs)
    (hlt : cs.peek ≠ 0 → cs.cursor < s.cs.cursor)
    (hstop : s.cs.eof = true ∨ isdigit s.cs.peek = false)
    (h : classifyNumber strtod fuel cs s s.cs = some (tok, cs')) : LexesToken cs tok cs' := by
  simp only [classifyNumber] at h
  split at h
  · simp only [Option.some.injEq, Prod.mk.injEq] at h
    obtain ⟨rfl, rfl⟩ := h
    exact tokenAt_lexes (by decide) hm hlt
  · split at h
    · split at h <;> simp only [Option.some.injEq, Prod.mk.injEq] at h <;>
        obtain ⟨rfl, rfl⟩ := h <;> exact tokenAt_lexes (by decide) hm hlt
    · obtain ⟨cs₂, hdigits, h⟩ := Option.map_eq_some_iff.mp h
      obtain rfl := consumeWhile_stays hdigits hstop
      split at h
      · split at h <;> simp only [Prod.mk.injEq] at h <;>
          obtain ⟨rfl, rfl⟩ := h <;> exact tokenAt_lexes (by decide) hm hlt
      · simp only [Prod.mk.injEq] at h
        obtain ⟨rfl, rfl⟩ := h
        exact tokenAt_lexes (by decide) hm hlt

theorem lexNumber_spec (hd : (isdigit cs.peek || cs.peek == byte '.') = true)
    (h : lexNumber strtod fuel cs = some (tok, cs')) : LexesToken cs tok cs' := by
  obtain ⟨s, hscan, h⟩ := Option.bind_eq_some_iff.mp h
  obtain ⟨cs₁, hskip, h⟩ := Option.bind_eq_some_iff.mp h
  obtain ⟨hm, hstop⟩ := scanNumber_spec hscan
  -- the loop that skips the rest of a malformed number has nothing left to skip
  have hsame : cs₁ = s.cs := by
    unfold skipInvalid at hskip
    split at hskip
    · exact consumeWhile_stays hskip hstop
    · exact (Option.some.inj hskip).symm
  subst hsame
  exact classifyNumber_spec hm (scanNumber_lt hscan hd)
    (hstop.imp_right fun hf => (Bool.or_eq_false_iff.mp hf).1) h

theorem lexNumber_total (h0 : (0 : Byte) ∉ cs.buffer) (hf : cs.remaining < fuel) :
    ∃ r, lexNumber strtod fuel cs = some r := by
  have hscan : ∃ s, scanNumber fuel cs = some s := by
    refine whileLoop_total (fun s : NumberState => Moves cs s.cs) (fun s => s.cs.remaining)
      ?_ (.refl cs) hf
    intro s hs hc
    simp only [Bool.and_eq_true, Bool.not_eq_true', eof_eq_false_iff] at hc
    have hz : s.cs.peek ≠ 0 := peek_ne_zero s.cs (by rw [hs.buffer_eq]; exact h0) hc.1
    have hm := Moves.consumeOne s.cs
    have hdec := hm.remaining_lt (consumeOne_lt hz)
    split
    · exact ⟨_, rfl, hs.trans hm, hdec⟩
    · exact ⟨_, rfl, hs.trans hm, hdec⟩
  obtain ⟨s, hs⟩ := hscan
  obtain ⟨hm, _⟩ := scanNumber_spec hs
  have hbuf : (0 : Byte) ∉ s.cs.buffer := by rw [hm.buffer_eq]; exact h0
  have hrem := hm.remaining_le
  obtain ⟨cs₁, hskip, hm₁⟩ : ∃ cs₁, skipInvalid fuel s = some cs₁ ∧ Moves s.cs cs₁ := by
    unfold skipInvalid
    split
    · obtain ⟨cs₁, hw⟩ : ∃ cs₁, consumeWhile (fun c => isdigit c || c == byte '.') fuel s.cs =
          some cs₁ := consumeWhile_total hbuf (by omega)
      exact ⟨cs₁, hw, consumeWhile_moves hw⟩
    · exact ⟨_, rfl, .refl _⟩
  have hrem₁ := hm₁.remaining_le
  obtain ⟨cs₂, hdigits⟩ : ∃ cs₂, consumeWhile isdigit fuel cs₁ = some cs₂ :=
    consumeWhile_total (by rw [hm₁.buffer_eq]; exact hbuf) (by omega)
  rw [lexNumber, hs, Option.bind_some, hskip, Option.bind_some]
  simp only [classifyNumber, hdigits, Option.map_some]
  split
  · exact ⟨_, rfl⟩
  · split
    · split <;> exact ⟨_, rfl⟩
    · exact ⟨_, rfl⟩

/-- A token whose lexeme is the view of the next `n` bytes, which are consumed
unless the first of them is NUL. -/
theorem tokenAt_view_lexes {kind : TokenKind} {literal : LiteralValue D} {n : Nat}
    (hk : kind ≠ .eof) (hn : 0 < n) (hm : Moves cs cs')
    (hcur : cs.peek ≠ 0 → cs'.cursor = cs.cursor + n) :
    LexesToken cs (tokenAt kind (cs.view cs.cursor (cs.cursor + n)) literal cs cs') cs' := by
  refine ⟨hm, hk, fun h0 => ?_⟩
  have hc := hcur h0
  have hview : cs.view cs.cursor (cs.cursor + n) = slice cs.buffer cs.cursor cs'.cursor := by
    rw [← hm.view_eq, hc]
    simp only [CharStream.view, hm.buffer_eq]
  refine Covers.single
    (s := (tokenAt kind (cs.view cs.cursor (cs.cursor + n)) literal cs cs').span) ?_ hview
  change cs.cursor < cs'.cursor
  omega

theorem lexPunctOrInvalid_spec (hr : LawfulRules rules) (he : cs.eof = false)
    (h : (lexPunctOrInvalid rules cs : Token D × CharStream) = (tok, cs')) :
    LexesToken cs tok cs' := by
  have hlt := (eof_eq_false_iff cs).mp he
  simp only [lexPunctOrInvalid] at h
  split at h
  · rename_i kind htwo
    obtain ⟨rfl, rfl⟩ := Prod.mk.inj h
    unfold twoCharPunct at htwo
    split at htwo
    · rename_i hsize
      simp only [CharStream.size] at hsize
      have hlen : (cs.view cs.cursor (cs.cursor + 2)).length = 2 := by
        rw [view_eq_slice cs (by omega) (by omega), slice_length _ (by omega)]
        omega
      have hm : Moves cs (cs.advance (cs.view cs.cursor (cs.cursor + 2)).length) :=
        .advance_view (by rw [hlen]; omega) (by rw [hlen]) (hr.punctuator_nul _ _ htwo)
      rw [hlen] at hm
      refine tokenAt_view_lexes ?_ (by decide) hm fun _ => ?_
      · rintro rfl
        exact hr.punctuator_ne_eof _ htwo
      · rw [cursor_advance]
        omega
    · cases htwo
  · have hm := Moves.consumeOne cs
    have hcur : cs.peek ≠ 0 → cs.consumeOne.2.cursor = cs.cursor + 1 := fun h0 => by
      rw [consumeOne_of_ne cs h0, cursor_advance_one cs hlt]
    split at h
    · rename_i kind hone
      obtain ⟨rfl, rfl⟩ := Prod.mk.inj h
      refine tokenAt_view_lexes ?_ (by decide) hm hcur
      rintro rfl
      exact hr.punctuator_ne_eof _ hone
    · split at h <;> obtain ⟨rfl, rfl⟩ := Prod.mk.inj h <;>
        exact tokenAt_view_lexes (by decide) (by decide) hm hcur

/-- `lexToken` either stands at the end of the buffer or lexes a token. -/
theorem lexToken_spec (hr : LawfulRules rules)
    (h : lexToken rules strtod fuel cs = some (tok, cs')) :
    (cs.eof = true ∧ tok = tokenAt .eof [] .none cs cs ∧ cs' = cs) ∨
    (cs.eof = false ∧ LexesToken cs tok cs') := by
  unfold lexToken at h
  split at h
  · rename_i he
    simp only [Option.some.injEq, Prod.mk.injEq] at h
    exact .inl ⟨he, h.1.symm, h.2.symm⟩
  · rename_i he
    refine .inr ⟨by simpa using he, ?_⟩
    split at h
    · rename_i hs
      exact lexIdentifierOrKeyword_spec hr hs h
    · split at h
      · rename_i hd
        refine lexNumber_spec ?_ h
        simp only [Bool.or_eq_true, Bool.and_eq_true] at hd ⊢
        exact hd.imp_right And.left
      · exact lexPunctOrInvalid_spec hr (by simpa using he) (Option.some.inj h)

theorem lexToken_total (h0 : (0 : Byte) ∉ cs.buffer) (hf : cs.remaining < fuel) :
    ∃ r, lexToken rules strtod fuel cs = some r := by
  unfold lexToken
  split
  · exact ⟨_, rfl⟩
  · split
    · obtain ⟨cs', hw⟩ : ∃ cs', consumeWhile rules.isIdentContinue fuel cs = some cs' :=
        consumeWhile_total h0 hf
      exact ⟨_, by rw [lexIdentifierOrKeyword, hw]; rfl⟩
    · split
      · exact lexNumber_total h0 hf
      · exact ⟨_, rfl⟩

end

section
variable {l l' : Lexer} {tok : Token D}

/-- What one call of `next` does: its trivia cover the bytes up to some point,
and from there it either stands at the end or lexes a token. -/
theorem next_spec (hr : LawfulRules rules) (h : l.Next rules strtod tok l') :
    ∃ cs, Moves l.cs cs ∧
      Covers l.cs.buffer l.cs.cursor (l'.trivia.map TriviaPiece.span) cs.cursor ∧
      ((cs.eof = true ∧ tok = tokenAt .eof [] .none cs cs ∧ l'.cs = cs) ∨
        (cs.eof = false ∧ LexesToken cs tok l'.cs)) := by
  obtain ⟨fuel, h⟩ := h
  obtain ⟨⟨cs, trivia⟩, htrivia, h⟩ := Option.bind_eq_some_iff.mp h
  obtain ⟨⟨tok', cs'⟩, htok, heq⟩ := Option.map_eq_some_iff.mp h
  obtain ⟨rfl, rfl⟩ := Prod.mk.inj heq
  obtain ⟨hm, hcov⟩ := consumeTrivia_spec hr htrivia
  exact ⟨cs, hm, hcov, lexToken_spec hr htok⟩

theorem next_moves (hr : LawfulRules rules) (h : l.Next rules strtod tok l') :
    Moves l.cs l'.cs := by
  obtain ⟨cs, hm, _, hlast⟩ := next_spec hr h
  rcases hlast with ⟨_, _, rfl⟩ | ⟨_, htok⟩
  · exact hm
  · exact hm.trans htok.moves

theorem next_total (hr : LawfulRules rules) (h0 : (0 : Byte) ∉ l.cs.buffer) :
    ∃ (tok : Token D) (l' : Lexer), l.Next rules strtod tok l' := by
  obtain ⟨⟨cs, trivia⟩, htrivia⟩ : ∃ r, consumeTrivia rules (l.cs.remaining + 2) l.cs = some r :=
    consumeTrivia_total hr h0 (by omega)
  obtain ⟨hm, _⟩ := consumeTrivia_spec hr htrivia
  have hrem := hm.remaining_le
  obtain ⟨⟨tok, cs'⟩, htok⟩ : ∃ r, lexToken rules strtod (l.cs.remaining + 2) cs = some r :=
    lexToken_total (by rw [hm.buffer_eq]; exact h0) (by omega)
  exact ⟨tok, ⟨cs', trivia⟩, l.cs.remaining + 2, by simp [Lexer.next, htrivia, htok]⟩

/-- Without NUL bytes, a call of `next` ends at the end of the buffer with an
`Eof` token or moves the cursor forward. -/
theorem next_progress (hr : LawfulRules rules) (h0 : (0 : Byte) ∉ l.cs.buffer)
    (h : l.Next rules strtod tok l') :
    (tok.kind = .eof ∧ l'.cs.cursor = l.cs.buffer.length) ∨
      (tok.kind ≠ .eof ∧ l.cs.cursor < l'.cs.cursor) := by
  obtain ⟨cs, hm, _, hlast⟩ := next_spec hr h
  rcases hlast with ⟨he, rfl, hcs⟩ | ⟨he, htok⟩
  · rw [eof_eq_true_iff, hm.buffer_eq] at he
    exact .inl ⟨rfl, by rw [hcs, he]⟩
  · have hlt := (eof_eq_false_iff cs).mp he
    have hz : cs.peek ≠ 0 := peek_ne_zero cs (by rw [hm.buffer_eq]; exact h0) hlt
    exact .inr ⟨htok.kind_ne, Nat.lt_of_le_of_lt hm.cursor_le (htok.covers hz).lt⟩

end

/-- The law of `next` over a source buffer: every state reached has a call that
returns, and it returns `Eof` at the end of the buffer or advances the cursor. -/
def Progresses (rules : LexLanguageRules) (strtod : Text → D × Nat) (buffer : Text) : Prop :=
  ∀ l, Lexer.Reached rules strtod buffer l → ∃ tok l', l.Next rules strtod tok l' ∧
    ((tok.kind = .eof ∧ l'.cs.cursor = buffer.length) ∨ l.cs.cursor < l'.cs.cursor)

section
variable {buffer : Text} {l : Lexer}

theorem Reached.buffer_eq (hr : LawfulRules rules) (h : Lexer.Reached rules strtod buffer l) :
    l.cs.buffer = buffer := by
  induction h with
  | start => rfl
  | next _ hnext ih => rw [(next_moves hr hnext).buffer_eq, ih]

/-- The cursor never gets past a NUL byte. -/
theorem Reached.cursor_le_nul (hr : LawfulRules rules) {p : Nat} (hp : p < buffer.length)
    (h0 : buffer[p] = 0) (h : Lexer.Reached rules strtod buffer l) : l.cs.cursor ≤ p := by
  induction h with
  | start => exact Nat.zero_le p
  | next hl hnext ih =>
    have hb := Reached.buffer_eq hr hl
    exact (next_moves hr hnext).barrier p (by rw [hb]; exact hp) (by simp only [hb]; exact h0) ih

theorem progresses_of_no_nul (hr : LawfulRules rules) (h0 : (0 : Byte) ∉ buffer) :
    Progresses rules strtod buffer := by
  intro l hl
  have hb := Reached.buffer_eq hr hl
  obtain ⟨tok, l', hnext⟩ : ∃ (tok : Token D) (l' : Lexer), l.Next rules strtod tok l' :=
    next_total hr (by rw [hb]; exact h0)
  refine ⟨tok, l', hnext, ?_⟩
  rcases next_progress hr (by rw [hb]; exact h0) hnext with ⟨he, hc⟩ | ⟨_, hc⟩
  · exact .inl ⟨he, by rw [hc, hb]⟩
  · exact .inr hc

/-- Were every call to progress, the cursor would get past any NUL byte. -/
theorem not_progresses_of_nul (hr : LawfulRules rules) (h0 : (0 : Byte) ∈ buffer) :
    ¬ Progresses rules strtod buffer := by
  intro hprog
  obtain ⟨p, hp, hz⟩ := List.getElem_of_mem h0
  have hgoes : ∀ k, ∃ l, Lexer.Reached rules strtod buffer l ∧
      (k ≤ l.cs.cursor ∨ l.cs.cursor = buffer.length) := by
    intro k
    induction k with
    | zero => exact ⟨_, .start, .inl (Nat.zero_le _)⟩
    | succ k ih =>
      obtain ⟨l, hl, hk⟩ := ih
      obtain ⟨tok, l', hnext, hadv⟩ := hprog l hl
      refine ⟨l', hl.next hnext, ?_⟩
      have hin := l'.cs.inBounds
      have hin' := (next_moves hr hnext).cursor_le
      rw [Reached.buffer_eq hr (hl.next hnext)] at hin
      rcases hadv with ⟨_, hc⟩ | hc
      · exact .inr hc
      · rcases hk with hk | hk
        · exact .inl (by omega)
        · exact .inr (by omega)
  obtain ⟨l, hl, hk⟩ := hgoes (p + 1)
  have hle := Reached.cursor_le_nul hr hp hz hl
  omega

/-- From any state without NUL bytes ahead, a run reaches `Eof` in at most one
call more than there are bytes left. -/
theorem run_within (hr : LawfulRules rules) : ∀ (n : Nat) (l : Lexer), (0 : Byte) ∉ l.cs.buffer →
    l.cs.remaining ≤ n → ∃ out, Lexer.Run rules strtod l out ∧ out.length ≤ n + 1 := by
  intro n
  induction n with
  | zero =>
    intro l h0 hn
    obtain ⟨tok, l', hnext⟩ : ∃ (tok : Token D) (l' : Lexer), l.Next rules strtod tok l' :=
      next_total hr h0
    rcases next_progress hr h0 hnext with ⟨he, _⟩ | ⟨_, hc⟩
    · exact ⟨_, .eof hnext he, by simp⟩
    · have hdec := (next_moves hr hnext).remaining_lt hc
      omega
  | succ n ih =>
    intro l h0 hn
    obtain ⟨tok, l', hnext⟩ : ∃ (tok : Token D) (l' : Lexer), l.Next rules strtod tok l' :=
      next_total hr h0
    have hm := next_moves hr hnext
    rcases next_progress hr h0 hnext with ⟨he, _⟩ | ⟨hne, hc⟩
    · exact ⟨_, .eof hnext he, by simp⟩
    · have hdec := hm.remaining_lt hc
      obtain ⟨out, hrun, hlen⟩ := ih l' (by rw [hm.buffer_eq]; exact h0) (by omega)
      exact ⟨_, .step hnext hne hrun, by simpa using hlen⟩

end

/-- The progress law, and the bound on the calls of a whole run that it gives. -/
structure LexerLaw (rules : LexLanguageRules) (strtod : Text → D × Nat) (buffer : Text) : Prop where
  progresses : Progresses rules strtod buffer
  reachesEof : ∃ out, Lexer.Run rules strtod (Lexer.ofBuffer buffer) out ∧
    out.length ≤ buffer.length + 1

/-- The documented progress law of `next` holds on a buffer exactly when the
buffer has no NUL byte: the stream reports NUL as the end of the buffer, so
`consumeOne` does not step over it, while `eof` goes by the cursor. -/
theorem lexerLaw_iff_no_nul (lang : Language) (strtod : Text → D × Nat) (buffer : Text) :
    LexerLaw lang.rules strtod buffer ↔ (0 : Byte) ∉ buffer := by
  constructor
  · intro hlaw h0
    exact not_progresses_of_nul lang.lawful h0 hlaw.progresses
  · intro h0
    refine ⟨progresses_of_no_nul lang.lawful h0, ?_⟩
    exact run_within lang.lawful buffer.length (Lexer.ofBuffer buffer) h0
      (by simp [remaining, Lexer.ofBuffer, CharStream.ofBuffer])

/-- A buffer that is one NUL byte breaks the law: `next` returns an operator
token and leaves the cursor at 0. -/
theorem lexerLaw_fails_on_nul :
    ¬ LexerLaw athensLexRules (fun t : Text => ((), t.length)) [0] :=
  fun hlaw => not_progresses_of_nul athensLexRules_lawful (by decide) hlaw.progresses

end AroundTheWorld.Lex
