import AroundTheWorld.Lex.Lexer

/-!
# What the scanning loops do to the stream

Every loop of the lexer only moves the cursor forward, and none moves it past a
NUL byte: `consumeOne` refuses to step over one, and the spellings that are
stepped over in one go contain none. Without NUL bytes every loop ends.
-/

namespace AroundTheWorld.Lex

open AroundTheWorld.Base

namespace CharStream

/-- `cs'` is `cs` moved forward, without crossing a NUL byte. -/
structure Moves (cs cs' : CharStream) : Prop where
  scans : ∃ n, cs' = cs.advance n
  barrier : ∀ p, (hp : p < cs.buffer.length) → cs.buffer[p] = 0 → cs.cursor ≤ p → cs'.cursor ≤ p

namespace Moves

variable {cs cs' cs'' : CharStream}

theorem refl (cs : CharStream) : Moves cs cs := ⟨⟨0, rfl⟩, fun _ _ _ h => h⟩

theorem buffer_eq (h : Moves cs cs') : cs'.buffer = cs.buffer := by
  obtain ⟨n, rfl⟩ := h.scans
  exact buffer_advance cs n

theorem cursor_le (h : Moves cs cs') : cs.cursor ≤ cs'.cursor := by
  obtain ⟨n, rfl⟩ := h.scans
  exact cursor_le_advance cs n

theorem trans (h : Moves cs cs') (h' : Moves cs' cs'') : Moves cs cs'' := by
  refine ⟨?_, ?_⟩
  · obtain ⟨n, rfl⟩ := h.scans
    obtain ⟨m, rfl⟩ := h'.scans
    exact ⟨n + m, advance_advance cs n m⟩
  · intro p hp h0 hle
    have hb := h.buffer_eq
    exact h'.barrier p (by rw [hb]; exact hp) (by simp only [hb]; exact h0) (h.barrier p hp h0 hle)

theorem consumeOne (cs : CharStream) : Moves cs cs.consumeOne.2 := by
  refine ⟨⟨_, consumeOne_snd cs⟩, ?_⟩
  intro p hp h0 hle
  rw [consumeOne_snd]
  by_cases hz : cs.peek = 0
  · simpa [hz] using hle
  · have hlt := peek_ne_zero_lt cs hz
    have hne : cs.cursor ≠ p := by
      rintro rfl
      exact hz (by rw [peek_of_lt cs hp, h0])
    rw [if_neg hz, cursor_advance_one cs hlt]
    omega

/-- Stepping over a NUL-free text that stands at the cursor. -/
theorem advance_view {t : Text} (hfit : cs.cursor + t.length ≤ cs.buffer.length)
    (ht : cs.view cs.cursor (cs.cursor + t.length) = t) (h0 : (0 : Byte) ∉ t) :
    Moves cs (cs.advance t.length) := by
  refine ⟨⟨_, rfl⟩, ?_⟩
  intro p hp hz hle
  rw [cursor_advance, Nat.min_eq_left hfit]
  by_contra hlt
  rw [view_eq_slice cs (Nat.le_add_right _ _) hfit] at ht
  have hidx : p - cs.cursor < t.length := by omega
  have hget : t[p - cs.cursor] = cs.buffer[p] := by
    have hs : (slice cs.buffer cs.cursor (cs.cursor + t.length))[p - cs.cursor]? =
        some cs.buffer[p] := by
      rw [slice, List.getElem?_take_of_lt (by omega), List.getElem?_drop,
        show cs.cursor + (p - cs.cursor) = p by omega, List.getElem?_eq_getElem hp]
    rw [ht, List.getElem?_eq_getElem hidx] at hs
    exact Option.some.inj hs
  exact h0 (hz ▸ hget ▸ List.getElem_mem hidx)

theorem view_eq (h : Moves cs cs') :
    cs'.view cs.cursor cs'.cursor = slice cs.buffer cs.cursor cs'.cursor := by
  have hb := h.buffer_eq
  have hin := cs'.inBounds
  rw [view_eq_slice cs' h.cursor_le hin, hb]

end Moves

/-- Bytes that are left to read. -/
def remaining (cs : CharStream) : Nat := cs.buffer.length - cs.cursor

theorem Moves.remaining_lt {cs cs' : CharStream} (h : Moves cs cs')
    (hlt : cs.cursor < cs'.cursor) : cs'.remaining < cs.remaining := by
  have hin := cs'.inBounds
  have hb := h.buffer_eq
  simp only [remaining, hb] at hin ⊢
  omega

theorem Moves.remaining_le {cs cs' : CharStream} (h : Moves cs cs') :
    cs'.remaining ≤ cs.remaining := by
  have hb := h.buffer_eq
  have hle := h.cursor_le
  simp only [remaining, hb]
  omega

theorem consumeOne_lt {cs : CharStream} (h : cs.peek ≠ 0) :
    cs.cursor < cs.consumeOne.2.cursor := by
  rw [consumeOne_of_ne cs h, cursor_advance_one cs (peek_ne_zero_lt cs h)]
  exact Nat.lt_succ_self _

end CharStream

open CharStream

section
variable {pred : Byte → Bool} {fuel : Nat} {cs cs' : CharStream}

theorem consumeWhile_moves (h : consumeWhile pred fuel cs = some cs') : Moves cs cs' :=
  (whileLoop_invariant (Moves cs ·)
    (fun s t hs _ ht => by
      obtain rfl := Option.some.inj ht
      exact hs.trans (.consumeOne s)) h (.refl cs)).1

/-- The first iteration of a loop whose condition holds at a byte other than NUL. -/
theorem consumeWhile_lt (h : consumeWhile pred fuel cs = some cs')
    (hp : pred cs.peek = true) (h0 : cs.peek ≠ 0) : cs.cursor < cs'.cursor := by
  have hlt := peek_ne_zero_lt cs h0
  have he : cs.eof = false := (eof_eq_false_iff cs).mpr hlt
  cases fuel with
  | zero => simp [consumeWhile, whileLoop] at h
  | succ n =>
    have hstep : consumeWhile pred (n + 1) cs = consumeWhile pred n cs.consumeOne.2 := by
      simp [consumeWhile, whileLoop, he, hp]
    rw [hstep] at h
    exact Nat.lt_of_lt_of_le (consumeOne_lt h0) (consumeWhile_moves h).cursor_le

/-- A loop that consumes bytes one by one ends when none of the bytes it wants
to consume is NUL. -/
theorem consumeWhile_total (h0 : (0 : Byte) ∉ cs.buffer) (hf : cs.remaining < fuel) :
    ∃ cs', consumeWhile pred fuel cs = some cs' := by
  refine whileLoop_total (fun s => s.buffer = cs.buffer) remaining ?_ rfl hf
  intro s hs hc
  simp only [Bool.and_eq_true, Bool.not_eq_true', eof_eq_false_iff] at hc
  have hz : s.peek ≠ 0 := peek_ne_zero s (hs ▸ h0) hc.1
  have hm := Moves.consumeOne s
  exact ⟨_, rfl, hm.buffer_eq.trans hs, hm.remaining_lt (consumeOne_lt hz)⟩

end

section
variable {closing : Text} {fuel : Nat} {cs cs' : CharStream}

/-- Either the closing delimiter stands at the cursor, or one byte goes. -/
theorem consumeBlockStep_cases {s t : CharStream × Bool} (h : consumeBlockStep closing s = some t) :
    (s.1.cursor + closing.length ≤ s.1.buffer.length ∧
      s.1.view s.1.cursor (s.1.cursor + closing.length) = closing ∧
      t = (s.1.advance closing.length, true)) ∨ t = (s.1.consumeOne.2, false) := by
  unfold consumeBlockStep at h
  split at h
  · rename_i hc
    have hin := s.1.inBounds
    have hsize := hc.1
    simp only [CharStream.size] at hsize
    exact .inl ⟨by omega, hc.2, (Option.some.inj h).symm⟩
  · exact .inr (Option.some.inj h).symm

theorem consumeBlockStep_moves (h0 : (0 : Byte) ∉ closing) {s t : CharStream × Bool}
    (h : consumeBlockStep closing s = some t) : Moves s.1 t.1 := by
  rcases consumeBlockStep_cases h with ⟨hfit, hview, rfl⟩ | rfl
  · exact .advance_view hfit hview h0
  · exact .consumeOne s.1

theorem consumeBlock_moves (h0 : (0 : Byte) ∉ closing)
    (h : consumeBlock closing fuel cs = some cs') : Moves cs cs' := by
  simp only [consumeBlock, Option.map_eq_some_iff] at h
  obtain ⟨s, hs, rfl⟩ := h
  exact (whileLoop_invariant (fun s : CharStream × Bool => Moves cs s.1)
    (fun s t hm _ ht => hm.trans (consumeBlockStep_moves h0 ht)) hs (.refl cs)).1

theorem consumeBlock_total (hc0 : (0 : Byte) ∉ closing) (h0 : (0 : Byte) ∉ cs.buffer)
    (hf : cs.remaining + 1 < fuel) : ∃ cs', consumeBlock closing fuel cs = some cs' := by
  -- leaving by the `break` costs the one unit that the flag is worth
  have hloop : ∃ t, whileLoop (fun s : CharStream × Bool => !s.1.eof && !s.2)
      (consumeBlockStep closing) fuel (cs, false) = some t := by
    refine whileLoop_total (fun s => s.1.buffer = cs.buffer)
      (fun s => s.1.remaining + if s.2 then 0 else 1) ?_ rfl (by simpa using hf)
    intro s hs hc
    simp only [Bool.and_eq_true, Bool.not_eq_true', eof_eq_false_iff] at hc
    have hz : s.1.peek ≠ 0 := peek_ne_zero s.1 (hs ▸ h0) hc.1
    obtain ⟨t, ht⟩ : ∃ t, consumeBlockStep closing s = some t := by
      unfold consumeBlockStep
      split
      · exact ⟨_, rfl⟩
      · exact ⟨_, rfl⟩
    have hm := consumeBlockStep_moves hc0 ht
    have hle := hm.remaining_le
    have hlt := (Moves.consumeOne s.1).remaining_lt (consumeOne_lt hz)
    refine ⟨t, ht, hm.buffer_eq.trans hs, ?_⟩
    rcases consumeBlockStep_cases ht with ⟨_, _, rfl⟩ | rfl
    · simp only [hc.2, Bool.false_eq_true, ↓reduceIte] at hle ⊢
      omega
    · simp only [hc.2, Bool.false_eq_true, ↓reduceIte]
      omega
  obtain ⟨t, ht⟩ := hloop
  exact ⟨t.1, by rw [consumeBlock, ht]; rfl⟩

end

section
variable {delim : CommentDelimiter} {fuel : Nat} {cs cs' : CharStream}

theorem consumeCommentBody_moves (h0 : (0 : Byte) ∉ delim.closing)
    (h : consumeCommentBody delim fuel cs = some cs') : Moves cs cs' := by
  unfold consumeCommentBody at h
  split at h
  · exact consumeWhile_moves h
  · split at h
    · exact consumeWhile_moves h
    · exact consumeBlock_moves h0 h

theorem consumeCommentBody_total (hc0 : (0 : Byte) ∉ delim.closing) (h0 : (0 : Byte) ∉ cs.buffer)
    (hf : cs.remaining + 1 < fuel) : ∃ cs', consumeCommentBody delim fuel cs = some cs' := by
  unfold consumeCommentBody
  split
  · exact consumeWhile_total h0 (by omega)
  · split
    · exact consumeWhile_total h0 (by omega)
    · exact consumeBlock_total hc0 h0 hf

end

def TriviaPiece.span (p : TriviaPiece) : Span Byte :=
  ⟨p.text, p.sourceLoc.startOffset, p.sourceLoc.endOffset⟩

def Token.span {D : Type} (t : Token D) : Span Byte :=
  ⟨t.lexeme, t.sourceLoc.startOffset, t.sourceLoc.endOffset⟩

section
variable {cs cs' : CharStream}

/-- A trivia piece made from the two ends of a move covers what was moved over. -/
theorem triviaPiece_covers (kind : TriviaKind) (h : Moves cs cs') (hlt : cs.cursor < cs'.cursor) :
    Covers cs.buffer cs.cursor [(triviaPiece kind cs cs').span] cs'.cursor :=
  Covers.single (s := (triviaPiece kind cs cs').span) hlt h.view_eq

/-- A comment that was found starts with a non-empty opening delimiter. -/
theorem consumeCommentMaybe_moves {fuel : Nat} {piece : TriviaPiece} :
    ∀ {delims : List CommentDelimiter},
      (∀ d ∈ delims, (0 : Byte) ∉ d.opening ∧ (0 : Byte) ∉ d.closing) →
      consumeCommentMaybe fuel cs delims = some (some (piece, cs')) →
      Moves cs cs' ∧ cs.cursor < cs'.cursor ∧ piece = triviaPiece .comment cs cs' := by
  intro delims
  induction delims with
  | nil => intro _ h; simp [consumeCommentMaybe] at h
  | cons delim rest ih =>
    intro hd h
    have hrest := ih (fun d hmem => hd d (List.mem_cons_of_mem _ hmem))
    unfold consumeCommentMaybe at h
    split at h
    · exact hrest h
    · rename_i hne
      split at h
      · exact hrest h
      · rename_i hsize
        split at h
        · exact hrest h
        · rename_i hview
          simp only [Option.map_eq_some_iff, Option.some.injEq, Prod.mk.injEq] at h
          obtain ⟨cs₁, hbody, rfl, rfl⟩ := h
          obtain ⟨hopen, hclose⟩ := hd delim List.mem_cons_self
          have hin := cs.inBounds
          simp only [CharStream.size] at hsize
          have hfit : cs.cursor + delim.opening.length ≤ cs.buffer.length := by omega
          have hadv := Moves.advance_view hfit (not_ne_iff.mp hview) hopen
          have hm := consumeCommentBody_moves hclose hbody
          have hpos : 0 < delim.opening.length := List.length_pos_iff.mpr hne
          have hcur := cursor_advance cs delim.opening.length
          have hle := hm.cursor_le
          exact ⟨hadv.trans hm, by omega, rfl⟩

theorem consumeCommentMaybe_total {fuel : Nat} (h0 : (0 : Byte) ∉ cs.buffer)
    (hf : cs.remaining + 1 < fuel) :
    ∀ {delims : List CommentDelimiter},
      (∀ d ∈ delims, (0 : Byte) ∉ d.opening ∧ (0 : Byte) ∉ d.closing) →
      ∃ r, consumeCommentMaybe fuel cs delims = some r := by
  intro delims
  induction delims with
  | nil => exact fun _ => ⟨none, rfl⟩
  | cons delim rest ih =>
    intro hd
    have hrest := ih (fun d hmem => hd d (List.mem_cons_of_mem _ hmem))
    unfold consumeCommentMaybe
    split
    · exact hrest
    · split
      · exact hrest
      · split
        · exact hrest
        · have hb := buffer_advance cs delim.opening.length
          have hle := cursor_le_advance cs delim.opening.length
          have htotal : ∃ cs₁, consumeCommentBody delim fuel (cs.advance delim.opening.length) =
              some cs₁ :=
            consumeCommentBody_total (hd delim List.mem_cons_self).2 (by rw [hb]; exact h0)
              (by simp only [remaining, hb] at hf ⊢; omega)
          obtain ⟨cs₁, hbody⟩ := htotal
          exact ⟨_, by rw [hbody]; rfl⟩

end

end AroundTheWorld.Lex
