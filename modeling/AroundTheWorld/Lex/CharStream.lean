import AroundTheWorld.Base.Cover
import AroundTheWorld.Lex.Token

/-!
# The character stream

`CharStream` owns the buffer and is the only code that moves the cursor. Its
single mutator is `advance`; `consumeOne` is `advance 1` unless the byte it
peeked is NUL, which the stream cannot tell from the end of the buffer.
-/

namespace AroundTheWorld.Lex

open AroundTheWorld.Base

structure CharStream where
  buffer : Text
  cursor : Nat
  line : Nat
  col : Nat
  inBounds : cursor ≤ buffer.length

namespace CharStream

/-- The stream over a whole buffer, before anything is read. -/
def ofBuffer (buffer : Text) : CharStream where
  buffer := buffer
  cursor := 0
  line := 1
  col := 1
  inBounds := Nat.zero_le _

variable (cs : CharStream)

def eof : Bool := decide (cs.buffer.length ≤ cs.cursor)

def size : Nat := cs.buffer.length

def peek : Byte := if cs.cursor ≥ cs.buffer.length then 0 else cs.buffer.getD cs.cursor 0

def peek2 : Byte :=
  if cs.cursor ≥ cs.buffer.length then 0
  else if cs.buffer.length - cs.cursor < 2 then 0
  else cs.buffer.getD (cs.cursor + 1) 0

/-- One iteration of the loop of `advance`: step over `buffer[cursor]`. -/
def step (h : cs.cursor < cs.buffer.length) : CharStream where
  buffer := cs.buffer
  cursor := cs.cursor + 1
  line := if cs.buffer[cs.cursor] = byte '\n' then cs.line + 1 else cs.line
  col := if cs.buffer[cs.cursor] = byte '\n' then 1 else cs.col + 1
  inBounds := h

def advance : Nat → CharStream → CharStream
  | 0, cs => cs
  | n + 1, cs => if h : cs.cursor < cs.buffer.length then advance n (cs.step h) else cs

def consumeOne : Byte × CharStream :=
  if cs.peek = 0 then (0, cs) else (cs.peek, cs.advance 1)

def view (start stop : Nat) : Text :=
  if start > stop ∨ stop > cs.buffer.length then [] else slice cs.buffer start stop

/-- The location of the text consumed between two states of one stream. -/
def locTo (cs' : CharStream) : SourceLoc where
  startOffset := cs.cursor
  endOffset := cs'.cursor
  startLine := cs.line
  startColumn := cs.col
  endLine := cs'.line
  endColumn := cs'.col

@[simp] theorem advance_zero : cs.advance 0 = cs := rfl

theorem eof_eq_true_iff : cs.eof = true ↔ cs.cursor = cs.buffer.length := by
  have := cs.inBounds
  simp only [eof, decide_eq_true_eq]
  omega

theorem eof_eq_false_iff : cs.eof = false ↔ cs.cursor < cs.buffer.length := by
  have := cs.inBounds
  simp only [eof, decide_eq_false_iff_not]
  omega

theorem advance_eof (n : Nat) (h : cs.eof = true) : cs.advance n = cs := by
  have hc := (eof_eq_true_iff cs).mp h
  cases n with
  | zero => rfl
  | succ n => simp [advance, show ¬ cs.cursor < cs.buffer.length by omega]

@[simp] theorem buffer_advance (n : Nat) : (cs.advance n).buffer = cs.buffer := by
  induction n generalizing cs with
  | zero => rfl
  | succ n ih =>
    unfold advance
    split
    · exact ih _
    · rfl

theorem cursor_advance (n : Nat) :
    (cs.advance n).cursor = min (cs.cursor + n) cs.buffer.length := by
  induction n generalizing cs with
  | zero => have := cs.inBounds; simp only [advance_zero, Nat.add_zero]; omega
  | succ n ih =>
    have := cs.inBounds
    unfold advance
    split
    · rw [ih]; simp only [step]; omega
    · omega

theorem cursor_le_advance (n : Nat) : cs.cursor ≤ (cs.advance n).cursor := by
  have := cs.inBounds
  rw [cursor_advance]
  omega

/-- Consecutive moves add up, so a run of the lexer is one `advance`. -/
theorem advance_advance (m n : Nat) : (cs.advance m).advance n = cs.advance (m + n) := by
  induction m generalizing cs with
  | zero => simp
  | succ m ih =>
    by_cases h : cs.cursor < cs.buffer.length
    · rw [show m + 1 + n = (m + n) + 1 by omega]
      simp only [advance, h, ↓reduceDIte]
      exact ih _
    · have he : cs.eof = true := by rw [eof_eq_true_iff]; have := cs.inBounds; omega
      rw [advance_eof cs _ he, advance_eof cs _ he, advance_eof cs _ he]

theorem peek_of_lt (h : cs.cursor < cs.buffer.length) : cs.peek = cs.buffer[cs.cursor] := by
  rw [peek, if_neg (by omega)]
  simp [h]

theorem peek_ne_zero_lt (h : cs.peek ≠ 0) : cs.cursor < cs.buffer.length := by
  by_contra hge
  exact h (by simp [peek, show cs.cursor ≥ cs.buffer.length by omega])

/-- Without a NUL byte, every byte the stream can peek is a real one. -/
theorem peek_ne_zero (h0 : (0 : Byte) ∉ cs.buffer) (h : cs.cursor < cs.buffer.length) :
    cs.peek ≠ 0 := by
  rw [peek_of_lt cs h]
  exact fun he => h0 (he ▸ List.getElem_mem h)

theorem consumeOne_snd : (cs.consumeOne).2 = cs.advance (if cs.peek = 0 then 0 else 1) := by
  unfold consumeOne
  split <;> rfl

theorem consumeOne_of_ne (h : cs.peek ≠ 0) : (cs.consumeOne).2 = cs.advance 1 := by
  rw [consumeOne_snd, if_neg h]

theorem cursor_advance_one (h : cs.cursor < cs.buffer.length) :
    (cs.advance 1).cursor = cs.cursor + 1 := by
  rw [cursor_advance]
  omega

theorem view_eq_slice {a b : Nat} (hab : a ≤ b) (hb : b ≤ cs.buffer.length) :
    cs.view a b = slice cs.buffer a b := by
  simp [view, show ¬ a > b by omega, show ¬ b > cs.buffer.length by omega]

end CharStream

end AroundTheWorld.Lex
