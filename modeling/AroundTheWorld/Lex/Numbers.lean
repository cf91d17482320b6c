import Mathlib.Data.Nat.Digits.Defs
import Mathlib.Data.List.Induction
import Mathlib.Data.List.TakeWhile
import AroundTheWorld.Lex.Ahead
import AroundTheWorld.Lex.Determinism

/-!
# What numeric tokens mean

A number is read on any buffer: the loops of `lexNumber` step over digits and dots
only, which are not NUL, and stop at the first other byte. The lexeme is the run of
digits and dots, its dots decide between integer and double, and `from_chars` is in
range up to `2 ^ 63 - 1`.
-/

namespace AroundTheWorld.Lex

open AroundTheWorld.Base CharStream

variable {D : Type}

/-! ## The loops -/

/-- The condition and the body of the first loop of `lexNumber`. -/
def scanCond (s : NumberState) : Bool := !s.cs.eof && (isdigit s.cs.peek || s.cs.peek == byte '.')

def scanStep (s : NumberState) : Option NumberState :=
  if isdigit s.cs.peek then some { s with cs := s.cs.consumeOne.2 }
  else some ⟨s.cs.consumeOne.2, true, s.invalid || s.sawDot⟩

theorem scanNumber_eq (fuel : Nat) (cs : CharStream) :
    scanNumber fuel cs = whileLoop scanCond scanStep fuel ⟨cs, false, false⟩ := rfl

section
variable {pred : Byte → Bool} {fuel : Nat} {cs : CharStream} {t : Text}

theorem isNumeral_ne_zero {c : Byte} (h : isNumeral c = true) : c ≠ 0 := by
  rintro rfl
  cases h

/-- The byte that a run starts with, and the run behind it. -/
theorem ahead_of_takeWhile {c : Byte} (h : cs.ahead.takeWhile pred = c :: t) :
    cs.peek = c ∧ cs.eof = false ∧ pred c = true ∧ (cs.advance 1).ahead.takeWhile pred = t := by
  cases hahead : cs.ahead with
  | nil =>
    rw [hahead] at h
    cases h
  | cons d us =>
    rw [hahead] at h
    by_cases hd : pred d = true
    · rw [List.takeWhile_cons_of_pos hd] at h
      obtain ⟨rfl, htail⟩ := List.cons.inj h
      refine ⟨(ahead_cons hahead).2.1, eof_of_ahead_cons hahead, hd, ?_⟩
      rw [ahead_advance, hahead]
      exact htail
    · rw [List.takeWhile_cons_of_neg hd] at h
      cases h

/-- Where a run ends, the loop that would continue it stops. -/
theorem stops_of_takeWhile (h : cs.ahead.takeWhile pred = []) :
    (!cs.eof && pred cs.peek) = false := by
  cases hahead : cs.ahead with
  | nil => rw [eof_iff_ahead.mpr hahead]; rfl
  | cons c us =>
    rw [hahead] at h
    by_cases hc : pred c = true
    · rw [List.takeWhile_cons_of_pos hc] at h
      cases h
    · rw [(ahead_cons hahead).2.1, Bool.not_eq_true _ |>.mp hc, Bool.and_false]

/-- The first loop, from any flags: a dot sets the first, a further one the second. -/
theorem scan_run {s : NumberState} (h : s.cs.ahead.takeWhile isNumeral = t)
    (hfuel : t.length < fuel) :
    whileLoop scanCond scanStep fuel s = some ⟨s.cs.advance t.length,
      s.sawDot || decide (0 < t.count (byte '.')),
      s.invalid || decide (2 ≤ t.count (byte '.') + s.sawDot.toNat)⟩ := by
  obtain ⟨n, rfl⟩ := Nat.exists_eq_add_of_lt hfuel
  induction t generalizing s n with
  | nil =>
    have hstop : scanCond s = false := stops_of_takeWhile h
    rw [whileLoop_exit hstop]
    obtain ⟨cs, sawDot, invalid⟩ := s
    cases sawDot <;> simp
  | cons c t ih =>
    obtain ⟨hpeek, heof, hc, htail⟩ := ahead_of_takeWhile h
    have hgo : scanCond s = true := by
      rw [scanCond, heof, hpeek]
      exact hc
    have hone : s.cs.consumeOne.2 = s.cs.advance 1 :=
      consumeOne_of_ne _ (hpeek ▸ isNumeral_ne_zero hc)
    have hlen : (c :: t).length + n + 1 = t.length + n + 1 + 1 := by
      simp only [List.length_cons]
      omega
    have hadvance : (s.cs.advance 1).advance t.length = s.cs.advance (c :: t).length := by
      rw [advance_advance, List.length_cons, Nat.add_comm]
    rw [hlen]
    by_cases hdigit : isdigit c = true
    · have hstep : scanStep s = some { s with cs := s.cs.advance 1 } := by
        rw [scanStep, hpeek, if_pos hdigit, hone]
      have hne : c ≠ byte '.' := by
        rintro rfl
        cases hdigit
      rw [whileLoop_step hgo hstep, ih htail _ (by omega), hadvance, List.count_cons_of_ne hne]
    · have hdot : c = byte '.' := by simpa [isNumeral, hdigit] using hc
      have hstep : scanStep s = some ⟨s.cs.advance 1, true, s.invalid || s.sawDot⟩ := by
        rw [scanStep, hpeek, if_neg hdigit, hone]
      rw [whileLoop_step hgo hstep, ih htail _ (by omega), hadvance, hdot, List.count_cons_self]
      cases s.sawDot <;> cases s.invalid <;> simp

/-- A loop whose run is over. -/
theorem consumeWhile_over (h : cs.ahead.takeWhile pred = []) (hfuel : 0 < fuel) :
    consumeWhile pred fuel cs = some cs := by
  obtain ⟨n, rfl⟩ := Nat.exists_eq_add_of_lt hfuel
  simp only [consumeWhile, whileLoop, stops_of_takeWhile h, Bool.false_eq_true, if_false]

theorem view_advance (cs : CharStream) (h : t <+: cs.ahead) :
    (cs.advance t.length).view cs.cursor (cs.advance t.length).cursor = t := by
  have hlen : t.length ≤ cs.ahead.length := h.length_le
  have hcursor : (cs.advance t.length).cursor = cs.cursor + t.length := by
    rw [length_ahead] at hlen
    have hin := cs.inBounds
    rw [cursor_advance]
    omega
  have hview : (cs.advance t.length).view cs.cursor (cs.cursor + t.length) =
      cs.view cs.cursor (cs.cursor + t.length) := by
    rw [view, view, buffer_advance]
  rw [hcursor, hview, view_ahead hlen]
  exact (List.prefix_iff_eq_take.mp h).symm

/-- Behind a run there is none. -/
theorem takeWhile_behind (h : cs.ahead.takeWhile pred = t) :
    (cs.advance t.length).ahead.takeWhile pred = [] := by
  have hsplit : cs.ahead = t ++ cs.ahead.dropWhile pred := by
    rw [← h, List.takeWhile_append_dropWhile]
  have hfirst := List.head?_dropWhile_not pred cs.ahead
  rw [ahead_advance, hsplit, List.drop_left]
  cases hbehind : cs.ahead.dropWhile pred with
  | nil => rfl
  | cons c us =>
    rw [hbehind] at hfirst
    exact List.takeWhile_cons_of_neg (by simpa using hfirst)

theorem takeWhile_isdigit {us : Text} (h : us.takeWhile isNumeral = []) :
    us.takeWhile isdigit = [] := by
  cases us with
  | nil => rfl
  | cons c us =>
    refine List.takeWhile_cons_of_neg fun hdigit => ?_
    have hc : isNumeral c = true := by rw [isNumeral, hdigit, Bool.true_or]
    rw [List.takeWhile_cons_of_pos hc] at h
    cases h

/-- `lexNumber` from any position: the run ahead, classified. -/
theorem lexNumber_run (strtod : Text → D × Nat) (h : cs.ahead.takeWhile isNumeral = t)
    (hfuel : t.length < fuel) :
    lexNumber strtod fuel cs = some (tokenAt (classifyNumeral strtod t).1 t
      (classifyNumeral strtod t).2 cs (cs.advance t.length), cs.advance t.length) := by
  have hscan : scanNumber fuel cs = some ⟨cs.advance t.length, decide (0 < t.count (byte '.')),
      decide (2 ≤ t.count (byte '.'))⟩ := by
    rw [scanNumber_eq, scan_run h hfuel]
    simp
  have hbehind := takeWhile_behind h
  have hview := view_advance cs (h ▸ List.takeWhile_prefix isNumeral)
  have hskip : skipInvalid fuel ⟨cs.advance t.length, decide (0 < t.count (byte '.')),
      decide (2 ≤ t.count (byte '.'))⟩ = some (cs.advance t.length) := by
    unfold skipInvalid
    split
    · exact consumeWhile_over hbehind (by omega)
    · rfl
  have hdigits : consumeWhile isdigit fuel (cs.advance t.length) = some (cs.advance t.length) :=
    consumeWhile_over (takeWhile_isdigit hbehind) (by omega)
  rw [lexNumber, hscan, Option.bind_some, hskip, Option.bind_some]
  simp only [classifyNumber, hview, hdigits, Option.map_some, classifyNumeral, decide_eq_true_eq]
  by_cases htwo : 2 ≤ t.count (byte '.')
  · rw [if_pos htwo, if_pos htwo]
  rw [if_neg htwo, if_neg htwo]
  by_cases hdot : byte '.' ∈ t
  · rw [if_pos (List.count_pos_iff.mpr hdot), if_pos hdot]
    split <;> rfl
  · rw [if_neg (fun h => hdot (List.count_pos_iff.mp h)), if_neg hdot]
    rcases fromChars t with ⟨read, _ | value⟩
    · rfl
    · simp only
      split <;> rfl

end

/-! ## The values -/

/-- The value of a string of digits. -/
def spelledValue (t : Text) : Nat :=
  Nat.ofDigits 10 (t.reverse.map fun c => (c - byte '0').toNat)

theorem decimalValue_eq (t : Text) : decimalValue t = spelledValue t := by
  induction t using List.reverseRecOn with
  | nil => rfl
  | append_singleton t c ih =>
    have hlast : decimalValue (t ++ [c]) = decimalValue t * 10 + (c - byte '0').toNat := by
      simp [decimalValue]
    rw [hlast, ih, spelledValue, spelledValue, List.reverse_append, List.reverse_singleton,
      List.singleton_append, List.map_cons, Nat.ofDigits_cons]
    ring

/-- The documented behaviour of `strtod` in the C locale on the lexemes it is given. -/
def AcceptsDecimals (strtod : Text → D × Nat) : Prop :=
  ∀ t, (∀ c ∈ t, isNumeral c = true) → t.count (byte '.') = 1 → (∃ c ∈ t, isdigit c = true) →
    (strtod t).2 = t.length

section
variable {strtod : Text → D × Nat} {t : Text}

theorem fromChars_digits (hall : ∀ c ∈ t, isdigit c = true) (hne : t ≠ []) :
    fromChars t = (t.length,
      if spelledValue t < 2 ^ 63 then some (spelledValue t : Int) else none) := by
  have htake : t.takeWhile isdigit = t := List.takeWhile_eq_self_iff.mpr hall
  simp only [fromChars, htake, if_neg hne, decimalValue_eq]

theorem classifyNumeral_float (hstrtod : AcceptsDecimals strtod)
    (hall : ∀ c ∈ t, isNumeral c = true) (hdigit : ∃ c ∈ t, isdigit c = true)
    (hone : t.count (byte '.') = 1) :
    classifyNumeral strtod t = (.float, .double (strtod t).1) := by
  have hdot : byte '.' ∈ t := List.count_pos_iff.mp (by omega)
  have hread := hstrtod t hall hone hdigit
  rw [classifyNumeral, if_neg (by omega), if_pos hdot, if_neg (by rw [hread]; exact fun h => h rfl)]

theorem classifyNumeral_integer (hall : ∀ c ∈ t, isNumeral c = true) (hne : t ≠ [])
    (hdot : byte '.' ∉ t) :
    classifyNumeral strtod t =
      if spelledValue t < 2 ^ 63 then (.integer, .int (spelledValue t)) else
        (.invalidNumber, .none) := by
  have hdigits : ∀ c ∈ t, isdigit c = true := by
    intro c hc
    have hnumeral := hall c hc
    have hne : c ≠ byte '.' := fun heq => hdot (heq ▸ hc)
    simpa [isNumeral, hne] using hnumeral
  rw [classifyNumeral, List.count_eq_zero_of_not_mem hdot, if_neg (by omega), if_neg hdot,
    fromChars_digits hdigits hne]
  by_cases hsmall : spelledValue t < 2 ^ 63
  · rw [if_pos hsmall, if_pos hsmall]
    simp
  · rw [if_neg hsmall, if_neg hsmall]

end

/-- The token that a run of digits and dots is. -/
structure Spells (strtod : Text → D × Nat) (run : Text) (tok : Token D) : Prop where
  lexeme : tok.lexeme = run
  integer : tok.kind = .integer ↔ byte '.' ∉ run ∧ spelledValue run ≤ 2 ^ 63 - 1
  integerLiteral : tok.kind = .integer → tok.literal = .int (spelledValue run)
  float : tok.kind = .float ↔ run.count (byte '.') = 1
  floatLiteral : tok.kind = .float → tok.literal = .double (strtod run).1
  invalidNumber : tok.kind = .invalidNumber ↔
    2 ≤ run.count (byte '.') ∨ byte '.' ∉ run ∧ 2 ^ 63 ≤ spelledValue run
  invalidLiteral : tok.kind = .invalidNumber → tok.literal = .none

theorem classifyNumeral_spells {strtod : Text → D × Nat} (hstrtod : AcceptsDecimals strtod)
    {t : Text} (hall : ∀ c ∈ t, isNumeral c = true) (hdigit : ∃ c ∈ t, isdigit c = true)
    (cs cs' : CharStream) :
    Spells strtod t
      (tokenAt (classifyNumeral strtod t).1 t (classifyNumeral strtod t).2 cs cs') := by
  have hne : t ≠ [] := by
    rintro rfl
    obtain ⟨c, hc, -⟩ := hdigit
    cases hc
  have hdot : byte '.' ∈ t ↔ 0 < t.count (byte '.') := List.count_pos_iff.symm
  obtain htwo | hone | hnone : 2 ≤ t.count (byte '.') ∨ t.count (byte '.') = 1 ∨
      t.count (byte '.') = 0 := by omega
  · have hclass : classifyNumeral strtod t = (.invalidNumber, .none) := by
      rw [classifyNumeral, if_pos htwo]
    have hmem : byte '.' ∈ t := hdot.mpr (by omega)
    rw [hclass]
    constructor <;> simp [tokenAt, hmem, htwo]
    omega
  · rw [classifyNumeral_float hstrtod hall hdigit hone]
    have hmem : byte '.' ∈ t := hdot.mpr (by omega)
    constructor <;> simp [tokenAt, hmem, hone]
  · have hmem : byte '.' ∉ t := fun h => absurd (hdot.mp h) (by omega)
    rw [classifyNumeral_integer hall hne hmem]
    by_cases hsmall : spelledValue t < 2 ^ 63
    · rw [if_pos hsmall]
      constructor <;> simp [tokenAt, hmem, hnone] <;> omega
    · rw [if_neg hsmall]
      constructor <;> simp [tokenAt, hmem, hnone] <;> omega

/-! ## The lexer -/

/-- `next` starts a number at the stream `cs`, behind the trivia it skips. -/
structure StartsNumberAt (rules : LexLanguageRules) (l : Lexer) (cs : CharStream)
    (trivia : List TriviaPiece) : Prop where
  skipped : ∃ fuel, consumeTrivia rules fuel l.cs = some (cs, trivia)
  notIdent : rules.isIdentStart cs.peek = false
  starts : (isdigit cs.peek || (cs.peek == byte '.' && isdigit cs.peek2)) = true

/-- The longest run of digits and dots from the cursor. -/
def CharStream.run (cs : CharStream) : Text := cs.ahead.takeWhile isNumeral

theorem run_numeral {cs : CharStream} : ∀ c ∈ cs.run, isNumeral c = true :=
  fun _ hc => List.mem_takeWhile_imp hc

section
variable {rules : LexLanguageRules} {l : Lexer} {cs : CharStream} {trivia : List TriviaPiece}

theorem StartsNumberAt.inside (h : StartsNumberAt rules l cs trivia) : cs.eof = false := by
  refine (eof_eq_false_iff cs).mpr (peek_ne_zero_lt cs fun hzero => ?_)
  have hstarts := h.starts
  rw [hzero] at hstarts
  cases hstarts

theorem StartsNumberAt.digit (h : StartsNumberAt rules l cs trivia) :
    ∃ c ∈ cs.run, isdigit c = true := by
  have hahead := ahead_of_lt ((eof_eq_false_iff cs).mp h.inside)
  have hstarts : startsNumber (cs.peek :: cs.buffer.drop (cs.cursor + 1)) = true := by
    rw [startsNumber, ← peek2_of_ahead hahead]
    exact h.starts
  obtain ⟨us, hus, hstart⟩ := startsNumber_takeWhile hstarts
  rw [CharStream.run, hahead, hus]
  rw [startsNumber, Bool.or_eq_true, Bool.and_eq_true] at hstart
  rcases hstart with hdigit | ⟨-, hdigit⟩
  · exact ⟨cs.peek, List.mem_cons_self, hdigit⟩
  · cases us with
    | nil => cases hdigit
    | cons d us => exact ⟨d, List.mem_cons_of_mem _ List.mem_cons_self, hdigit⟩

end

/-- A number is one token, with the kind and the literal of the run of digits and
dots it starts, and lexing goes on behind the run. -/
theorem numeric_token (rules : LexLanguageRules) (strtod : Text → D × Nat)
    (hstrtod : AcceptsDecimals strtod) (l : Lexer) (cs : CharStream) (trivia : List TriviaPiece)
    (h : StartsNumberAt rules l cs trivia) :
    ∃ tok, Spells strtod cs.run tok ∧
      (∀ tok' l', l.Next rules strtod tok' l' ↔
        tok' = tok ∧ l' = ⟨cs.advance cs.run.length, trivia⟩) := by
  let tok := tokenAt (classifyNumeral strtod cs.run).1 cs.run (classifyNumeral strtod cs.run).2 cs
    (cs.advance cs.run.length)
  obtain ⟨n, hskipped⟩ := h.skipped
  have hnext : l.Next rules strtod tok ⟨cs.advance cs.run.length, trivia⟩ := by
    refine ⟨max n (cs.run.length + 1), ?_⟩
    have hmore := consumeTrivia_keeps (Nat.le_max_left n (cs.run.length + 1)) l.cs _ hskipped
    have hrun := lexNumber_run strtod (rfl : cs.run = cs.run)
      (Nat.lt_of_lt_of_le (Nat.lt_succ_self _) (Nat.le_max_right n (cs.run.length + 1)))
    rw [Lexer.next, hmore, Option.bind_some]
    simp only [lexToken, h.inside, h.notIdent, h.starts, Bool.false_eq_true, if_false, if_true]
    rw [hrun]
    rfl
  refine ⟨tok, classifyNumeral_spells hstrtod run_numeral h.digit _ _, fun tok' l' => ?_⟩
  constructor
  · intro hnext'
    exact Next.unique hnext' hnext
  · rintro ⟨rfl, rfl⟩
    exact hnext

/-- `strtod` on digits with one dot, its value as the digits and the number of them
behind the dot. -/
def decimalStrtod (t : Text) : (Nat × Nat) × Nat :=
  ((decimalValue (t.filter isdigit), (t.dropWhile isdigit).length - 1), t.length)

/-- The largest integer, behind a comment. -/
theorem numeric_token_largest :
    ∃ tok, Spells decimalStrtod (text "9223372036854775807") tok ∧ tok.kind = .integer := by
  let l : Lexer := Lexer.ofBuffer (text "#\n9223372036854775807")
  obtain ⟨cs, trivia, hskipped, hrun, hident, hstarts⟩ : ∃ cs trivia,
      consumeTrivia athensLexRules 20 l.cs = some (cs, trivia) ∧
        cs.run = text "9223372036854775807" ∧ athensLexRules.isIdentStart cs.peek = false ∧
        (isdigit cs.peek || (cs.peek == byte '.' && isdigit cs.peek2)) = true :=
    ⟨_, _, rfl, by decide +kernel, by decide +kernel, by decide +kernel⟩
  obtain ⟨tok, hspells, -⟩ := numeric_token athensLexRules decimalStrtod (fun _ _ _ _ => rfl) l cs
    trivia ⟨⟨20, hskipped⟩, hident, hstarts⟩
  rw [hrun] at hspells
  exact ⟨tok, hspells, hspells.integer.mpr (by decide +kernel)⟩

end AroundTheWorld.Lex
