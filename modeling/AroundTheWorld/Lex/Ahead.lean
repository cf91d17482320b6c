import AroundTheWorld.Lex.Progress

/-!
# The lexer as a function of the text ahead

Without NUL bytes each call of the lexer depends on the text at the cursor only. The
lexeme of the next token is `lexemeAt` of that text, and its kind and its literal are
`classify` of the lexeme.
-/

namespace AroundTheWorld.Lex

open AroundTheWorld.Base CharStream

variable {D : Type}

namespace CharStream

/-- The text at the cursor. -/
def ahead (cs : CharStream) : Text := cs.buffer.drop cs.cursor

variable {cs cs' : CharStream}

theorem length_ahead (cs : CharStream) : cs.ahead.length = cs.buffer.length - cs.cursor := by
  simp [ahead]

theorem eof_iff_ahead : cs.eof = true ↔ cs.ahead = [] := by
  rw [eof_eq_true_iff, ← List.length_eq_zero_iff, length_ahead]
  have hin := cs.inBounds
  omega

theorem ahead_of_lt (h : cs.cursor < cs.buffer.length) :
    cs.ahead = cs.peek :: cs.buffer.drop (cs.cursor + 1) := by
  rw [ahead, List.drop_eq_getElem_cons h, peek_of_lt cs h]

theorem ahead_cons {c : Byte} {ts : Text} (h : cs.ahead = c :: ts) :
    cs.cursor < cs.buffer.length ∧ cs.peek = c ∧ cs.buffer.drop (cs.cursor + 1) = ts := by
  have hlen := length_ahead cs
  rw [h, List.length_cons] at hlen
  have hlt : cs.cursor < cs.buffer.length := by omega
  rw [ahead_of_lt hlt] at h
  obtain ⟨hpeek, htail⟩ := List.cons.inj h
  exact ⟨hlt, hpeek, htail⟩

theorem eof_of_ahead_cons {c : Byte} {ts : Text} (h : cs.ahead = c :: ts) : cs.eof = false :=
  (eof_eq_false_iff cs).mpr (ahead_cons h).1

theorem peek2_of_ahead {c : Byte} {ts : Text} (h : cs.ahead = c :: ts) : cs.peek2 = ts.headD 0 := by
  obtain ⟨hlt, -, htail⟩ := ahead_cons h
  unfold peek2
  rw [if_neg (by omega)]
  split
  · rename_i hshort
    rw [← htail, List.drop_eq_nil_of_le (by omega)]
    rfl
  · rename_i hlong
    have hlt' : cs.cursor + 1 < cs.buffer.length := by omega
    rw [← htail, List.drop_eq_getElem_cons hlt']
    simp [hlt']

theorem ahead_advance (cs : CharStream) (n : Nat) : (cs.advance n).ahead = cs.ahead.drop n := by
  rw [ahead, buffer_advance, cursor_advance, ahead, List.drop_drop]
  rcases Nat.le_total (cs.cursor + n) cs.buffer.length with h | h
  · rw [Nat.min_eq_left h]
  · rw [Nat.min_eq_right h, List.drop_length, List.drop_eq_nil_of_le h]

theorem not_mem_ahead {c : Byte} (h : c ∉ cs.buffer) : c ∉ cs.ahead :=
  fun hmem => h (List.mem_of_mem_drop hmem)

/-- Without NUL bytes one byte goes. -/
theorem ahead_consumeOne {c : Byte} {ts : Text} (h0 : (0 : Byte) ∉ cs.buffer)
    (h : cs.ahead = c :: ts) : cs.consumeOne.2.ahead = ts := by
  have hne := peek_ne_zero cs h0 (ahead_cons h).1
  rw [consumeOne_of_ne cs hne, ahead_advance, h]
  rfl

/-- The next bytes, when there are as many. -/
theorem view_ahead {n : Nat} (h : n ≤ cs.ahead.length) :
    cs.view cs.cursor (cs.cursor + n) = cs.ahead.take n := by
  rw [length_ahead] at h
  have hin := cs.inBounds
  rw [view_eq_slice cs (Nat.le_add_right _ _) (by omega), slice, ahead, Nat.add_sub_cancel_left]

/-- What a move has moved over, and what is left. -/
theorem Moves.ahead_eq (h : Moves cs cs') :
    cs.ahead = cs'.view cs.cursor cs'.cursor ++ cs'.ahead := by
  have hle := h.cursor_le
  rw [h.view_eq, ahead, ahead, h.buffer_eq, slice]
  conv_lhs => rw [← List.take_append_drop (cs'.cursor - cs.cursor) (cs.buffer.drop cs.cursor)]
  rw [List.drop_drop, Nat.add_sub_cancel' hle]

end CharStream

section
variable {rules : LexLanguageRules} {strtod : Text → D × Nat} {fuel : Nat} {cs cs' : CharStream}
  {pred : Byte → Bool} {tok : Token D}

/-- A loop that consumes bytes one by one stops in front of the first that it does not
want. -/
theorem consumeWhile_ahead (h0 : (0 : Byte) ∉ cs.buffer)
    (h : consumeWhile pred fuel cs = some cs') : cs'.ahead = cs.ahead.dropWhile pred := by
  obtain ⟨⟨-, hdrop⟩, hexit⟩ := whileLoop_invariant
    (fun s : CharStream => Moves cs s ∧ s.ahead.dropWhile pred = cs.ahead.dropWhile pred)
    (fun s t hs hc ht => by
      obtain rfl := Option.some.inj ht
      obtain ⟨hm, hs⟩ := hs
      simp only [Bool.and_eq_true, Bool.not_eq_true', eof_eq_false_iff] at hc
      have hs0 : (0 : Byte) ∉ s.buffer := by rwa [hm.buffer_eq]
      have hahead := ahead_of_lt hc.1
      refine ⟨hm.trans (.consumeOne s), ?_⟩
      rw [ahead_consumeOne hs0 hahead, ← hs, hahead, List.dropWhile_cons_of_pos hc.2]) h
    ⟨.refl cs, rfl⟩
  rw [← hdrop]
  cases hahead : cs'.ahead with
  | nil => rfl
  | cons c ts =>
    rw [List.dropWhile_cons_of_neg]
    rw [eof_of_ahead_cons hahead, (ahead_cons hahead).2.1] at hexit
    simpa using hexit

/-- What it has consumed. -/
theorem consumeWhile_view (h0 : (0 : Byte) ∉ cs.buffer)
    (h : consumeWhile pred fuel cs = some cs') :
    cs'.view cs.cursor cs'.cursor = cs.ahead.takeWhile pred := by
  have hsplit := (consumeWhile_moves h).ahead_eq
  rw [consumeWhile_ahead h0 h] at hsplit
  conv_lhs at hsplit => rw [← List.takeWhile_append_dropWhile (p := pred) (l := cs.ahead)]
  exact (List.append_cancel_right hsplit).symm

end

/-! ## Lexemes -/

def isNumeral (c : Byte) : Bool := isdigit c || c == byte '.'

/-- A digit, or a dot with a digit behind it. -/
def startsNumber : Text → Bool
  | [] => false
  | c :: ts => isdigit c || (c == byte '.' && isdigit (ts.headD 0))

section
variable (rules : LexLanguageRules) (strtod : Text → D × Nat)

/-- The lexeme of the token that the text starts with. -/
def lexemeAt : Text → Text
  | [] => []
  | c :: ts =>
    if rules.isIdentStart c then (c :: ts).takeWhile rules.isIdentContinue
    else if startsNumber (c :: ts) then (c :: ts).takeWhile isNumeral
    else if ts ≠ [] ∧ (rules.punctuator ((c :: ts).take 2)).isSome then (c :: ts).take 2
    else [c]

def classifyNumeral (t : Text) : TokenKind × LiteralValue D :=
  if 2 ≤ t.count (byte '.') then (.invalidNumber, .none)
  else if byte '.' ∈ t then
    if (strtod t).2 ≠ t.length then (.invalidNumber, .none) else (.float, .double (strtod t).1)
  else
    match fromChars t with
    | (read, some value) => if read ≠ t.length then (.invalidNumber, .none) else
        (.integer, .int value)
    | (_, none) => (.invalidNumber, .none)

/-- The kind and the literal of a lexeme. -/
def classify : Text → TokenKind × LiteralValue D
  | [] => (.eof, .none)
  | c :: ts =>
    if rules.isIdentStart c then ((rules.keyword (c :: ts)).getD .identifier, .none)
    else if startsNumber (c :: ts) then classifyNumeral strtod (c :: ts)
    else
      match rules.punctuator (c :: ts) with
      | some kind => (kind, .none)
      | none => (if !isalnum c && !isspace c then .operator else .invalid, .none)

/-- The token at the cursor is that of the text ahead, and its lexeme goes. -/
structure ReadsAhead (cs : CharStream) (tok : Token D) (cs' : CharStream) : Prop where
  lexeme : tok.lexeme = lexemeAt rules cs.ahead
  class_ : (tok.kind, tok.literal) = classify rules strtod tok.lexeme
  ahead : cs.ahead = tok.lexeme ++ cs'.ahead

variable {rules strtod} {fuel : Nat} {cs cs' : CharStream} {tok : Token D}

theorem lexIdentifierOrKeyword_ahead (hr : LawfulRules rules) (h0 : (0 : Byte) ∉ cs.buffer)
    (he : cs.eof = false) (hs : rules.isIdentStart cs.peek = true)
    (h : lexIdentifierOrKeyword rules fuel cs = some (tok, cs')) :
    ReadsAhead rules strtod cs tok cs' := by
  obtain ⟨cs₁, hw, heq⟩ := Option.map_eq_some_iff.mp h
  have hview := consumeWhile_view h0 hw
  have hahead := ahead_of_lt ((eof_eq_false_iff cs).mp he)
  have hlexeme : lexemeAt rules cs.ahead = cs.ahead.takeWhile rules.isIdentContinue := by
    rw [hahead, lexemeAt, if_pos hs]
  have hclass : classify rules strtod (cs.ahead.takeWhile rules.isIdentContinue) =
      ((rules.keyword (cs.ahead.takeWhile rules.isIdentContinue)).getD .identifier, .none) := by
    rw [hahead, List.takeWhile_cons_of_pos (hr.start_continue _ hs), classify, if_pos hs]
  have hsplit : cs.ahead = cs.ahead.takeWhile rules.isIdentContinue ++ cs₁.ahead := by
    rw [consumeWhile_ahead h0 hw, List.takeWhile_append_dropWhile]
  rw [hview] at heq
  cases hkw : rules.keyword (cs.ahead.takeWhile rules.isIdentContinue) with
  | none =>
    simp only [hkw, Prod.mk.injEq] at heq
    obtain ⟨rfl, rfl⟩ := heq
    exact ⟨hlexeme.symm, by rw [tokenAt, hclass, hkw]; rfl, hsplit⟩
  | some kind =>
    simp only [hkw, Prod.mk.injEq] at heq
    obtain ⟨rfl, rfl⟩ := heq
    exact ⟨hlexeme.symm, by rw [tokenAt, hclass, hkw]; rfl, hsplit⟩

/-- The first loop of `lexNumber` takes digits and dots and counts the dots up to two. -/
theorem scanNumber_ahead (h0 : (0 : Byte) ∉ cs.buffer) {s : NumberState}
    (h : scanNumber fuel cs = some s) :
    Moves cs s.cs ∧ cs.ahead = cs.ahead.takeWhile isNumeral ++ s.cs.ahead ∧
      (s.sawDot = true ↔ byte '.' ∈ cs.ahead.takeWhile isNumeral) ∧
      (s.invalid = true ↔ 2 ≤ (cs.ahead.takeWhile isNumeral).count (byte '.')) := by
  obtain ⟨⟨t, hm, hsplit, hall, hdot, hinvalid⟩, hexit⟩ := whileLoop_invariant
    (fun s : NumberState => ∃ t, Moves cs s.cs ∧ cs.ahead = t ++ s.cs.ahead ∧
      (∀ c ∈ t, isNumeral c = true) ∧ (s.sawDot = true ↔ 1 ≤ t.count (byte '.')) ∧
      (s.invalid = true ↔ 2 ≤ t.count (byte '.')))
    (fun s u hs hc hu => by
      obtain ⟨t, hm, hsplit, hall, hdot, hinvalid⟩ := hs
      simp only [Bool.and_eq_true, Bool.not_eq_true', eof_eq_false_iff] at hc
      have hs0 : (0 : Byte) ∉ s.cs.buffer := by rwa [hm.buffer_eq]
      have hahead := ahead_of_lt hc.1
      have hm' := hm.trans (.consumeOne s.cs)
      have hsplit' : cs.ahead = (t ++ [s.cs.peek]) ++ s.cs.consumeOne.2.ahead := by
        rw [ahead_consumeOne hs0 hahead, hsplit, hahead, List.append_assoc]
        rfl
      have hall' : ∀ c ∈ t ++ [s.cs.peek], isNumeral c = true := by
        intro c hmem
        rcases List.mem_append.mp hmem with hmem | hmem
        · exact hall c hmem
        · rw [List.mem_singleton.mp hmem]
          exact hc.2
      refine ⟨t ++ [s.cs.peek], ?_⟩
      split at hu
      · rename_i hdigit
        obtain rfl := Option.some.inj hu
        have hcount : (t ++ [s.cs.peek]).count (byte '.') = t.count (byte '.') := by
          rw [List.count_append, List.count_singleton, if_neg]
          · rfl
          · intro heq
            rw [beq_iff_eq.mp heq] at hdigit
            cases hdigit
        rw [hcount]
        exact ⟨hm', hsplit', hall', hdot, hinvalid⟩
      · rename_i hdigit
        obtain rfl := Option.some.inj hu
        have hpeek : s.cs.peek = byte '.' := by simpa [hdigit] using hc.2
        have hcount : (t ++ [s.cs.peek]).count (byte '.') = t.count (byte '.') + 1 := by
          rw [hpeek, List.count_append, List.count_singleton_self]
        rw [hcount]
        refine ⟨hm', hsplit', hall', by simp, ?_⟩
        rw [Bool.or_eq_true, hinvalid, hdot]
        omega) h ⟨[], .refl cs, rfl, by simp, by simp, by simp⟩
  have htake : cs.ahead.takeWhile isNumeral = t := by
    rw [hsplit, List.takeWhile_append_of_pos hall]
    cases hahead : s.cs.ahead with
    | nil => simp
    | cons c ts =>
      rw [eof_of_ahead_cons hahead, (ahead_cons hahead).2.1] at hexit
      rw [List.takeWhile_cons_of_neg (by simpa [isNumeral] using hexit), List.append_nil]
  rw [htake]
  exact ⟨hm, hsplit, by rw [hdot, List.one_le_count_iff], hinvalid⟩

/-- The digits and dots of a number start with one, too. -/
theorem startsNumber_takeWhile {c : Byte} {ts : Text} (h : startsNumber (c :: ts) = true) :
    ∃ us, (c :: ts).takeWhile isNumeral = c :: us ∧ startsNumber (c :: us) = true := by
  rw [startsNumber, Bool.or_eq_true, Bool.and_eq_true] at h
  have hc : isNumeral c = true := by
    rw [isNumeral, Bool.or_eq_true]
    exact h.imp_right And.left
  refine ⟨ts.takeWhile isNumeral, List.takeWhile_cons_of_pos hc, ?_⟩
  rw [startsNumber, Bool.or_eq_true, Bool.and_eq_true]
  refine h.imp_right fun hdot => ⟨hdot.1, ?_⟩
  cases ts with
  | nil => exact hdot.2
  | cons d us =>
    have hd : isNumeral d = true := by
      rw [isNumeral, Bool.or_eq_true]
      exact .inl hdot.2
    rw [List.takeWhile_cons_of_pos hd]
    exact hdot.2

theorem classifyNumber_ahead {s : NumberState} (hm : Moves cs s.cs)
    (hsplit : cs.ahead = cs.ahead.takeWhile isNumeral ++ s.cs.ahead)
    (hdot : s.sawDot = true ↔ byte '.' ∈ cs.ahead.takeWhile isNumeral)
    (hinvalid : s.invalid = true ↔ 2 ≤ (cs.ahead.takeWhile isNumeral).count (byte '.'))
    (hstop : s.cs.eof = true ∨ isdigit s.cs.peek = false)
    (h : classifyNumber strtod fuel cs s s.cs = some (tok, cs')) :
    tok.lexeme = cs.ahead.takeWhile isNumeral ∧ cs' = s.cs ∧
      (tok.kind, tok.literal) = classifyNumeral strtod tok.lexeme := by
  have hview : s.cs.view cs.cursor s.cs.cursor = cs.ahead.takeWhile isNumeral := by
    have hmove := hm.ahead_eq
    conv_lhs at hmove => rw [hsplit]
    exact (List.append_cancel_right hmove).symm
  simp only [classifyNumber, hview] at h
  by_cases hinv : s.invalid = true
  · rw [if_pos hinv] at h
    obtain ⟨rfl, rfl⟩ := Prod.mk.inj (Option.some.inj h)
    refine ⟨rfl, rfl, ?_⟩
    rw [tokenAt, classifyNumeral, if_pos (hinvalid.mp hinv)]
  rw [if_neg hinv] at h
  rw [hinvalid] at hinv
  by_cases hsaw : s.sawDot = true
  · rw [if_pos hsaw] at h
    rw [hdot] at hsaw
    split at h <;> rename_i hread <;> obtain ⟨rfl, rfl⟩ := Prod.mk.inj (Option.some.inj h) <;>
      refine ⟨rfl, rfl, ?_⟩ <;> rw [tokenAt, classifyNumeral, if_neg hinv, if_pos hsaw]
    · rw [if_pos hread]
    · rw [if_neg hread]
  · rw [if_neg hsaw] at h
    rw [hdot] at hsaw
    obtain ⟨cs₂, hdigits, h⟩ := Option.map_eq_some_iff.mp h
    obtain rfl := consumeWhile_stays hdigits hstop
    have hclass : classifyNumeral strtod (cs.ahead.takeWhile isNumeral) =
        match fromChars (cs.ahead.takeWhile isNumeral) with
        | (read, some value) =>
          if read ≠ (cs.ahead.takeWhile isNumeral).length then (.invalidNumber, .none)
          else (.integer, .int value)
        | (_, none) => (.invalidNumber, .none) := by
      rw [classifyNumeral, if_neg hinv, if_neg hsaw]
    rcases hchars : fromChars (cs.ahead.takeWhile isNumeral) with ⟨read, _ | value⟩
    · simp only [hchars] at h hclass
      obtain ⟨rfl, rfl⟩ := Prod.mk.inj h
      exact ⟨rfl, rfl, hclass.symm⟩
    · simp only [hchars] at h hclass
      split at h <;> rename_i hread <;> obtain ⟨rfl, rfl⟩ := Prod.mk.inj h <;>
        refine ⟨rfl, rfl, ?_⟩ <;> rw [tokenAt, hclass]
      · rw [if_pos hread]
      · rw [if_neg hread]

theorem lexNumber_ahead (h0 : (0 : Byte) ∉ cs.buffer)
    (h : lexNumber strtod fuel cs = some (tok, cs')) :
    tok.lexeme = cs.ahead.takeWhile isNumeral ∧ cs.ahead = tok.lexeme ++ cs'.ahead ∧
      (tok.kind, tok.literal) = classifyNumeral strtod tok.lexeme := by
  obtain ⟨s, hscan, h⟩ := Option.bind_eq_some_iff.mp h
  obtain ⟨cs₁, hskip, h⟩ := Option.bind_eq_some_iff.mp h
  obtain ⟨hm, hsplit, hdot, hinvalid⟩ := scanNumber_ahead h0 hscan
  obtain ⟨-, hstop⟩ := scanNumber_spec hscan
  obtain rfl : cs₁ = s.cs := by
    unfold skipInvalid at hskip
    split at hskip
    · exact consumeWhile_stays hskip hstop
    · exact (Option.some.inj hskip).symm
  obtain ⟨hlexeme, rfl, hclass⟩ := classifyNumber_ahead hm hsplit hdot hinvalid
    (hstop.imp_right fun hf => (Bool.or_eq_false_iff.mp hf).1) h
  exact ⟨hlexeme, by rw [hlexeme]; exact hsplit, hclass⟩

/-- One byte, or two that are a punctuator. -/
theorem lexPunctOrInvalid_ahead (h0 : (0 : Byte) ∉ cs.buffer) (he : cs.eof = false)
    (hs : rules.isIdentStart cs.peek = false) (hnumber : startsNumber cs.ahead = false)
    (h : (lexPunctOrInvalid rules cs : Token D × CharStream) = (tok, cs')) :
    ReadsAhead rules strtod cs tok cs' := by
  have hahead := ahead_of_lt ((eof_eq_false_iff cs).mp he)
  generalize hc : cs.peek = c at *
  generalize cs.buffer.drop (cs.cursor + 1) = ts at hahead
  have hone : cs.view cs.cursor (cs.cursor + 1) = [c] := by
    rw [view_ahead (by rw [hahead]; simp), hahead]
    rfl
  have hadvance : cs.consumeOne.2.ahead = ts := ahead_consumeOne h0 hahead
  have hsize : cs.size - cs.cursor = ts.length + 1 := by
    rw [CharStream.size, ← length_ahead, hahead, List.length_cons]
  have hnumber' : ∀ us, us.headD 0 = ts.headD 0 ∨ us = [] → startsNumber (c :: us) = false := by
    rw [hahead, startsNumber, Bool.or_eq_false_iff] at hnumber
    rintro us (hus | rfl)
    · rw [startsNumber, hus, hnumber.1, hnumber.2]
      rfl
    · rw [startsNumber, hnumber.1]
      simp [isdigit, byte]
  have hclass : ∀ us, us.headD 0 = ts.headD 0 ∨ us = [] → classify rules strtod (c :: us) =
      ((rules.punctuator (c :: us)).getD
        (if !isalnum c && !isspace c then .operator else .invalid), .none) := by
    intro us hus
    rw [classify, if_neg (by simp [hs]), if_neg (by simp [hnumber' us hus])]
    cases rules.punctuator (c :: us) <;> rfl
  have hlexeme : lexemeAt rules cs.ahead =
      if ts ≠ [] ∧ (rules.punctuator ((c :: ts).take 2)).isSome then (c :: ts).take 2 else [c] := by
    rw [hahead, lexemeAt, if_neg (by simp [hs]), if_neg (by simp [hnumber' ts (.inl rfl)])]
  unfold lexPunctOrInvalid twoCharPunct at h
  rw [hsize, hone, hc] at h
  by_cases htwo : ts ≠ [] ∧ (rules.punctuator ((c :: ts).take 2)).isSome
  · rw [if_pos htwo] at hlexeme
    obtain ⟨hne, hsome⟩ := htwo
    obtain ⟨kind, hkind⟩ := Option.isSome_iff_exists.mp hsome
    obtain ⟨b, us, rfl⟩ := List.exists_cons_of_ne_nil hne
    have hview : cs.view cs.cursor (cs.cursor + 2) = (c :: b :: us).take 2 := by
      rw [view_ahead (by rw [hahead]; simp), hahead]
    rw [if_pos (by simp), hview, hkind] at h
    obtain ⟨rfl, rfl⟩ := Prod.mk.inj h
    refine ⟨hlexeme.symm, ?_, ?_⟩
    · have hclass' := hclass [b] (.inl rfl)
      rw [show [c, b] = (c :: b :: us).take 2 from rfl, hkind] at hclass'
      exact hclass'.symm
    · rw [ahead_advance, hahead]
      rfl
  · rw [if_neg htwo] at hlexeme
    have hnone : (if ts.length + 1 ≥ 2 then
        rules.punctuator (cs.view cs.cursor (cs.cursor + 2)) else none) = none := by
      split
      · rename_i hlen
        rw [view_ahead (by rw [hahead, List.length_cons]; exact hlen), hahead]
        have hne : ts ≠ [] := by
          rintro rfl
          simp at hlen
        simpa [hne] using htwo
      · rfl
    rw [hnone] at h
    have hclass' := hclass [] (.inr rfl)
    cases hkind : rules.punctuator [c] with
    | some kind =>
      simp only [hkind] at h hclass'
      obtain ⟨rfl, rfl⟩ := Prod.mk.inj h
      exact ⟨hlexeme.symm, hclass'.symm, by rw [hadvance, hahead]; rfl⟩
    | none =>
      simp only [hkind] at h hclass'
      split at h <;> rename_i hop <;> obtain ⟨rfl, rfl⟩ := Prod.mk.inj h <;>
        refine ⟨hlexeme.symm, ?_, by rw [hadvance, hahead]; rfl⟩ <;>
          rw [tokenAt, hclass', Option.getD]
      · rw [if_pos hop]
      · rw [if_neg hop]

/-- The token that starts at the cursor. -/
theorem lexToken_ahead (hr : LawfulRules rules) (h0 : (0 : Byte) ∉ cs.buffer) (he : cs.eof = false)
    (h : lexToken rules strtod fuel cs = some (tok, cs')) : ReadsAhead rules strtod cs tok cs' := by
  have hahead := ahead_of_lt ((eof_eq_false_iff cs).mp he)
  have hstarts : startsNumber cs.ahead =
      (isdigit cs.peek || (cs.peek == byte '.' && isdigit cs.peek2)) := by
    rw [peek2_of_ahead hahead, hahead, startsNumber]
  unfold lexToken at h
  rw [if_neg (by simp [he])] at h
  split at h
  · rename_i hs
    exact lexIdentifierOrKeyword_ahead hr h0 he hs h
  · rename_i hs
    rw [← hstarts] at h
    split at h
    · rename_i hnumber
      obtain ⟨hlexeme, hsplit, hclass⟩ := lexNumber_ahead h0 h
      refine ⟨?_, ?_, hsplit⟩
      · rw [hlexeme, hahead, lexemeAt, if_neg hs, if_pos (by rwa [hahead] at hnumber)]
      · obtain ⟨us, hus, hstart⟩ := startsNumber_takeWhile (hahead ▸ hnumber)
        rw [hlexeme, hahead] at hclass
        rw [hlexeme, hahead, hclass, hus, classify, if_neg hs, if_pos hstart]
    · rename_i hnumber
      exact lexPunctOrInvalid_ahead h0 he (by simpa using hs) (by simpa using hnumber)
        (Option.some.inj h)

end

end AroundTheWorld.Lex
