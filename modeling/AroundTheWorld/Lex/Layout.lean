import Mathlib.Data.List.TakeWhile
import AroundTheWorld.Lex.Ahead
import AroundTheWorld.Lex.Lossless

/-!
# Layout does not change the tokens

A lexeme in front of a space or of the end is read again as it was. Whitespace and
comments that end with their line are skipped up to the next lexeme, so that the lexemes
of a source give the same tokens however they are laid out.
-/

namespace AroundTheWorld.Lex

open AroundTheWorld.Base CharStream

variable {D : Type}

/-- No word, punctuator or comment goes on with a space, and comments end with their
line. -/
structure SeparableRules (r : LexLanguageRules) : Prop where
  continue_space : ∀ c, isspace c = true → r.isIdentContinue c = false
  punctuator_space : ∀ t k, r.punctuator t = some k → ∀ c ∈ t, isspace c = false
  comment_line : ∀ d ∈ r.comments, d.kind = .line
  comment_opening : ∀ d ∈ r.comments, d.opening ≠ [] ∧ ∀ c ∈ d.opening, isspace c = false

theorem isspace_toNat {c : Byte} (h : isspace c = true) :
    c.toNat = 32 ∨ (9 ≤ c.toNat ∧ c.toNat ≤ 13) := by
  simp only [isspace, byte, Bool.or_eq_true, Bool.and_eq_true, beq_iff_eq, decide_eq_true_eq,
    UInt8.le_iff_toNat_le] at h
  rcases h with rfl | h
  · exact .inl rfl
  · exact .inr h

theorem isdigit_space {c : Byte} (h : isspace c = true) : isdigit c = false := by
  have hc := isspace_toNat h
  simp only [isdigit, byte, Bool.and_eq_false_iff, decide_eq_false_iff_not,
    UInt8.le_iff_toNat_le]
  simp
  omega

theorem isalnum_space {c : Byte} (h : isspace c = true) : isalnum c = false ∧ c ≠ byte '_' := by
  have hc := isspace_toNat h
  refine ⟨?_, ?_⟩
  · rw [isalnum, isdigit_space h, Bool.or_false]
    simp only [isalpha, byte, Bool.or_eq_false_iff, Bool.and_eq_false_iff, decide_eq_false_iff_not,
      UInt8.le_iff_toNat_le]
    simp
    omega
  · rintro rfl
    revert hc
    decide

theorem isNumeral_space {c : Byte} (h : isspace c = true) : isNumeral c = false := by
  have hc := isspace_toNat h
  rw [isNumeral, isdigit_space h, Bool.false_or, beq_eq_false_iff_ne]
  rintro rfl
  revert hc
  decide

private theorem lookup_space {table : List (String × TokenKind)}
    (h : table.all (fun e => (text e.1).all fun c => !isspace c) = true) (t : Text) (k : TokenKind)
    (hk : lookupSpelling table t = some k) : ∀ c ∈ t, isspace c = false := by
  obtain ⟨s, hs, rfl⟩ := lookupSpelling_some hk
  simpa using List.all_eq_true.mp h _ hs

private theorem opening_spaceless {comments : List CommentDelimiter}
    (h : comments.all (fun d => !d.opening.isEmpty && d.opening.all fun c => !isspace c) = true) :
    ∀ d ∈ comments, d.opening ≠ [] ∧ ∀ c ∈ d.opening, isspace c = false := by
  intro d hd
  simpa using List.all_eq_true.mp h d hd

theorem Language.separable (lang : Language) : SeparableRules lang.rules := by
  have hcontinue : ∀ c, isspace c = true → (isalnum c || c == byte '_') = false := by
    intro c hc
    obtain ⟨halnum, hne⟩ := isalnum_space hc
    simp [halnum, hne]
  cases lang
  · exact ⟨hcontinue, lookup_space (by decide), by decide, opening_spaceless (by decide)⟩
  · exact ⟨hcontinue, lookup_space (by decide), by decide, opening_spaceless (by decide)⟩

/-- Nothing, or a text that starts with a space. -/
def Separated (ts : Text) : Prop := ∀ c us, ts = c :: us → isspace c = true

theorem Separated.takeWhile_eq {p : Byte → Bool} {ts : Text} (h : Separated ts)
    (hp : ∀ c, isspace c = true → p c = false) : ts.takeWhile p = [] := by
  cases ts with
  | nil => rfl
  | cons c us => exact List.takeWhile_cons_of_neg (by simp [hp c (h c us rfl)])

section
variable {rules : LexLanguageRules} {ts rest : Text}

/-- A maximal piece of a text is maximal in front of a space. -/
theorem Separated.takeWhile_append {p : Byte → Bool} (hrest : Separated rest) (ts : Text)
    (hp : ∀ c, isspace c = true → p c = false) :
    (ts.takeWhile p ++ rest).takeWhile p = ts.takeWhile p := by
  rw [List.takeWhile_append_of_pos fun c hc => List.mem_takeWhile_imp hc, hrest.takeWhile_eq hp,
    List.append_nil]

theorem lexemeAt_cons (hr : LawfulRules rules) (c : Byte) (ts : Text) :
    ∃ us, lexemeAt rules (c :: ts) = c :: us := by
  rw [lexemeAt]
  split
  · rename_i hs
    exact ⟨_, List.takeWhile_cons_of_pos (hr.start_continue c hs)⟩
  · split
    · rename_i hnumber
      obtain ⟨vs, hvs, -⟩ := startsNumber_takeWhile hnumber
      exact ⟨vs, hvs⟩
    · split
      · exact ⟨_, rfl⟩
      · exact ⟨[], rfl⟩

theorem startsNumber_append {c : Byte} (h : startsNumber (c :: ts) = true) (rest : Text) :
    startsNumber (c :: (ts ++ rest)) = true := by
  cases ts with
  | nil =>
    rw [startsNumber, Bool.or_eq_true, Bool.and_eq_true] at h ⊢
    refine h.imp_right fun hdot => absurd hdot.2 ?_
    decide
  | cons d us => exact h

theorem Separated.not_startsNumber {c : Byte} (hrest : Separated rest)
    (h : ¬ startsNumber (c :: ts) = true) : ¬ startsNumber (c :: rest) = true := by
  simp only [startsNumber, Bool.or_eq_true, Bool.and_eq_true, not_or, not_and] at h ⊢
  refine ⟨h.1, fun _ => ?_⟩
  cases rest with
  | nil => decide
  | cons d us =>
    rw [List.headD_cons, isdigit_space (hrest d us rfl)]
    decide

/-- A lexeme in front of a space or of the end is read again. -/
theorem lexemeAt_append (hr : LawfulRules rules) (hsep : SeparableRules rules) (hts : ts ≠ [])
    (hrest : Separated rest) : lexemeAt rules (lexemeAt rules ts ++ rest) = lexemeAt rules ts := by
  obtain ⟨c, us, rfl⟩ := List.exists_cons_of_ne_nil hts
  by_cases hs : rules.isIdentStart c = true
  · have hlexeme : lexemeAt rules (c :: us) = (c :: us).takeWhile rules.isIdentContinue := by
      rw [lexemeAt, if_pos hs]
    have hcons : (c :: us).takeWhile rules.isIdentContinue =
        c :: us.takeWhile rules.isIdentContinue :=
      List.takeWhile_cons_of_pos (hr.start_continue c hs)
    have hagain := hrest.takeWhile_append (c :: us) hsep.continue_space
    rw [hlexeme]
    rw [hcons] at hagain ⊢
    rw [List.cons_append, lexemeAt, if_pos hs]
    exact hagain
  by_cases hnumber : startsNumber (c :: us) = true
  · obtain ⟨vs, hvs, hstart⟩ := startsNumber_takeWhile hnumber
    have hagain := hrest.takeWhile_append (c :: us) fun c => isNumeral_space
    rw [lexemeAt, if_neg hs, if_pos hnumber]
    rw [hvs] at hagain ⊢
    rw [List.cons_append, lexemeAt, if_neg hs, if_pos (startsNumber_append hstart rest)]
    exact hagain
  by_cases htwo : us ≠ [] ∧ (rules.punctuator ((c :: us).take 2)).isSome
  · have hlexeme : lexemeAt rules (c :: us) = (c :: us).take 2 := by
      rw [lexemeAt, if_neg hs, if_neg hnumber, if_pos htwo]
    obtain ⟨hne, hsome⟩ := htwo
    obtain ⟨b, vs, rfl⟩ := List.exists_cons_of_ne_nil hne
    have hnumber' : ¬ startsNumber (c :: b :: rest) = true := hnumber
    rw [hlexeme]
    show lexemeAt rules (c :: b :: rest) = [c, b]
    rw [lexemeAt, if_neg hs, if_neg hnumber', if_pos ⟨by simp, hsome⟩]
    rfl
  · rw [lexemeAt, if_neg hs, if_neg hnumber, if_neg htwo]
    show lexemeAt rules (c :: rest) = [c]
    have hone : ¬ (rest ≠ [] ∧ (rules.punctuator ((c :: rest).take 2)).isSome) := by
      rintro ⟨hne, hsome⟩
      obtain ⟨b, vs, rfl⟩ := List.exists_cons_of_ne_nil hne
      obtain ⟨kind, hkind⟩ := Option.isSome_iff_exists.mp hsome
      have hspace := hsep.punctuator_space _ _ hkind b (by simp)
      rw [hrest b vs rfl] at hspace
      cases hspace
    rw [lexemeAt, if_neg hs, if_neg (hrest.not_startsNumber hnumber), if_neg hone]

end

/-! ## Trivia -/

/-- No trivia starts here. -/
structure StartsToken (rules : LexLanguageRules) (ts : Text) : Prop where
  not_space : ∀ c us, ts = c :: us → isspace c = false
  not_comment : ∀ d ∈ rules.comments, ¬ d.opening <+: ts

section
variable {rules : LexLanguageRules} {fuel : Nat} {cs cs' : CharStream} {ts rest : Text}

theorem SeparableRules.opening_cons (hsep : SeparableRules rules) {d : CommentDelimiter}
    (hd : d ∈ rules.comments) : ∃ c us, d.opening = c :: us ∧ isspace c = false := by
  obtain ⟨hne, hspace⟩ := hsep.comment_opening d hd
  obtain ⟨c, us, hopen⟩ := List.exists_cons_of_ne_nil hne
  exact ⟨c, us, hopen, hspace c (by simp [hopen])⟩

theorem SeparableRules.startsToken_nil (hsep : SeparableRules rules) : StartsToken rules [] :=
  ⟨by simp, fun d hd hopen => (hsep.comment_opening d hd).1 (List.prefix_nil.mp hopen)⟩

/-- A comment reaches up to the end of its line. -/
theorem consumeCommentBody_ahead (hsep : SeparableRules rules) {d : CommentDelimiter}
    (hd : d ∈ rules.comments) (h0 : (0 : Byte) ∉ cs.buffer) (hopen : d.opening <+: cs.ahead)
    (h : consumeCommentBody d fuel (cs.advance d.opening.length) = some cs') :
    cs'.ahead = cs.ahead.dropWhile fun c => c != byte '\n' := by
  unfold consumeCommentBody at h
  simp only [hsep.comment_line d hd] at h
  have hbuffer : (0 : Byte) ∉ (cs.advance d.opening.length).buffer := by rwa [buffer_advance]
  obtain ⟨us, hus⟩ := hopen
  have hline : ∀ c ∈ d.opening, (c != byte '\n') = true := by
    intro c hc
    have hspace := (hsep.comment_opening d hd).2 c hc
    rw [bne_iff_ne]
    rintro rfl
    exact absurd hspace (by decide)
  rw [consumeWhile_ahead hbuffer h, ahead_advance, ← hus, List.drop_left,
    List.dropWhile_append_of_pos hline]

/-- The comment of the first delimiter that the text ahead starts with, if there is one. -/
theorem consumeCommentMaybe_ahead {delims : List CommentDelimiter}
    {found : Option (TriviaPiece × CharStream)}
    (h : consumeCommentMaybe fuel cs delims = some found) :
    (found = none ∧ ∀ d ∈ delims, d.opening ≠ [] → ¬ d.opening <+: cs.ahead) ∨
      ∃ piece cs', found = some (piece, cs') ∧ ∃ d ∈ delims, d.opening <+: cs.ahead ∧
        consumeCommentBody d fuel (cs.advance d.opening.length) = some cs' := by
  induction delims with
  | nil =>
    obtain rfl := Option.some.inj h
    exact .inl ⟨rfl, by simp⟩
  | cons delim delims ih =>
    have hskip : (delim.opening ≠ [] → ¬ delim.opening <+: cs.ahead) →
        consumeCommentMaybe fuel cs delims = some found →
        (found = none ∧ ∀ d ∈ delim :: delims, d.opening ≠ [] → ¬ d.opening <+: cs.ahead) ∨
          ∃ piece cs', found = some (piece, cs') ∧ ∃ d ∈ delim :: delims, d.opening <+: cs.ahead ∧
            consumeCommentBody d fuel (cs.advance d.opening.length) = some cs' := by
      intro hno hrest
      rcases ih hrest with ⟨hnone, hall⟩ | ⟨piece, cs', hfound, d, hd, hbody⟩
      · refine .inl ⟨hnone, fun d hd => ?_⟩
        rcases List.mem_cons.mp hd with rfl | hd
        · exact hno
        · exact hall d hd
      · exact .inr ⟨piece, cs', hfound, d, List.mem_cons_of_mem _ hd, hbody⟩
    have hsize : cs.size - cs.cursor = cs.ahead.length := (length_ahead cs).symm
    unfold consumeCommentMaybe at h
    rw [hsize] at h
    split at h
    · rename_i hnil
      exact hskip (fun hne => absurd hnil hne) h
    split at h
    · rename_i hshort
      exact hskip (fun _ hpre => absurd hpre.length_le (by omega)) h
    rename_i hlong
    rw [view_ahead (by omega)] at h
    split at h
    · rename_i hview
      exact hskip (fun _ hpre => hview (List.prefix_iff_eq_take.mp hpre).symm) h
    · rename_i hview
      obtain ⟨cs', hbody, rfl⟩ := Option.map_eq_some_iff.mp h
      exact .inr ⟨_, cs', rfl, delim, List.mem_cons_self,
        List.prefix_iff_eq_take.mpr (not_ne_iff.mp hview).symm, hbody⟩

/-- Whitespace, and comments that end with a newline. -/
inductive Layout (rules : LexLanguageRules) : Text → Prop where
  | nil : Layout rules []
  | space {c : Byte} {ts : Text} : isspace c = true → Layout rules ts → Layout rules (c :: ts)
  | comment {d : CommentDelimiter} {body ts : Text} : d ∈ rules.comments →
      (∀ c ∈ body, c ≠ byte '\n' ∧ c ≠ 0) → Layout rules ts →
      Layout rules (d.opening ++ (body ++ byte '\n' :: ts))

/-- What the loop over trivia leaves of a text. -/
inductive Skips (rules : LexLanguageRules) : Text → Text → Prop where
  | stop {ts : Text} : StartsToken rules ts → Skips rules ts ts
  | space {c : Byte} {ts rest : Text} : isspace c = true → Skips rules ts rest →
      Skips rules (c :: ts) rest
  | comment {d : CommentDelimiter} {ts rest : Text} : d ∈ rules.comments → d.opening <+: ts →
      Skips rules (ts.dropWhile fun c => c != byte '\n') rest → Skips rules ts rest

theorem Skips.starts (h : Skips rules ts rest) : StartsToken rules rest := by
  induction h with
  | stop hstart => exact hstart
  | space _ _ ih => exact ih
  | comment _ _ _ ih => exact ih

theorem SeparableRules.opening_space (hsep : SeparableRules rules) {d : CommentDelimiter}
    (hd : d ∈ rules.comments) {c : Byte} (hopen : d.opening <+: c :: ts) : isspace c = false := by
  obtain ⟨b, us, hcons, hb⟩ := hsep.opening_cons hd
  rw [hcons] at hopen
  obtain ⟨rfl, -⟩ := List.cons_prefix_cons.mp hopen
  exact hb

/-- What is left is determined by the text. -/
theorem Skips.unique (hsep : SeparableRules rules) {rest' : Text} (h : Skips rules ts rest)
    (h' : Skips rules ts rest') : rest = rest' := by
  induction h generalizing rest' with
  | stop hstart =>
    cases h' with
    | stop => rfl
    | @space c ts _ hc =>
      rw [hstart.not_space c ts rfl] at hc
      cases hc
    | comment hd hopen => exact absurd hopen (hstart.not_comment _ hd)
  | @space c ts rest hc _ ih =>
    cases h' with
    | stop hstart =>
      rw [hstart.not_space c ts rfl] at hc
      cases hc
    | space _ hrest => exact ih hrest
    | comment hd hopen =>
      rw [hsep.opening_space hd hopen] at hc
      cases hc
  | @comment d ts rest hd hopen _ ih =>
    cases h' with
    | stop hstart => exact absurd hopen (hstart.not_comment _ hd)
    | space hc =>
      rw [hsep.opening_space hd hopen] at hc
      cases hc
    | comment _ _ hrest => exact ih hrest

/-- Spaces may go first. -/
theorem Skips.of_dropWhile {p : Byte → Bool} (hp : ∀ c, p c = true → isspace c = true)
    (h : Skips rules (ts.dropWhile p) rest) : Skips rules ts rest := by
  induction ts with
  | nil => exact h
  | cons c ts ih =>
    by_cases hc : p c = true
    · rw [List.dropWhile_cons_of_pos hc] at h
      exact .space (hp c hc) (ih h)
    · rwa [List.dropWhile_cons_of_neg hc] at h

theorem dropLine_append (hline : ∀ c ∈ ts, (c != byte '\n') = true) (rest : Text) :
    (ts ++ byte '\n' :: rest).dropWhile (fun c => c != byte '\n') = byte '\n' :: rest := by
  rw [List.dropWhile_append_of_pos hline]
  exact List.dropWhile_cons_of_neg (by simp)

theorem Layout.skips (hsep : SeparableRules rules) (h : Layout rules ts)
    (hrest : StartsToken rules rest) : Skips rules (ts ++ rest) rest := by
  induction h with
  | nil => exact .stop hrest
  | space hc _ ih => exact .space hc ih
  | @comment d body ts hd hbody _ ih =>
    have hline : ∀ c ∈ d.opening ++ body, (c != byte '\n') = true := by
      intro c hc
      rw [bne_iff_ne]
      rcases List.mem_append.mp hc with hc | hc
      · rintro rfl
        exact absurd ((hsep.comment_opening d hd).2 _ hc) (by decide)
      · exact (hbody c hc).1
    have happend : d.opening ++ (body ++ byte '\n' :: ts) ++ rest =
        (d.opening ++ body) ++ (byte '\n' :: (ts ++ rest)) := by simp
    refine .comment hd ⟨body ++ byte '\n' :: (ts ++ rest), by simp⟩ ?_
    rw [happend, dropLine_append hline]
    exact .space (by decide) ih

/-- One turn of the loop goes over trivia, or finds a token. -/
theorem consumeTriviaStep_ahead (hsep : SeparableRules rules) {s t : TriviaState}
    (h0 : (0 : Byte) ∉ s.cs.buffer) (he : s.cs.eof = false)
    (h : consumeTriviaStep rules fuel s = some t) :
    (t.consumedAny = false → StartsToken rules t.cs.ahead) ∧
      ∀ rest, Skips rules t.cs.ahead rest → Skips rules s.cs.ahead rest := by
  have hahead := ahead_of_lt ((eof_eq_false_iff s.cs).mp he)
  unfold consumeTriviaStep at h
  split at h
  · rename_i hnewline
    obtain rfl := Option.some.inj h
    refine ⟨by simp, fun rest hrest => ?_⟩
    rw [hahead]
    rw [ahead_consumeOne h0 hahead] at hrest
    exact .space (by rw [hnewline]; decide) hrest
  · rename_i hnewline
    split at h
    · rename_i hspace
      obtain ⟨cs', hw, rfl⟩ := Option.map_eq_some_iff.mp h
      refine ⟨by simp, fun rest hrest => ?_⟩
      rw [consumeWhile_ahead h0 hw] at hrest
      exact hrest.of_dropWhile (by simp)
    · rename_i hspace
      obtain ⟨found, hfound, rfl⟩ := Option.map_eq_some_iff.mp h
      rcases consumeCommentMaybe_ahead hfound with
        ⟨rfl, hnone⟩ | ⟨piece, cs', rfl, d, hd, hopen, hbody⟩
      · refine ⟨fun _ => ⟨?_, fun d hd => hnone d hd (hsep.comment_opening d hd).1⟩, fun _ h => h⟩
        intro c us hcons
        obtain ⟨rfl, -⟩ := List.cons.inj (hahead.symm.trans hcons)
        simpa using hspace
      · refine ⟨by simp, fun rest hrest => ?_⟩
        rw [consumeCommentBody_ahead hsep hd h0 hopen hbody] at hrest
        exact .comment hd hopen hrest

theorem consumeTrivia_ahead (hr : LawfulRules rules) (hsep : SeparableRules rules)
    {trivia : List TriviaPiece} (h0 : (0 : Byte) ∉ cs.buffer)
    (h : consumeTrivia rules fuel cs = some (cs', trivia)) : Skips rules cs.ahead cs'.ahead := by
  obtain ⟨s, hloop, heq⟩ := Option.map_eq_some_iff.mp h
  obtain ⟨rfl, rfl⟩ := Prod.mk.inj heq
  obtain ⟨⟨-, hstart, hskips⟩, hexit⟩ := whileLoop_invariant
    (fun s : TriviaState => Moves cs s.cs ∧
      (s.consumedAny = false → StartsToken rules s.cs.ahead) ∧
      ∀ rest, Skips rules s.cs.ahead rest → Skips rules cs.ahead rest)
    (fun s t hs hc ht => by
      obtain ⟨hm, -, hs⟩ := hs
      simp only [Bool.and_eq_true, Bool.not_eq_true'] at hc
      have hs0 : (0 : Byte) ∉ s.cs.buffer := by rwa [hm.buffer_eq]
      obtain ⟨hstart, hstep⟩ := consumeTriviaStep_ahead hsep hs0 hc.1 ht
      refine ⟨?_, hstart, fun rest hrest => hs rest (hstep rest hrest)⟩
      rcases consumeTriviaStep_cases hr ht with ⟨_, hm', -⟩ | rfl
      · exact hm.trans hm'
      · exact hm) hloop
    ⟨.refl cs, by simp, fun _ h => h⟩
  refine hskips _ (.stop ?_)
  simp only [Bool.and_eq_false_iff, Bool.not_eq_false'] at hexit
  rcases hexit with he | hany
  · rw [eof_iff_ahead.mp he]
    exact hsep.startsToken_nil
  · exact hstart hany

end

/-! ## Sources written anew -/

section
variable {rules : LexLanguageRules} {strtod : Text → D × Nat}

/-- One call of `next` skips trivia and reads one token, or `Eof` at the end. -/
theorem next_ahead (hr : LawfulRules rules) (hsep : SeparableRules rules) {l l' : Lexer}
    {tok : Token D} (h0 : (0 : Byte) ∉ l.cs.buffer) (h : l.Next rules strtod tok l') :
    ∃ cs : CharStream, Skips rules l.cs.ahead cs.ahead ∧
      ((cs.ahead = [] ∧ tok.content = (.eof, [], .none)) ∨
        (cs.ahead ≠ [] ∧ tok.kind ≠ .eof ∧ (0 : Byte) ∉ cs.ahead ∧
          ReadsAhead rules strtod cs tok l'.cs)) := by
  obtain ⟨fuel, h⟩ := h
  obtain ⟨⟨cs, trivia⟩, htrivia, h⟩ := Option.bind_eq_some_iff.mp h
  obtain ⟨⟨tok', cs'⟩, htok, heq⟩ := Option.map_eq_some_iff.mp h
  obtain ⟨rfl, rfl⟩ := Prod.mk.inj heq
  have hskips := consumeTrivia_ahead hr hsep h0 htrivia
  have hm := (consumeTrivia_spec hr htrivia).1
  have hcs : (0 : Byte) ∉ cs.buffer := by rwa [hm.buffer_eq]
  refine ⟨cs, hskips, ?_⟩
  rcases lexToken_spec hr htok with ⟨he, rfl, -⟩ | ⟨he, hlexes⟩
  · exact .inl ⟨eof_iff_ahead.mp he, rfl⟩
  · refine .inr ⟨fun hnil => ?_, hlexes.kind_ne, not_mem_ahead hcs, lexToken_ahead hr hcs he htok⟩
    rw [eof_iff_ahead.mpr hnil] at he
    cases he

/-- The lexemes in order, and between each two whitespace, behind which a layout may
follow. -/
inductive Written (rules : LexLanguageRules) : List Text → Text → Prop where
  | nil : Written rules [] []
  | last (lexeme : Text) : Written rules [lexeme] lexeme
  | cons {lexeme blank layout ts : Text} {lexemes : List Text} : blank ≠ [] →
      (∀ c ∈ blank, isspace c = true) → Layout rules layout → Written rules lexemes ts →
      Written rules (lexeme :: lexemes) (lexeme ++ (blank ++ (layout ++ ts)))

/-- The lexemes in front of `Eof`. -/
def lexemes (out : List (List TriviaPiece × Token D)) : List Text :=
  out.dropLast.map fun o => o.2.lexeme

theorem Layout.blank_append {blank layout : Text} (hblank : ∀ c ∈ blank, isspace c = true)
    (h : Layout rules layout) : Layout rules (blank ++ layout) := by
  induction blank with
  | nil => exact h
  | cons c blank ih =>
    rw [List.forall_mem_cons] at hblank
    exact .space hblank.1 (ih hblank.2)

theorem Layout.no_nul (hr : LawfulRules rules) {ts : Text} (h : Layout rules ts) :
    (0 : Byte) ∉ ts := by
  induction h with
  | nil => simp
  | space hc _ ih =>
    rw [List.mem_cons, not_or]
    refine ⟨?_, ih⟩
    rintro rfl
    exact absurd hc (by decide)
  | @comment d body ts hd hbody _ ih =>
    simp only [List.mem_append, List.mem_cons, not_or]
    exact ⟨(hr.comments_nul d hd).1, fun hmem => (hbody _ hmem).2 rfl, by decide, ih⟩

/-- An opening has no space, so that it does not reach beyond a text. -/
theorem SeparableRules.opening_within (hsep : SeparableRules rules) {d : CommentDelimiter}
    (hd : d ∈ rules.comments) (hrest : Separated rest) (hopen : d.opening <+: ts ++ rest) :
    d.opening <+: ts := by
  rcases List.prefix_or_prefix_of_prefix hopen (List.prefix_append ts rest) with h | ⟨xs, hxs⟩
  · exact h
  · rw [← hxs, List.prefix_append_right_inj] at hopen
    cases xs with
    | nil =>
      rw [List.append_nil] at hxs
      exact hxs ▸ List.prefix_rfl
    | cons b xs =>
      obtain ⟨ys, rfl⟩ := hopen
      have hspace := (hsep.comment_opening d hd).2 b (by simp [← hxs])
      rw [hrest b _ rfl] at hspace
      cases hspace

/-- In front of a space or of the end, a lexeme still starts a token. -/
theorem StartsToken.lexeme (hr : LawfulRules rules) (hsep : SeparableRules rules)
    {ts vs rest : Text}
    (h : StartsToken rules ts) (hne : ts ≠ []) (hts : ts = lexemeAt rules ts ++ vs)
    (hrest : Separated rest) : StartsToken rules (lexemeAt rules ts ++ rest) := by
  obtain ⟨c, us, rfl⟩ := List.exists_cons_of_ne_nil hne
  obtain ⟨ws, hws⟩ := lexemeAt_cons hr c us
  refine ⟨?_, ?_⟩
  · intro b vs hcons
    rw [hws] at hcons
    obtain ⟨rfl, -⟩ := List.cons.inj hcons
    exact h.not_space c us rfl
  · intro d hd hopen
    have hshort := hsep.opening_within hd hrest hopen
    exact h.not_comment d hd (hshort.trans ⟨vs, hts.symm⟩)

/-- Behind the first lexeme. -/
theorem Written.uncons {lexeme ts : Text} {lexemes : List Text}
    (h : Written rules (lexeme :: lexemes) ts) : ∃ lead ts', Layout rules lead ∧
      Written rules lexemes ts' ∧ ts = lexeme ++ (lead ++ ts') ∧ Separated (lead ++ ts') := by
  cases h with
  | last => exact ⟨[], [], .nil, .nil, (List.append_nil _).symm, by simp [Separated]⟩
  | @cons _ blank layout ts' _ hne hblank hlayout hts =>
    refine ⟨blank ++ layout, ts', hlayout.blank_append hblank, hts, by rw [List.append_assoc], ?_⟩
    obtain ⟨c, us, rfl⟩ := List.exists_cons_of_ne_nil hne
    intro b vs hcons
    rw [← (List.cons.inj hcons).1]
    exact hblank c (by simp)

theorem Written.no_nul (hr : LawfulRules rules) {ts : Text} {lexemes : List Text}
    (h : Written rules lexemes ts) (h0 : ∀ lexeme ∈ lexemes, (0 : Byte) ∉ lexeme) :
    (0 : Byte) ∉ ts := by
  induction h with
  | nil => simp
  | last lexeme => exact h0 lexeme (by simp)
  | cons _ hblank hlayout _ ih =>
    rw [List.forall_mem_cons] at h0
    have hlead := (hlayout.blank_append hblank).no_nul hr
    simp only [List.mem_append, not_or] at hlead ⊢
    exact ⟨h0.1, hlead.1, hlead.2, ih h0.2⟩

theorem lexemes_cons {l : Lexer} {o : List TriviaPiece × Token D}
    {out : List (List TriviaPiece × Token D)} (hrun : Lexer.Run rules strtod l out) :
    lexemes (o :: out) = o.2.lexeme :: lexemes out := by
  cases hrun <;> rfl

theorem Run.lexemes_no_nul (hr : LawfulRules rules) (hsep : SeparableRules rules) {l : Lexer}
    {out : List (List TriviaPiece × Token D)} (hrun : Lexer.Run rules strtod l out)
    (h0 : (0 : Byte) ∉ l.cs.buffer) : ∀ lexeme ∈ lexemes out, (0 : Byte) ∉ lexeme := by
  induction hrun with
  | eof => simp [lexemes]
  | @step l l' tok out hnext hkind hrest ih =>
    rw [lexemes_cons hrest, List.forall_mem_cons]
    refine ⟨?_, ih (by rwa [(next_moves hr hnext).buffer_eq])⟩
    obtain ⟨cs, -, hlast⟩ := next_ahead hr hsep h0 hnext
    rcases hlast with ⟨-, hcontent⟩ | ⟨-, -, hcs, hreads⟩
    · exact absurd (Prod.mk.inj hcontent).1 hkind
    · intro hmem
      rw [hreads.ahead] at hcs
      exact hcs (List.mem_append_left _ hmem)

/-- The token of one lexer is read by another that has its lexeme ahead. -/
theorem next_again (hr : LawfulRules rules) (hsep : SeparableRules rules) {cs : CharStream}
    {l₂ l' : Lexer} {tok : Token D} {lead rest : Text} (hstart : StartsToken rules cs.ahead)
    (hne : cs.ahead ≠ []) (hreads : ReadsAhead rules strtod cs tok l'.cs)
    (h0 : (0 : Byte) ∉ l₂.cs.buffer) (hlead : Layout rules lead)
    (hahead : l₂.cs.ahead = lead ++ (tok.lexeme ++ rest)) (hrest : Separated rest) :
    ∃ (tok₂ : Token D) (l₂' : Lexer), l₂.Next rules strtod tok₂ l₂' ∧
      tok₂.content = tok.content ∧
      tok₂.kind ≠ .eof ∧ l₂'.cs.ahead = rest := by
  obtain ⟨tok₂, l₂', hnext⟩ : ∃ (tok₂ : Token D) (l₂' : Lexer), l₂.Next rules strtod tok₂ l₂' :=
    next_total hr h0
  obtain ⟨cs₂, hskips, hlast⟩ := next_ahead hr hsep h0 hnext
  rw [hreads.lexeme] at hahead
  have hagain := hstart.lexeme hr hsep hne (by rw [← hreads.lexeme]; exact hreads.ahead) hrest
  rw [hahead] at hskips
  have hcs₂ := hskips.unique hsep (hlead.skips hsep hagain)
  obtain ⟨b, us, hcons⟩ := List.exists_cons_of_ne_nil hne
  obtain ⟨vs, hlexeme⟩ := lexemeAt_cons hr b us
  rcases hlast with ⟨hnil, -⟩ | ⟨-, hkind, -, hreads₂⟩
  · rw [hcs₂, hcons, hlexeme] at hnil
    cases hnil
  · have hsame : tok₂.lexeme = tok.lexeme := by
      rw [hreads₂.lexeme, hcs₂, lexemeAt_append hr hsep hne hrest, hreads.lexeme]
    have hclass : (tok₂.kind, tok₂.literal) = (tok.kind, tok.literal) := by
      rw [hreads₂.class_, hsame, hreads.class_]
    obtain ⟨hkinds, hliterals⟩ := Prod.mk.inj hclass
    refine ⟨tok₂, l₂', hnext, ?_, hkind, ?_⟩
    · rw [Token.content, hkinds, hsame, hliterals, Token.content]
    have hsplit := hreads₂.ahead
    rw [hcs₂, hsame, hreads.lexeme] at hsplit
    exact (List.append_cancel_left hsplit).symm

/-- The induction is on the run; `lead` is what is left of the layout in front. -/
theorem Run.relaid (hr : LawfulRules rules) (hsep : SeparableRules rules) {l l₂ : Lexer}
    {out : List (List TriviaPiece × Token D)} (hrun : Lexer.Run rules strtod l out)
    (h0 : (0 : Byte) ∉ l.cs.buffer) (h0₂ : (0 : Byte) ∉ l₂.cs.buffer) {lead ts : Text}
    (hlead : Layout rules lead) (hts : Written rules (lexemes out) ts)
    (hahead : l₂.cs.ahead = lead ++ ts) :
    ∃ out₂, Lexer.Run rules strtod l₂ out₂ ∧ out₂.map (·.2.content) = out.map (·.2.content) := by
  induction hrun generalizing l₂ lead ts with
  | @eof l l' tok hnext he =>
    obtain rfl : ts = [] := by
      cases hts
      rfl
    obtain ⟨cs, -, hlast⟩ := next_ahead hr hsep h0 hnext
    obtain ⟨tok₂, l₂', hnext₂⟩ : ∃ (tok₂ : Token D) (l₂' : Lexer),
        l₂.Next rules strtod tok₂ l₂' := next_total hr h0₂
    obtain ⟨cs₂, hskips, hlast₂⟩ := next_ahead hr hsep h0₂ hnext₂
    rw [hahead] at hskips
    have hend := hskips.unique hsep (hlead.skips hsep hsep.startsToken_nil)
    rcases hlast with ⟨-, hcontent⟩ | ⟨-, hne, -⟩
    · rcases hlast₂ with ⟨-, hcontent₂⟩ | ⟨hne, -⟩
      · refine ⟨_, .eof hnext₂ (Prod.mk.inj hcontent₂).1, ?_⟩
        show [tok₂.content] = [tok.content]
        rw [hcontent, hcontent₂]
      · exact absurd hend hne
    · exact absurd he hne
  | @step l l' tok out hnext hkind hrest ih =>
    obtain ⟨cs, hskips, hlast⟩ := next_ahead hr hsep h0 hnext
    have h0' : (0 : Byte) ∉ l'.cs.buffer := by rwa [(next_moves hr hnext).buffer_eq]
    rcases hlast with ⟨-, hcontent⟩ | ⟨hne, -, -, hreads⟩
    · exact absurd (Prod.mk.inj hcontent).1 hkind
    rw [lexemes_cons hrest] at hts
    -- what stands behind the lexeme is a layout and the other lexemes
    obtain ⟨lead', ts', hlead', hts', rfl, hseparated⟩ : ∃ lead' ts', Layout rules lead' ∧
        Written rules (lexemes out) ts' ∧ ts = tok.lexeme ++ (lead' ++ ts') ∧
        Separated (lead' ++ ts') := hts.uncons
    obtain ⟨tok₂, l₂', hnext₂, hcontent, hkind₂, hahead₂⟩ :=
      next_again hr hsep hskips.starts hne hreads h0₂ hlead hahead hseparated
    have h0₂' : (0 : Byte) ∉ l₂'.cs.buffer := by rwa [(next_moves hr hnext₂).buffer_eq]
    obtain ⟨out₂, hrun₂, hmap⟩ := ih h0' h0₂' hlead' hts' hahead₂
    refine ⟨_, .step hnext₂ hkind₂ hrun₂, ?_⟩
    rw [List.map_cons, List.map_cons, hmap]
    exact congrArg (· :: out.map (·.2.content)) hcontent

/-- However the lexemes of a source that reaches `Eof` are written, with whitespace
between each two and comments behind it, the tokens are the same. -/
theorem layout_irrelevant (lang : Language) (strtod : Text → D × Nat) {buffer : Text}
    {out : List (List TriviaPiece × Token D)}
    (hrun : Lexer.Run lang.rules strtod (Lexer.ofBuffer buffer) out) {lead ts : Text}
    (hlead : Layout lang.rules lead) (hts : Written lang.rules (lexemes out) ts) :
    ∃ out₂, Lexer.Run lang.rules strtod (Lexer.ofBuffer (lead ++ ts)) out₂ ∧
      out₂.map (·.2.content) = out.map (·.2.content) := by
  have hr := lang.lawful
  have hsep := lang.separable
  have h0 : (0 : Byte) ∉ buffer := by
    intro hmem
    obtain ⟨p, hp, hzero⟩ := List.mem_iff_getElem.mp hmem
    exact Run.no_nul_ahead hr hrun p hp (Nat.zero_le _) hzero
  have h0₂ : (0 : Byte) ∉ lead ++ ts := by
    rw [List.mem_append, not_or]
    exact ⟨hlead.no_nul hr, hts.no_nul hr (Run.lexemes_no_nul hr hsep hrun h0)⟩
  exact Run.relaid hr hsep hrun h0 h0₂ hlead hts rfl

/-- `x<=.5*y` on three lines with a comment. -/
theorem layout_irrelevant_comparison : ∃ out out₂ : List (List TriviaPiece × Token Nat),
    Lexer.Run athensLexRules (fun t => (0, t.length)) (Lexer.ofBuffer (text "x<=.5*y")) out ∧
    Lexer.Run athensLexRules (fun t => (0, t.length))
      (Lexer.ofBuffer (text "x <=\n.5\t# half\n*\ny")) out₂ ∧
    out₂.map (·.2.content) = out.map (·.2.content) ∧ out.length = 6 := by
  obtain ⟨out, ⟨hlen, hlexemes⟩, hout⟩ : ∃ out : List (List TriviaPiece × Token Nat),
      (out.length = 6 ∧
        lexemes out = [text "x", text "<=", text ".5", text "*", text "y"]) ∧
      (Lexer.ofBuffer (text "x<=.5*y")).tokenize athensLexRules (fun t => (0, t.length)) 20 9 =
        some out := ⟨_, by decide +kernel, rfl⟩
  have hrun := tokenize_run hout
  have hbody : ∀ c ∈ text " half", c ≠ byte '\n' ∧ c ≠ 0 := by
    have h : (text " half").all (fun c => c != byte '\n' && c != 0) = true := by decide
    intro c hc
    simpa using List.all_eq_true.mp h c hc
  have hcomment : Layout athensLexRules (text "# half\n") :=
    @Layout.comment _ ⟨.line, text "#", text ""⟩ (text " half") _ (by decide) hbody .nil
  have hcons : ∀ {lexeme layout ts : Text} {lexemes : List Text} (c : Byte), isspace c = true →
      Layout athensLexRules layout → Written athensLexRules lexemes ts →
      Written athensLexRules (lexeme :: lexemes) (lexeme ++ ([c] ++ (layout ++ ts))) := by
    intro lexeme layout ts lexemes c hc hlayout hts
    exact .cons (by simp) (by simpa using hc) hlayout hts
  have hwritten : Written athensLexRules (lexemes out) (text "x <=\n.5\t# half\n*\ny") := by
    rw [hlexemes]
    exact hcons (byte ' ') (by decide) .nil (hcons (byte '\n') (by decide) .nil
      (hcons (byte '\t') (by decide) hcomment (hcons (byte '\n') (by decide) .nil (.last _))))
  obtain ⟨out₂, hrun₂, hsame⟩ := layout_irrelevant .athens _ hrun .nil hwritten
  exact ⟨out, out₂, hrun, hrun₂, hsame, hlen⟩

end

end AroundTheWorld.Lex
