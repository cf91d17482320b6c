import AroundTheWorld.Lex.Layout

/-!
# Lines are read one by one

A newline ends a comment and a lexeme. The tokens of a line and a text behind it are thus
those of the line, followed by those of the text.
-/

namespace AroundTheWorld.Lex

open AroundTheWorld.Base CharStream

variable {D : Type}

section
variable {rules : LexLanguageRules} {ts rest : Text}

/-! ## In front of a newline -/

theorem separated_newline (more : Text) : Separated (byte '\n' :: more) := by
  rintro c us hcons
  obtain ⟨rfl, -⟩ := List.cons.inj hcons
  decide

theorem StartsToken.append (hsep : SeparableRules rules) (h : StartsToken rules ts) (hne : ts ≠ [])
    (hrest : Separated rest) : StartsToken rules (ts ++ rest) := by
  refine ⟨?_, fun d hd hopen => h.not_comment d hd (hsep.opening_within hd hrest hopen)⟩
  intro c us hcons
  obtain ⟨b, vs, rfl⟩ := List.exists_cons_of_ne_nil hne
  obtain ⟨rfl, -⟩ := List.cons.inj hcons
  exact h.not_space b vs rfl

/-- A lexeme stays as it is when something separated comes behind its text. -/
theorem lexemeAt_before (hsep : SeparableRules rules) (hne : ts ≠ []) (hrest : Separated rest) :
    lexemeAt rules (ts ++ rest) = lexemeAt rules ts := by
  obtain ⟨c, us, rfl⟩ := List.exists_cons_of_ne_nil hne
  have htake : ∀ p : Byte → Bool, (∀ c, isspace c = true → p c = false) →
      (c :: (us ++ rest)).takeWhile p = (c :: us).takeWhile p := by
    intro p hp
    show ((c :: us) ++ rest).takeWhile p = _
    rw [List.takeWhile_append, hrest.takeWhile_eq hp, List.append_nil]
    split <;> rename_i hlen
    · exact (List.takeWhile_prefix p).eq_of_length hlen |>.symm
    · rfl
  have hnumber : startsNumber (c :: (us ++ rest)) = startsNumber (c :: us) := by
    cases us with
    | cons b us => rfl
    | nil =>
      cases hstart : startsNumber [c] with
      | true => exact startsNumber_append hstart rest
      | false =>
        have hnot : ¬ startsNumber [c] = true := by simp [hstart]
        simpa using hrest.not_startsNumber hnot
  have htwo : (us ++ rest ≠ [] ∧ (rules.punctuator ((c :: (us ++ rest)).take 2)).isSome) ↔
      (us ≠ [] ∧ (rules.punctuator ((c :: us).take 2)).isSome) := by
    cases us with
    | cons b us => simp
    | nil =>
      simp only [List.nil_append, ne_eq, not_true_eq_false, false_and, iff_false, not_and]
      intro hne hsome
      obtain ⟨b, vs, rfl⟩ := List.exists_cons_of_ne_nil hne
      obtain ⟨kind, hkind⟩ := Option.isSome_iff_exists.mp hsome
      have hspace := hsep.punctuator_space _ _ hkind b (by simp)
      rw [hrest b vs rfl] at hspace
      cases hspace
  rw [List.cons_append, lexemeAt, lexemeAt, htake _ hsep.continue_space,
    htake _ fun c => isNumeral_space, hnumber, if_congr htwo rfl rfl]
  refine if_congr Iff.rfl rfl (if_congr Iff.rfl rfl ?_)
  split
  · rename_i hpunct
    obtain ⟨b, vs, rfl⟩ := List.exists_cons_of_ne_nil hpunct.1
    rfl
  · rfl

/-! ## Trivia -/

theorem dropLine_newline (ts more : Text) :
    (ts ++ byte '\n' :: more).dropWhile (fun c => c != byte '\n') =
      ts.dropWhile (fun c => c != byte '\n') ++ byte '\n' :: more := by
  induction ts with
  | nil => exact List.dropWhile_cons_of_neg (by simp)
  | cons c ts ih =>
    by_cases hc : c = byte '\n'
    · simp [hc]
    · simpa [hc] using ih

/-- A line that is trivia only is skipped with the newline behind it. -/
theorem Skips.line {more : Text} (h : Skips rules ts []) (hmore : Skips rules more rest) :
    Skips rules (ts ++ byte '\n' :: more) rest := by
  generalize hend : ([] : Text) = last at h
  induction h with
  | stop =>
    subst hend
    exact .space (by decide) hmore
  | space hc _ ih => exact .space hc (ih hend)
  | comment hd hopen _ ih =>
    refine .comment hd (hopen.trans (List.prefix_append _ _)) ?_
    rw [dropLine_newline]
    exact ih hend

/-- In front of a token, trivia is skipped whatever comes behind the line. -/
theorem Skips.before (hsep : SeparableRules rules) (more : Text) (h : Skips rules ts rest)
    (hne : rest ≠ []) : Skips rules (ts ++ byte '\n' :: more) (rest ++ byte '\n' :: more) := by
  induction h with
  | stop hstart => exact .stop (hstart.append hsep hne (separated_newline more))
  | space hc _ ih => exact .space hc (ih hne)
  | comment hd hopen _ ih =>
    refine .comment hd (hopen.trans (List.prefix_append _ _)) ?_
    rw [dropLine_newline]
    exact ih hne

end

/-! ## Tokens -/

section
variable (rules : LexLanguageRules) (strtod : Text → D × Nat)

/-- The contents of the tokens of a text, up to its end. -/
inductive Reads : Text → List (TokenKind × Text × LiteralValue D) → Prop where
  | eof {ts : Text} : Skips rules ts [] → Reads ts []
  | token {ts us rest : Text} {contents : List (TokenKind × Text × LiteralValue D)} :
      Skips rules ts us → us ≠ [] → us = lexemeAt rules us ++ rest → Reads rest contents →
      Reads ts (((classify rules strtod (lexemeAt rules us)).1, lexemeAt rules us,
        (classify rules strtod (lexemeAt rules us)).2) :: contents)

variable {rules strtod} {ts : Text} {contents contents' : List (TokenKind × Text × LiteralValue D)}

theorem Reads.unique (hsep : SeparableRules rules) (h : Reads rules strtod ts contents)
    (h' : Reads rules strtod ts contents') : contents = contents' := by
  induction h generalizing contents' with
  | eof hskips =>
    cases h' with
    | eof => rfl
    | token hskips' hne => exact absurd (hskips.unique hsep hskips').symm hne
  | token hskips hne hsplit _ ih =>
    cases h' with
    | eof hskips' => exact absurd (hskips.unique hsep hskips') hne
    | token hskips' _ hsplit' hrest' =>
      obtain rfl := hskips.unique hsep hskips'
      obtain rfl := List.append_cancel_left (hsplit.symm.trans hsplit')
      rw [ih hrest']

/-- The induction is on the tokens of the line. -/
theorem Reads.append (hsep : SeparableRules rules) {more : Text}
    (h : Reads rules strtod ts contents) (hmore : Reads rules strtod more contents') :
    Reads rules strtod (ts ++ byte '\n' :: more) (contents ++ contents') := by
  induction h with
  | eof hskips =>
    cases hmore with
    | eof hskips' => exact .eof (hskips.line hskips')
    | token hskips' hne hsplit hrest => exact .token (hskips.line hskips') hne hsplit hrest
  | @token ts us rest contents hskips hne hsplit _ ih =>
    have hlexeme := lexemeAt_before hsep hne (separated_newline more)
    have hbefore := hskips.before hsep more hne
    rw [← hlexeme]
    refine .token hbefore (by simp [hne]) ?_ ih
    rw [hlexeme, ← List.append_assoc, ← hsplit]

/-- The tokens of a run, without `Eof`. -/
def tokensOf (out : List (List TriviaPiece × Token D)) : List (Token D) := out.dropLast.map (·.2)

theorem Run.reads (hr : LawfulRules rules) (hsep : SeparableRules rules) {l : Lexer}
    {out : List (List TriviaPiece × Token D)} (hrun : Lexer.Run rules strtod l out)
    (h0 : (0 : Byte) ∉ l.cs.buffer) :
    Reads rules strtod l.cs.ahead ((tokensOf out).map (·.content)) := by
  induction hrun with
  | eof hnext he =>
    obtain ⟨cs, hskips, hlast⟩ := next_ahead hr hsep h0 hnext
    rcases hlast with ⟨hnil, -⟩ | ⟨-, hne, -⟩
    · rw [hnil] at hskips
      exact .eof hskips
    · exact absurd he hne
  | @step l l' tok out hnext hkind hrest ih =>
    have h0' : (0 : Byte) ∉ l'.cs.buffer := by rwa [(next_moves hr hnext).buffer_eq]
    obtain ⟨cs, hskips, hlast⟩ := next_ahead hr hsep h0 hnext
    rcases hlast with ⟨-, hcontent⟩ | ⟨hne, -, -, hreads⟩
    · exact absurd (Prod.mk.inj hcontent).1 hkind
    · have htoken := Reads.token hskips hne (by rw [← hreads.lexeme]; exact hreads.ahead) (ih h0')
      rw [← hreads.lexeme, ← hreads.class_] at htoken
      cases hrest <;> exact htoken

theorem Reads.lines (hsep : SeparableRules rules) {lines : List Text}
    {contents : List (List (TokenKind × Text × LiteralValue D))}
    (h : List.Forall₂ (Reads rules strtod) lines contents) :
    Reads rules strtod ([byte '\n'].intercalate lines) contents.flatten := by
  induction h with
  | nil => exact .eof (.stop hsep.startsToken_nil)
  | @cons line first lines contents hline hlines ih =>
    cases hlines with
    | nil => simpa using hline
    | cons => simpa [List.intercalate_cons_cons] using hline.append hsep ih

end

/-- A source is read as its lines are, wherever the tokens stand. -/
theorem run_lines (lang : Language) {strtod : Text → D × Nat} {lines : List Text}
    {outs : List (List (List TriviaPiece × Token D))}
    (h : List.Forall₂ (fun line out => Lexer.Run lang.rules strtod (Lexer.ofBuffer line) out)
      lines outs) :
    ∃ out, Lexer.Run lang.rules strtod (Lexer.ofBuffer ([byte '\n'].intercalate lines)) out ∧
      (tokensOf out).map (·.content) =
        (outs.map fun out => (tokensOf out).map (·.content)).flatten := by
  have hr := lang.lawful
  have hsep := lang.separable
  have hzero : ∀ line out, Lexer.Run lang.rules strtod (Lexer.ofBuffer line) out →
      (0 : Byte) ∉ line := by
    intro line out hrun hmem
    obtain ⟨p, hp, hzero⟩ := List.mem_iff_getElem.mp hmem
    exact Run.no_nul_ahead hr hrun p hp (Nat.zero_le _) hzero
  have hreads : List.Forall₂ (Reads lang.rules strtod) lines
      (outs.map fun out => (tokensOf out).map (·.content)) := by
    induction h with
    | nil => exact .nil
    | cons hrun _ ih => exact .cons (Run.reads hr hsep hrun (hzero _ _ hrun)) ih
  have h0 : (0 : Byte) ∉ [byte '\n'].intercalate lines := by
    clear hreads
    induction h with
    | nil => simp
    | cons hrun hruns ih =>
      cases hruns with
      | nil => simpa using hzero _ _ hrun
      | cons =>
        rw [List.intercalate_cons_cons]
        simp only [List.mem_append, List.mem_singleton, not_or]
        exact ⟨⟨hzero _ _ hrun, by decide⟩, ih⟩
  obtain ⟨out, hrun, -⟩ : ∃ out, Lexer.Run lang.rules strtod
      (Lexer.ofBuffer ([byte '\n'].intercalate lines)) out ∧ _ :=
    run_within hr _ _ h0 (Nat.le_refl _)
  exact ⟨out, hrun, (Run.reads hr hsep hrun h0).unique hsep (.lines hsep hreads)⟩

end AroundTheWorld.Lex
