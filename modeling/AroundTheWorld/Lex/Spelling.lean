import AroundTheWorld.Lex.Lexer

/-!
# Spellings of punctuation tokens

A kind that only the punctuator table produces is always spelled by an entry of
that table. The parsers rely on this for tokens they look at by kind only.
-/

namespace AroundTheWorld.Lex

variable {D : Type} {r : LexLanguageRules} {strtod : Text → D × Nat} {kind : TokenKind}

/-- The kinds that the lexing functions give without a table. -/
def ownKinds : List TokenKind :=
  [.eof, .identifier, .integer, .float, .invalidNumber, .invalid, .operator]

theorem lexIdentifierOrKeyword_kind {fuel : Nat} {cs cs' : CharStream} {tok : Token D}
    (hkeyword : ∀ t, r.keyword t ≠ some kind) (hown : kind ∉ ownKinds)
    (h : lexIdentifierOrKeyword r fuel cs = some (tok, cs')) : tok.kind ≠ kind := by
  rintro rfl
  simp only [lexIdentifierOrKeyword, Option.map_eq_some_iff] at h
  obtain ⟨cs₁, -, h⟩ := h
  split at h
  · rename_i k hk
    cases h
    exact hkeyword _ hk
  · cases h
    exact hown (by simp [ownKinds, tokenAt])

theorem lexNumber_kind {fuel : Nat} {cs cs' : CharStream} {tok : Token D}
    (h : lexNumber strtod fuel cs = some (tok, cs')) : tok.kind ∈ ownKinds := by
  obtain ⟨s, -, h⟩ := Option.bind_eq_some_iff.mp h
  obtain ⟨cs₁, -, h⟩ := Option.bind_eq_some_iff.mp h
  simp only [classifyNumber] at h
  split at h
  · cases h
    simp [ownKinds, tokenAt]
  · split at h
    · split at h <;> cases h <;> simp [ownKinds, tokenAt]
    · obtain ⟨cs₂, -, h⟩ := Option.map_eq_some_iff.mp h
      split at h
      · split at h <;> cases h <;> simp [ownKinds, tokenAt]
      · cases h
        simp [ownKinds, tokenAt]

theorem lexPunctOrInvalid_spelled {cs cs' : CharStream} {tok : Token D}
    (h : lexPunctOrInvalid r cs = (tok, cs')) (hown : tok.kind ∉ ownKinds) :
    r.punctuator tok.lexeme = some tok.kind := by
  simp only [lexPunctOrInvalid] at h
  split at h
  · rename_i k hk
    simp only [twoCharPunct] at hk
    split at hk
    · cases h
      exact hk
    · cases hk
  · split at h
    · rename_i hk
      cases h
      exact hk
    · split at h <;> cases h <;> exact absurd (by simp [ownKinds, tokenAt]) hown

/-- The table entry behind a token of a punctuation kind. -/
theorem Lexer.Next.spelled {l l' : Lexer} {tok : Token D} (hkeyword : ∀ t, r.keyword t ≠ some kind)
    (hown : kind ∉ ownKinds) (h : l.Next r strtod tok l') (hkind : tok.kind = kind) :
    r.punctuator tok.lexeme = some kind := by
  obtain ⟨fuel, h⟩ := h
  obtain ⟨⟨cs, trivia⟩, -, h⟩ := Option.bind_eq_some_iff.mp h
  obtain ⟨⟨tok', cs'⟩, htok, h⟩ := Option.map_eq_some_iff.mp h
  cases h
  simp only [lexToken] at htok
  split at htok
  · cases htok
    exact absurd hkind (by rintro rfl; exact hown (by simp [ownKinds, tokenAt]))
  · split at htok
    · exact absurd hkind (lexIdentifierOrKeyword_kind hkeyword hown htok)
    · split at htok
      · exact absurd (hkind ▸ lexNumber_kind htok) hown
      · have hspelled := lexPunctOrInvalid_spelled (Option.some.inj htok) (hkind ▸ hown)
        rwa [hkind] at hspelled

theorem Lexer.Run.spelled {l : Lexer} {out : List (List TriviaPiece × Token D)}
    (hkeyword : ∀ t, r.keyword t ≠ some kind) (hown : kind ∉ ownKinds) (h : l.Run r strtod out) :
    ∀ entry ∈ out, entry.2.kind = kind → r.punctuator entry.2.lexeme = some kind := by
  induction h with
  | eof hnext _ =>
    intro entry hentry hkind
    rw [List.mem_singleton] at hentry
    subst hentry
    exact hnext.spelled hkeyword hown hkind
  | step hnext _ _ ih =>
    intro entry hentry hkind
    rcases List.mem_cons.mp hentry with rfl | hentry
    · exact hnext.spelled hkeyword hown hkind
    · exact ih entry hentry hkind

end AroundTheWorld.Lex
