import AroundTheWorld.Lex.Lexer

/-!
# A call of the lexer has one result

The bound on the loops only decides whether a call is seen to return: a larger
bound keeps the result. So `Next` is a partial function of the lexer state, and
a run up to `Eof` is determined by the state it starts from.
-/

namespace AroundTheWorld.Lex

open AroundTheWorld.Base

variable {D : Type} {rules : LexLanguageRules} {strtod : Text → D × Nat} {n m : Nat}

/-- What a computation under bound `n` returns, it returns under bound `m`. -/
def Keeps {α : Type} (x y : Option α) : Prop := ∀ a, x = some a → y = some a

namespace Keeps

variable {α β : Type} {x y : Option α}

theorem refl (x : Option α) : Keeps x x := fun _ h => h

theorem map (f : α → β) (h : Keeps x y) : Keeps (x.map f) (y.map f) := by
  intro b hb
  obtain ⟨a, ha, rfl⟩ := Option.map_eq_some_iff.mp hb
  rw [h a ha]
  rfl

theorem bind {f g : α → Option β} (h : Keeps x y) (hfg : ∀ a, Keeps (f a) (g a)) :
    Keeps (x.bind f) (y.bind g) := by
  intro b hb
  obtain ⟨a, ha, hf⟩ := Option.bind_eq_some_iff.mp hb
  rw [h a ha]
  exact hfg a b hf

theorem ite {c : Prop} [Decidable c] {x' y' : Option α} (h : Keeps x y) (h' : Keeps x' y') :
    Keeps (if c then x else x') (if c then y else y') := by
  split
  · exact h
  · exact h'

end Keeps

section
variable (hle : n ≤ m)
include hle

theorem whileLoop_keeps {σ : Type} {cond : σ → Bool} {body body' : σ → Option σ} (s : σ)
    (hbody : ∀ s, Keeps (body s) (body' s)) :
    Keeps (whileLoop cond body n s) (whileLoop cond body' m s) :=
  fun _ h => whileLoop_mono hbody hle h

theorem consumeWhile_keeps (pred : Byte → Bool) (cs : CharStream) :
    Keeps (consumeWhile pred n cs) (consumeWhile pred m cs) :=
  whileLoop_keeps hle cs fun _ => .refl _

theorem consumeCommentBody_keeps (delim : CommentDelimiter) (cs : CharStream) :
    Keeps (consumeCommentBody delim n cs) (consumeCommentBody delim m cs) := by
  unfold consumeCommentBody
  cases delim.kind with
  | line => exact consumeWhile_keeps hle _ cs
  | block =>
    exact .ite (consumeWhile_keeps hle _ cs)
      ((whileLoop_keeps hle (cs, false) fun _ => .refl _).map _)

theorem consumeCommentMaybe_keeps (cs : CharStream) (delims : List CommentDelimiter) :
    Keeps (consumeCommentMaybe n cs delims) (consumeCommentMaybe m cs delims) := by
  induction delims with
  | nil => exact .refl _
  | cons delim rest ih =>
    unfold consumeCommentMaybe
    exact .ite ih (.ite ih (.ite ih ((consumeCommentBody_keeps hle delim _).map _)))

theorem consumeTrivia_keeps (cs : CharStream) :
    Keeps (consumeTrivia rules n cs) (consumeTrivia rules m cs) := by
  refine (whileLoop_keeps hle _ fun s => ?_).map _
  unfold consumeTriviaStep
  exact .ite (.refl _) (.ite ((consumeWhile_keeps hle _ _).map _)
    ((consumeCommentMaybe_keeps hle _ _).map _))

theorem lexNumber_keeps (cs : CharStream) :
    Keeps (lexNumber strtod n cs) (lexNumber strtod m cs) := by
  refine .bind (whileLoop_keeps hle _ fun _ => .refl _) fun s => .bind ?_ fun cs₁ => ?_
  · exact .ite (consumeWhile_keeps hle _ _) (.refl _)
  · exact .ite (.refl _) (.ite (.refl _) ((consumeWhile_keeps hle _ _).map _))

theorem lexToken_keeps (cs : CharStream) :
    Keeps (lexToken rules strtod n cs) (lexToken rules strtod m cs) := by
  unfold lexToken
  exact .ite (.refl _) (.ite ((consumeWhile_keeps hle _ _).map _)
    (.ite (lexNumber_keeps hle cs) (.refl _)))

theorem next_keeps (l : Lexer) : Keeps (l.next rules strtod n) (l.next rules strtod m) :=
  .bind (consumeTrivia_keeps hle _) fun _ => (lexToken_keeps hle _).map _

end

/-- `Next` is a partial function. -/
theorem Next.unique {l l₁ l₂ : Lexer} {tok₁ tok₂ : Token D}
    (h₁ : l.Next rules strtod tok₁ l₁) (h₂ : l.Next rules strtod tok₂ l₂) :
    tok₁ = tok₂ ∧ l₁ = l₂ := by
  obtain ⟨n, h₁⟩ := h₁
  obtain ⟨m, h₂⟩ := h₂
  rcases Nat.le_total n m with hle | hle
  · rw [next_keeps hle l _ h₁] at h₂
    exact Prod.mk.inj (Option.some.inj h₂)
  · rw [next_keeps hle l _ h₂] at h₁
    exact Prod.mk.inj (Option.some.inj h₁.symm)

/-- A source has at most one run up to `Eof`. -/
theorem Run.unique {l : Lexer} {out₁ out₂ : List (List TriviaPiece × Token D)}
    (h₁ : Lexer.Run rules strtod l out₁) (h₂ : Lexer.Run rules strtod l out₂) : out₁ = out₂ := by
  induction h₁ generalizing out₂ with
  | eof hn he =>
    cases h₂ with
    | eof hn' _ => obtain ⟨rfl, rfl⟩ := Next.unique hn hn'; rfl
    | step hn' hne _ => obtain ⟨rfl, rfl⟩ := Next.unique hn hn'; exact absurd he hne
  | step hn hne _ ih =>
    cases h₂ with
    | eof hn' he => obtain ⟨rfl, rfl⟩ := Next.unique hn hn'; exact absurd he hne
    | step hn' _ hrest => obtain ⟨rfl, rfl⟩ := Next.unique hn hn'; rw [ih hrest]

/-- What `tokenize` returns is a run. -/
theorem tokenize_run {fuel calls : Nat} {l : Lexer} {out : List (List TriviaPiece × Token D)}
    (h : l.tokenize rules strtod fuel calls = some out) : Lexer.Run rules strtod l out := by
  induction calls generalizing l out with
  | zero => simp [Lexer.tokenize] at h
  | succ calls ih =>
    unfold Lexer.tokenize at h
    obtain ⟨⟨tok, l'⟩, hnext, h⟩ := Option.bind_eq_some_iff.mp h
    simp only at h
    split at h
    · rename_i he
      obtain rfl := Option.some.inj h
      exact .eof ⟨fuel, hnext⟩ he
    · rename_i hne
      obtain ⟨rest, hrest, rfl⟩ := Option.map_eq_some_iff.mp h
      exact .step ⟨fuel, hnext⟩ hne (ih hrest)

end AroundTheWorld.Lex
