import AroundTheWorld.Parse.DefaultGrammarPack

/-!
# How often the engine is called

An engine that leaves notes among the diagnostics, one batch at each call of
`parseExpression`, runs next to the engine of the parser. With a bound above the
number of tokens both return, they return the same, and there are at most as many
batches as tokens consumed, and one more if the end of the stream was reached.

At `Eof` a token is consumed without the stream getting shorter. That happens once:
behind a call at `Eof` every handler asks for a certain token before its next call.
-/

namespace AroundTheWorld.Parse

open AroundTheWorld.Lex

variable {D G E S I α β : Type}

/-! ## The engine that leaves notes -/

/-- The parser, behind some notes. -/
def noting (notes : List (SourceLoc × String)) (p : Parser D G α) : Parser D G α :=
  fun σ => p { σ with diag := σ.diag ++ notes }

section
variable (reg : ParserRegistry D G E S I) (nullExpr : E) (nullStmt : S) (nullItem : I)

def notingEngine (notes : List (SourceLoc × String)) : Nat → Engine D G E S
  | 0 => ⟨fun _ => Parser.diverge, Parser.diverge, 0⟩
  | n + 1 => ⟨fun m => noting notes (parseExpression reg nullExpr (notingEngine notes n) m),
      parseStatement reg nullStmt (notingEngine notes n), n + 1⟩

/-- `parseItem` with the given engine. -/
def itemWith (engine : Engine D G E S) : Parser D G I := fun σ =>
  match reg.findItemHandler (Parser.current σ).kind with
  | none =>
    (do
      Parser.errorHere "unexpected token at top-level start"
      let _ ← Parser.consume
      pure nullItem) σ
  | some itemHandler => itemHandler engine σ

/-- Without notes it is the engine of the parser. -/
theorem notingEngine_nil (fuel : Nat) :
    notingEngine reg nullExpr nullStmt [] fuel = parserEngine reg nullExpr nullStmt fuel := by
  induction fuel with
  | zero => rfl
  | succ n ih =>
    have hsame : ∀ p : Parser D G E, noting [] p = p := by
      intro p
      funext σ
      simp [noting]
    simp only [notingEngine, parserEngine, ih, hsame]

end

theorem Parser.bind_of_some {p : Parser D G α} {f : α → Parser D G β} {σ σ' : ParseState D G}
    {a : α} (h : p σ = some (a, σ')) : (p >>= f) σ = f a σ' := by
  show (p σ).bind _ = _
  rw [h]
  rfl

/-! ## Two runs -/

/-- `τ` is `σ` with `k` batches of `w` notes among the diagnostics. -/
structure Noted (w k : Nat) (σ τ : ParseState D G) : Prop where
  tokens : τ.tokens = σ.tokens
  eofLoc : τ.eofLoc = σ.eofLoc
  globals : τ.globals = σ.globals
  diag : σ.diag.Sublist τ.diag
  count : τ.diag.length = σ.diag.length + k * w

/-- What a run from `σ`, before which there were `k` calls, may have cost at `σ'`. A
run that is not `late` makes no call when it starts at the end of the stream. -/
structure Pays (late : Bool) (k : Nat) (σ : ParseState D G) (k' : Nat) (σ' : ParseState D G) :
    Prop where
  tokens : σ'.tokens <:+ σ.tokens
  calls : k' + σ'.tokens.length ≤ k + σ.tokens.length + 1
  early : σ'.tokens ≠ [] → k' + σ'.tokens.length ≤ k + σ.tokens.length
  atEnd : late = false → σ.tokens = [] → k' = k

/-- Both parsers return the same, and `R` holds behind them. -/
def Together (w : Nat) (p q : Parser D G α) (R : α → Nat → ParseState D G → Prop)
    (σ τ : ParseState D G) : Prop :=
  ∃ a k' σ' τ', p σ = some (a, σ') ∧ q τ = some (a, τ') ∧ Noted w k' σ' τ' ∧ R a k' σ'

theorem Together.of_eq {w : Nat} {p p' q q' : Parser D G α} {R : α → Nat → ParseState D G → Prop}
    {σ τ : ParseState D G} (h : Together w p' q' R σ τ) (hp : p σ = p' σ) (hq : q τ = q' τ) :
    Together w p q R σ τ := by
  unfold Together
  rw [hp, hq]
  exact h

/-- On streams of less than `n` tokens. -/
def Counts (w : Nat) (late : Bool) (n : Nat) (p q : Parser D G α) : Prop :=
  ∀ ⦃k σ τ⦄, Noted w k σ τ → σ.tokens.length < n →
    Together w p q (fun _ k' σ' => Pays late k σ k' σ') σ τ

/-- A parser that consumes at least one token. -/
def Eats (w : Nat) (late : Bool) (n : Nat) (p q : Parser D G α) : Prop :=
  ∀ ⦃k σ τ⦄, Noted w k σ τ → σ.tokens.length < n →
    Together w p q (fun _ k' σ' => Pays late k σ k' σ' ∧ σ'.tokens <:+ σ.tokens.tail) σ τ

/-- A parser that calls nothing, and so is its own companion. -/
def Quiet (p : Parser D G α) : Prop :=
  ∀ ⦃w k σ τ⦄, Noted w k σ τ →
    Together w p p (fun _ k' σ' => k' = k ∧ σ'.tokens <:+ σ.tokens) σ τ

section
variable {w k k' n : Nat} {late : Bool} {σ σ' τ : ParseState D G}

theorem Noted.refl (w : Nat) (σ : ParseState D G) : Noted w 0 σ σ :=
  ⟨rfl, rfl, rfl, List.Sublist.refl _, by simp⟩

theorem Noted.current (h : Noted w k σ τ) : Parser.current τ = Parser.current σ := by
  unfold Parser.current
  rw [h.tokens, h.eofLoc]

theorem Noted.tail (h : Noted w k σ τ) :
    Noted w k { σ with tokens := σ.tokens.tail } { τ with tokens := τ.tokens.tail } :=
  ⟨congrArg List.tail h.tokens, h.eofLoc, h.globals, h.diag, h.count⟩

theorem Noted.report (h : Noted w k σ τ) (r : SourceLoc × String) :
    Noted w k { σ with diag := σ.diag ++ [r] } { τ with diag := τ.diag ++ [r] } := by
  refine ⟨h.tokens, h.eofLoc, h.globals, h.diag.append (List.Sublist.refl _), ?_⟩
  have hcount := h.count
  simp only [List.length_append]
  omega

/-- The companion makes its notes. -/
theorem Noted.note {notes : List (SourceLoc × String)} (h : Noted notes.length k σ τ) :
    Noted notes.length (k + 1) σ { τ with diag := τ.diag ++ notes } := by
  refine ⟨h.tokens, h.eofLoc, h.globals, h.diag.trans (List.sublist_append_left _ _), ?_⟩
  have hcount := h.count
  simp only [List.length_append, Nat.succ_mul]
  omega

/-- When nothing is noted the two states are one. -/
theorem Noted.eq_of_zero (h : Noted 0 k σ τ) : τ = σ := by
  have hdiag : σ.diag = τ.diag := h.diag.eq_of_length (by simpa using h.count.symm)
  obtain ⟨tokens, eofLoc, globals, -, -⟩ := h
  cases σ
  cases τ
  simp_all

theorem Pays.refl (late : Bool) (k : Nat) (σ : ParseState D G) : Pays late k σ k σ :=
  ⟨List.suffix_refl _, by omega, fun _ => Nat.le_refl _, fun _ _ => rfl⟩

/-- Fewer tokens at the same price. -/
theorem Pays.of_suffix (h : σ'.tokens <:+ σ.tokens) : Pays late k σ k σ' := by
  have hlen := h.length_le
  exact ⟨h, by omega, fun _ => by omega, fun _ _ => rfl⟩

/-- What follows must not call again at the end of the stream. -/
theorem Pays.trans {k₁ : Nat} {σ₁ : ParseState D G} (h : Pays late k σ k₁ σ₁)
    (h' : Pays false k₁ σ₁ k' σ') : Pays late k σ k' σ' := by
  have hcalls := h'.calls
  have hlen' := h'.tokens.length_le
  by_cases hend : σ₁.tokens = []
  · have hsame := h'.atEnd rfl hend
    have hend' : σ'.tokens = [] := List.suffix_nil.mp (hend ▸ h'.tokens)
    have hfirst := h.calls
    rw [hend] at hfirst
    refine ⟨h'.tokens.trans h.tokens, ?_, fun hne => absurd hend' hne, ?_⟩
    · rw [hend', hsame]
      exact hfirst
    · intro hlate hstart
      rw [hsame]
      exact h.atEnd hlate hstart
  · have hfirst := h.early hend
    refine ⟨h'.tokens.trans h.tokens, by omega, ?_, ?_⟩
    · intro hne
      have hsecond := h'.early hne
      omega
    · intro _ hstart
      exact absurd (List.suffix_nil.mp (hstart ▸ h.tokens)) hend

theorem Pays.after {σ₁ : ParseState D G} (hsuffix : σ₁.tokens <:+ σ.tokens)
    (h : Pays late k σ₁ k' σ') : Pays late k σ k' σ' := by
  have hlen := hsuffix.length_le
  have hcalls := h.calls
  refine ⟨h.tokens.trans hsuffix, by omega, ?_, ?_⟩
  · intro hne
    have hearly := h.early hne
    omega
  · intro hlate hnil
    exact h.atEnd hlate (List.suffix_nil.mp (hnil ▸ hsuffix))

/-- From a stream that has a token, the head of which nothing has been paid for. -/
theorem Pays.of_tail {tail : ParseState D G} (hne : σ.tokens ≠ [])
    (htail : tail.tokens = σ.tokens.tail) (h : Pays true k tail k' σ') : Pays late k σ k' σ' := by
  have hlen : σ.tokens.length = tail.tokens.length + 1 := by
    rw [htail, List.length_tail]
    have := List.length_pos_iff.mpr hne
    omega
  have hcalls := h.calls
  refine ⟨(htail ▸ h.tokens).trans (List.tail_suffix _), by omega, ?_, fun _ hnil =>
    absurd hnil hne⟩
  intro hrest
  have := h.early hrest
  omega

/-- The head of the stream pays for a call. -/
theorem Pays.call {tail : ParseState D G} (hne : σ.tokens ≠ [])
    (htail : tail.tokens = σ.tokens.tail) (h : Pays true (k + 1) tail k' σ') :
    Pays late k σ k' σ' := by
  have hlen : σ.tokens.length = tail.tokens.length + 1 := by
    rw [htail, List.length_tail]
    have := List.length_pos_iff.mpr hne
    omega
  have hcalls := h.calls
  refine ⟨(htail ▸ h.tokens).trans (List.tail_suffix _), by omega, ?_, fun _ hnil =>
    absurd hnil hne⟩
  intro hrest
  have := h.early hrest
  omega

end

/-! ## Parsers that call nothing -/

namespace Quiet

variable {p : Parser D G α} {f : α → Parser D G β} {kind : TokenKind}

theorem pure (a : α) : Quiet (Pure.pure a : Parser D G α) :=
  fun _ k σ τ h => ⟨a, k, σ, τ, rfl, rfl, h, rfl, List.suffix_refl _⟩

theorem bind (hp : Quiet p) (hf : ∀ a, Quiet (f a)) : Quiet (p >>= f) := by
  intro w k σ τ h
  obtain ⟨a, k₁, σ₁, τ₁, hpσ, hpτ, h₁, rfl, hsuffix⟩ := hp h
  obtain ⟨b, k₂, σ₂, τ₂, hfσ, hfτ, h₂, rfl, hsuffix'⟩ := hf a h₁
  exact ⟨b, k₂, σ₂, τ₂, (Parser.bind_of_some hpσ).trans hfσ,
    (Parser.bind_of_some hpτ).trans hfτ, h₂, rfl, hsuffix'.trans hsuffix⟩

theorem consume : Quiet (Parser.consume : Parser D G (Token D)) := by
  intro w k σ τ h
  refine ⟨Parser.current σ, k, _, _, rfl, ?_, h.tail, rfl, List.tail_suffix _⟩
  unfold Parser.consume
  rw [h.current]

theorem atKind (kind : TokenKind) : Quiet (Parser.atKind kind : Parser D G Bool) := by
  intro w k σ τ h
  refine ⟨_, k, σ, τ, rfl, ?_, h, rfl, List.suffix_refl _⟩
  unfold Parser.atKind
  rw [h.current]

theorem error (loc : SourceLoc) (message : String) :
    Quiet (Parser.error loc message : Parser D G Unit) :=
  fun _ k _ _ h => ⟨(), k, _, _, rfl, rfl, h.report _, rfl, List.suffix_refl _⟩

theorem errorHere (message : String) : Quiet (Parser.errorHere message : Parser D G Unit) := by
  intro w k σ τ h
  refine ⟨(), k, _, _, rfl, ?_, h.report _, rfl, List.suffix_refl _⟩
  unfold Parser.errorHere Parser.error
  rw [h.current]

theorem matchKind (kind : TokenKind) : Quiet (Parser.matchKind kind : Parser D G Bool) := by
  intro w k σ τ h
  unfold Parser.matchKind
  by_cases hkind : (Parser.current σ).kind = kind
  · refine ⟨true, k, _, _, if_pos hkind, if_pos (h.current ▸ hkind), h.tail, rfl,
      List.tail_suffix _⟩
  · refine ⟨false, k, σ, τ, if_neg hkind, if_neg (h.current ▸ hkind), h, rfl, List.suffix_refl _⟩

theorem expect (kind : TokenKind) (message : String) :
    Quiet (Parser.expect kind message : Parser D G Bool) := by
  intro w k σ τ h
  unfold Parser.expect
  by_cases hkind : (Parser.current σ).kind = kind
  · refine ⟨true, k, _, _, if_pos hkind, if_pos (h.current ▸ hkind), h.tail, rfl,
      List.tail_suffix _⟩
  · have hreport := h.report ((Parser.current σ).sourceLoc, message)
    refine ⟨false, k, _, _, if_neg hkind, ?_, hreport, rfl, List.suffix_refl _⟩
    show (if (Parser.current τ).kind = kind then _ else _) = _
    rw [if_neg (h.current ▸ hkind), Parser.errorHere, h.current]
    rfl

theorem ite {b : Bool} {q : Parser D G α} (hp : Quiet p) (hq : Quiet q) :
    Quiet (if b then p else q) := by
  cases b
  · exact hq
  · exact hp

/-- A parser that looks at the current token first. -/
theorem of_current (h : ∀ tok, ∃ q : Parser D G α, Quiet q ∧ ∀ σ, Parser.current σ = tok →
      p σ = q σ) : Quiet p := by
  intro w k σ τ hnoted
  obtain ⟨q, hq, heq⟩ := h (Parser.current σ)
  exact (hq hnoted).of_eq (heq σ rfl) (heq τ hnoted.current)

end Quiet

/-- A test that consumes a token when it succeeds. -/
structure Tests (p : Parser D G Bool) : Prop where
  quiet : Quiet p
  eats : ∀ σ σ', p σ = some (true, σ') → σ.tokens ≠ [] ∧ σ'.tokens = σ.tokens.tail

theorem tokens_ne_nil {σ : ParseState D G} (h : (Parser.current σ).kind ≠ .eof) :
    σ.tokens ≠ [] := by
  intro hnil
  simp [Parser.current, hnil] at h

theorem Tests.matchKind {kind : TokenKind} (hkind : kind ≠ .eof) :
    Tests (Parser.matchKind kind : Parser D G Bool) := by
  refine ⟨Quiet.matchKind kind, fun σ σ' hrun => ?_⟩
  unfold Parser.matchKind at hrun
  split at hrun
  · rename_i hcur
    cases hrun
    exact ⟨tokens_ne_nil (hcur ▸ hkind), rfl⟩
  · cases hrun

theorem Tests.expect {kind : TokenKind} (hkind : kind ≠ .eof) (message : String) :
    Tests (Parser.expect kind message : Parser D G Bool) := by
  refine ⟨Quiet.expect kind message, fun σ σ' hrun => ?_⟩
  unfold Parser.expect at hrun
  split at hrun
  · rename_i hcur
    cases hrun
    exact ⟨tokens_ne_nil (hcur ▸ hkind), rfl⟩
  · cases hrun

/-! ## Parsers that call the engine -/

namespace Counts

variable {w n : Nat} {late : Bool} {p q : Parser D G α} {f g : α → Parser D G β}

theorem mono {m : Nat} (h : Counts w late n p q) (hm : m ≤ n) : Counts w late m p q :=
  fun _ _ _ hnoted hlen => h hnoted (by omega)

theorem allow_late (h : Counts w false n p q) : Counts w true n p q := by
  intro k σ τ hnoted hlen
  obtain ⟨a, k', σ', τ', hp, hq, hnoted', hpays⟩ := h hnoted hlen
  exact ⟨a, k', σ', τ', hp, hq, hnoted', hpays.tokens, hpays.calls,
    hpays.early, fun h => by cases h⟩

theorem of_quiet (h : Quiet p) : Counts w late n p p := by
  intro k σ τ hnoted _
  obtain ⟨a, k', σ', τ', hpσ, hpτ, hnoted', rfl, hsuffix⟩ := h hnoted
  exact ⟨a, _, σ', τ', hpσ, hpτ, hnoted', Pays.of_suffix hsuffix⟩

theorem pure (a : α) : Counts w late n (Pure.pure a : Parser D G α) (Pure.pure a) :=
  of_quiet (Quiet.pure a)

/-- Whatever follows a call makes none at the end of the stream. -/
theorem bind (hp : Counts w late n p q) (hf : ∀ a, Counts w false n (f a) (g a)) :
    Counts w late n (p >>= f) (q >>= g) := by
  intro k σ τ h hlen
  obtain ⟨a, k₁, σ₁, τ₁, hp, hq, h₁, hpays⟩ := hp h hlen
  have hle := hpays.tokens.length_le
  obtain ⟨b, k₂, σ₂, τ₂, hf, hg, h₂, hpays'⟩ := hf a h₁ (by omega)
  exact ⟨b, k₂, σ₂, τ₂, (Parser.bind_of_some hp).trans hf, (Parser.bind_of_some hq).trans hg, h₂,
    hpays.trans hpays'⟩

theorem quiet_bind (hp : Quiet p) (hf : ∀ a, Counts w late n (f a) (g a)) :
    Counts w late n (p >>= f) (p >>= g) := by
  intro k σ τ h hlen
  obtain ⟨a, k₁, σ₁, τ₁, hpσ, hpτ, h₁, rfl, hsuffix⟩ := hp h
  have hle := hsuffix.length_le
  obtain ⟨b, k₂, σ₂, τ₂, hf, hg, h₂, hpays⟩ := hf a h₁ (by omega)
  exact ⟨b, k₂, σ₂, τ₂, (Parser.bind_of_some hpσ).trans hf, (Parser.bind_of_some hpτ).trans hg, h₂,
    hpays.after hsuffix⟩

/-- Behind a test that succeeds a call may come: a token has been consumed for it. -/
theorem test_bind {t : Parser D G Bool} {f g : Bool → Parser D G β} (ht : Tests t)
    (htrue : Counts w true (n - 1) (f true) (g true))
    (hfalse : Counts w late n (f false) (g false)) : Counts w late n (t >>= f) (t >>= g) := by
  intro k σ τ h hlen
  obtain ⟨b, k₁, σ₁, τ₁, htσ, htτ, h₁, rfl, hsuffix⟩ := ht.quiet h
  have hrun : ∀ c k' σ' τ', f b σ₁ = some (c, σ') → g b τ₁ = some (c, τ') → Noted w k' σ' τ' →
      Pays late k₁ σ k' σ' →
      Together w (t >>= f) (t >>= g) (fun _ k' σ' => Pays late k₁ σ k' σ') σ τ := by
    intro c k' σ' τ' hf hg h' hpays
    exact ⟨c, k', σ', τ', (Parser.bind_of_some htσ).trans hf,
      (Parser.bind_of_some htτ).trans hg, h', hpays⟩
  cases b with
  | true =>
    obtain ⟨hne, htail⟩ := ht.eats σ σ₁ htσ
    have hpos := List.length_pos_iff.mpr hne
    obtain ⟨c, k', σ', τ', hf, hg, h', hpays⟩ := htrue h₁ (by rw [htail, List.length_tail]; omega)
    exact hrun c k' σ' τ' hf hg h' (hpays.of_tail hne htail)
  | false =>
    have hle := hsuffix.length_le
    obtain ⟨c, k', σ', τ', hf, hg, h', hpays⟩ := hfalse h₁ (by omega)
    exact hrun c k' σ' τ' hf hg h' (hpays.after hsuffix)

/-- A token that is consumed after its kind has been looked at. -/
theorem named_bind {kind : TokenKind} (hkind : kind ≠ .eof) {f g : Token D → Parser D G β}
    {p' q' : Parser D G β} (htrue : ∀ tok, Counts w true (n - 1) (f tok) (g tok))
    (hfalse : Counts w late n p' q') :
    Counts w late n
      (do
        let found ← Parser.atKind kind
        if found then do
          let tok ← Parser.consume
          f tok
        else p')
      (do
        let found ← Parser.atKind kind
        if found then do
          let tok ← Parser.consume
          g tok
        else q') := by
  intro k σ τ h hlen
  by_cases hcur : (Parser.current σ).kind = kind
  · have hne := tokens_ne_nil (hcur ▸ hkind)
    have hpos := List.length_pos_iff.mpr hne
    obtain ⟨c, k', σ', τ', hf, hg, h', hpays⟩ := htrue (Parser.current σ) h.tail (by
      rw [List.length_tail]
      omega)
    refine ⟨c, k', σ', τ', ?_, ?_, h', hpays.of_tail hne rfl⟩
    · simp only [Bind.bind, Parser.bind, Parser.atKind, hcur, beq_self_eq_true, if_true,
        Option.bind_some, Parser.consume]
      exact hf
    · simp only [Bind.bind, Parser.bind, Parser.atKind, h.current, hcur, beq_self_eq_true, if_true,
        Option.bind_some, Parser.consume]
      exact hg
  · have hb : ((Parser.current σ).kind == kind) = false := by simpa using hcur
    obtain ⟨c, k', σ', τ', hp, hq, h', hpays⟩ := hfalse h hlen
    refine ⟨c, k', σ', τ', ?_, ?_, h', hpays⟩
    · simp only [Bind.bind, Parser.bind, Parser.atKind, hb, Option.bind_some]
      exact hp
    · simp only [Bind.bind, Parser.bind, Parser.atKind, h.current, hb, Option.bind_some]
      exact hq

end Counts

namespace Eats

variable {w n : Nat} {late : Bool} {p q : Parser D G α}

theorem counts (h : Eats w late n p q) : Counts w late n p q := by
  intro k σ τ hnoted hlen
  obtain ⟨a, k', σ', τ', hp, hq, hnoted', hpays, -⟩ := h hnoted hlen
  exact ⟨a, k', σ', τ', hp, hq, hnoted', hpays⟩

theorem mono {m : Nat} (h : Eats w late n p q) (hm : m ≤ n) : Eats w late m p q :=
  fun _ _ _ hnoted hlen => h hnoted (by omega)

/-- Consuming first. -/
theorem consume_bind {f g : Token D → Parser D G α} (h : ∀ tok, Counts w true n (f tok) (g tok)) :
    Eats w true n (Parser.consume >>= f) (Parser.consume >>= g) := by
  intro k σ τ hnoted hlen
  have hle := (List.tail_suffix σ.tokens).length_le
  obtain ⟨a, k', σ', τ', hf, hg, hnoted', hpays⟩ :=
    h (Parser.current σ) hnoted.tail (Nat.lt_of_le_of_lt hle hlen)
  refine ⟨a, k', σ', τ', hf, ?_, hnoted', hpays.after (List.tail_suffix _), hpays.tokens⟩
  show g (Parser.current τ) _ = _
  rw [hnoted.current]
  exact hg

end Eats

/-! ## The engine -/

/-- What the handlers may use of an engine and its companion. -/
structure EngineCounts (w n : Nat) (e e' : Engine D G E S) : Prop where
  expression : ∀ m, Eats w true n (e.parseExpression m) (e'.parseExpression m)
  statement : Eats w false n e.parseStatement e'.parseStatement
  fuel : n ≤ e.fuel
  fuel' : n ≤ e'.fuel

/-- The handlers of a registry, none of which is for `Eof`, count what their engine
counts. A handler of a statement or an item consumes a token before it goes on. -/
structure HandlersCount (reg : ParserRegistry D G E S I) : Prop where
  prefixEof : reg.findPrefixHandler .eof = none
  infixEof : reg.findInfixHandler .eof = none
  stmtEof : reg.findStmtHandler .eof = none
  itemEof : reg.findItemHandler .eof = none
  prefix_ : ∀ kind handler, reg.findPrefixHandler kind = some handler → ∀ (w n : Nat)
    (e e' : Engine D G E S) (tok : Token D), EngineCounts w n e e' →
      Counts w true n (handler e tok) (handler e' tok)
  infix_ : ∀ kind entry, reg.findInfixHandler kind = some entry → ∀ (w n : Nat)
    (e e' : Engine D G E S) (lhs : E) (tok : Token D) (rhs : E), EngineCounts w n e e' →
      Counts w false n (entry.handler e lhs tok rhs) (entry.handler e' lhs tok rhs)
  stmt : ∀ kind handler, reg.findStmtHandler kind = some handler →
    ∃ f : Engine D G E S → Token D → Parser D G S, (∀ e, handler e = Parser.consume >>= f e) ∧
      ∀ (w n : Nat) (e e' : Engine D G E S) (tok : Token D), EngineCounts w n e e' →
        Counts w true n (f e tok) (f e' tok)
  item : ∀ kind handler, reg.findItemHandler kind = some handler →
    ∃ f : Engine D G E S → Token D → Parser D G I, (∀ e, handler e = Parser.consume >>= f e) ∧
      ∀ (w n : Nat) (e e' : Engine D G E S) (tok : Token D), EngineCounts w n e e' →
        Counts w true n (f e tok) (f e' tok)

section
variable {reg : ParserRegistry D G E S I} {w n : Nat} {e e' : Engine D G E S}

theorem infixLoop_of_none {σ : ParseState D G}
    (h : reg.findInfixHandler (Parser.current σ).kind = none) (m : Int) (a : Nat) (lhs : E) :
    infixLoop reg e m (a + 1) lhs σ = some (lhs, σ) := by
  unfold infixLoop
  rw [h]

theorem infixLoop_of_some {σ : ParseState D G} {entry : InfixEntry D G E S}
    (h : reg.findInfixHandler (Parser.current σ).kind = some entry) (m : Int) (a : Nat) (lhs : E) :
    infixLoop reg e m (a + 1) lhs σ =
      if entry.getPrecedence σ.globals (Parser.current σ) < m then some (lhs, σ)
      else
        (do
          let rhs ← e.parseExpression (entry.getPrecedence σ.globals (Parser.current σ) + 1)
          let lhs' ← entry.handler e lhs (Parser.current σ) rhs
          infixLoop reg e m a lhs') { σ with tokens := σ.tokens.tail } := by
  rw [infixLoop]
  simp only [h]
  rfl

/-- Induction on the bound: every turn that goes on has consumed an operator. -/
theorem infixLoop_counts (hreg : HandlersCount reg) {N : Nat} (he : EngineCounts w N e e')
    (m : Int) (hn : n ≤ N) {a b : Nat} (ha : n ≤ a) (hb : n ≤ b) (lhs : E) :
    Counts w false n (infixLoop reg e m a lhs) (infixLoop reg e' m b lhs) := by
  induction n generalizing a b lhs with
  | zero => exact fun k σ τ _ hlen => absurd hlen (Nat.not_lt_zero _)
  | succ n ih =>
    obtain ⟨a, rfl⟩ : ∃ a', a = a' + 1 := ⟨a - 1, by omega⟩
    obtain ⟨b, rfl⟩ : ∃ b', b = b' + 1 := ⟨b - 1, by omega⟩
    intro k σ τ h hlen
    cases hfind : reg.findInfixHandler (Parser.current σ).kind with
    | none =>
      refine ⟨lhs, k, σ, τ, infixLoop_of_none hfind m a lhs, ?_, h, Pays.refl _ _ _⟩
      exact infixLoop_of_none (by rwa [h.current]) m b lhs
    | some entry =>
      have hne : σ.tokens ≠ [] := by
        refine tokens_ne_nil fun heof => ?_
        rw [heof, hreg.infixEof] at hfind
        cases hfind
      have hσ := infixLoop_of_some (e := e) hfind m a lhs
      have hτ := infixLoop_of_some (e := e') (by rwa [h.current]) m b lhs
      rw [h.current, h.globals] at hτ
      by_cases hprec : entry.getPrecedence σ.globals (Parser.current σ) < m
      · rw [if_pos hprec] at hσ hτ
        exact ⟨lhs, k, σ, τ, hσ, hτ, h, Pays.refl _ _ _⟩
      · rw [if_neg hprec] at hσ hτ
        have hpos := List.length_pos_iff.mpr hne
        have hrest : Counts w true n
            (do
              let rhs ← e.parseExpression (entry.getPrecedence σ.globals (Parser.current σ) + 1)
              let lhs' ← entry.handler e lhs (Parser.current σ) rhs
              infixLoop reg e m a lhs')
            (do
              let rhs ← e'.parseExpression (entry.getPrecedence σ.globals (Parser.current σ) + 1)
              let lhs' ← entry.handler e' lhs (Parser.current σ) rhs
              infixLoop reg e' m b lhs') := by
          refine ((he.expression _).counts.mono (by omega)).bind fun rhs => ?_
          refine ((hreg.infix_ _ _ hfind w N e e' lhs _ rhs he).mono (by omega)).bind fun lhs' => ?_
          exact ih (by omega) (by omega) (by omega) lhs'
        obtain ⟨c, k', σ', τ', hp, hq, h', hpays⟩ := hrest h.tail (by
          rw [List.length_tail]
          omega)
        rw [h.globals] at hq
        exact ⟨c, k', σ', τ', hσ.trans hp, hτ.trans hq, h', hpays.of_tail hne rfl⟩

/-- A token that no handler is for is consumed with a report. -/
theorem unexpected_eats {late : Bool} (message : String) (a : α) : Eats w late n
    (do
      Parser.errorHere message
      let _ ← Parser.consume
      pure a : Parser D G α)
    (do
      Parser.errorHere message
      let _ ← Parser.consume
      pure a) :=
  fun _ _ _ h _ => ⟨a, _, _, _, rfl, rfl, by
    rw [h.current]
    exact (h.report _).tail, Pays.of_suffix (List.tail_suffix _), List.suffix_refl _⟩

variable {nullExpr : E} {nullStmt : S} {nullItem : I} {notes : List (SourceLoc × String)}

theorem parseExpression_of_none (nullExpr : E) (e : Engine D G E S) {σ : ParseState D G}
    (h : reg.findPrefixHandler (Parser.current σ).kind = none) (m : Int) :
    parseExpression reg nullExpr e m σ = some (nullExpr, { σ with
      tokens := σ.tokens.tail
      diag := σ.diag ++
        [((Parser.current σ).sourceLoc, "unexpected token at expression start")] }) := by
  simp only [parseExpression, Bind.bind, Parser.bind, Parser.consume, Option.bind_some, h]
  rfl

theorem parseExpression_of_some (nullExpr : E) (e : Engine D G E S) {σ : ParseState D G}
    {handler : PrefixExprHandler D G E S}
    (h : reg.findPrefixHandler (Parser.current σ).kind = some handler) (m : Int) :
    parseExpression reg nullExpr e m σ =
      (do
        let lhs ← handler e (Parser.current σ)
        infixLoop reg e m e.fuel lhs) { σ with tokens := σ.tokens.tail } := by
  simp only [parseExpression, Bind.bind, Parser.bind, Parser.consume, Option.bind_some, h]

/-- A call of `parseExpression`, which the companion notes. -/
theorem parseExpression_eats (hreg : HandlersCount reg) (he : EngineCounts notes.length n e e')
    (m : Int) : Eats notes.length true (n + 1) (parseExpression reg nullExpr e m)
      (noting notes (parseExpression reg nullExpr e' m)) := by
  intro k σ τ h hlen
  have hnoted := h.note
  cases hfind : reg.findPrefixHandler (Parser.current σ).kind with
  | none =>
    have hreport := (hnoted.report
      ((Parser.current σ).sourceLoc, "unexpected token at expression start")).tail
    refine ⟨nullExpr, k + 1, _, _, parseExpression_of_none nullExpr e hfind m, ?_, hreport, ?_,
      List.suffix_refl _⟩
    · have hrun := parseExpression_of_none nullExpr e'
        (σ := { τ with diag := τ.diag ++ notes }) (by rwa [hnoted.current]) m
      rwa [hnoted.current] at hrun
    · have hle := (List.tail_suffix σ.tokens).length_le
      refine ⟨List.tail_suffix _, by dsimp only; omega, ?_, fun hlate => by cases hlate⟩
      intro hne
      have hpos := List.length_pos_iff.mpr hne
      have htail := List.length_tail (l := σ.tokens)
      dsimp only at hpos ⊢
      omega
  | some handler =>
    have hne : σ.tokens ≠ [] := by
      refine tokens_ne_nil fun heof => ?_
      rw [heof, hreg.prefixEof] at hfind
      cases hfind
    have hpos := List.length_pos_iff.mpr hne
    have hτ := parseExpression_of_some nullExpr e'
      (σ := { τ with diag := τ.diag ++ notes }) (by rwa [hnoted.current]) m
    rw [hnoted.current] at hτ
    have hrest : Counts notes.length true n
        (do
          let lhs ← handler e (Parser.current σ)
          infixLoop reg e m e.fuel lhs)
        (do
          let lhs ← handler e' (Parser.current σ)
          infixLoop reg e' m e'.fuel lhs) :=
      (hreg.prefix_ _ _ hfind _ n e e' _ he).bind fun lhs =>
        infixLoop_counts hreg he m (Nat.le_refl n) he.fuel he.fuel' lhs
    obtain ⟨c, k', σ', τ', hp, hq, h', hpays⟩ := hrest hnoted.tail (by
      rw [List.length_tail]
      omega)
    exact ⟨c, k', σ', τ', (parseExpression_of_some nullExpr e hfind m).trans hp, hτ.trans hq, h',
      hpays.call hne rfl, hpays.tokens⟩

/-- A handler that consumes a token first, at a token that it is for. -/
theorem handler_eats {late : Bool} {k : Nat} {σ τ : ParseState D G}
    {f : Engine D G E S → Token D → Parser D G α}
    (hf : ∀ tok, Counts w true n (f e tok) (f e' tok)) (h : Noted w k σ τ) (hne : σ.tokens ≠ [])
    (hlen : σ.tokens.length ≤ n) :
    Together w (Parser.consume >>= f e) (Parser.consume >>= f e')
      (fun _ k' σ' => Pays late k σ k' σ' ∧ σ'.tokens <:+ σ.tokens.tail) σ τ := by
  have hpos := List.length_pos_iff.mpr hne
  obtain ⟨a, k', σ', τ', hp, hq, h', hpays⟩ := hf (Parser.current σ) h.tail (by
    rw [List.length_tail]
    omega)
  refine ⟨a, k', σ', τ', hp, ?_, h', hpays.of_tail hne rfl, hpays.tokens⟩
  show f e' (Parser.current τ) _ = _
  rw [h.current]
  exact hq

theorem parseStatement_eats (hreg : HandlersCount reg) (he : EngineCounts w n e e') :
    Eats w false (n + 1) (parseStatement reg nullStmt e) (parseStatement reg nullStmt e') := by
  intro k σ τ h hlen
  cases hfind : reg.findStmtHandler (Parser.current σ).kind with
  | none =>
    refine (unexpected_eats "unexpected token at statement start" nullStmt h hlen).of_eq ?_ ?_
    · simp only [parseStatement, hfind]
    · simp only [parseStatement, h.current, hfind]
  | some handler =>
    obtain ⟨f, hhandler, hcounts⟩ := hreg.stmt _ _ hfind
    have hne : σ.tokens ≠ [] := by
      refine tokens_ne_nil fun heof => ?_
      rw [heof, hreg.stmtEof] at hfind
      cases hfind
    refine (handler_eats (fun tok => hcounts w n e e' tok he) h hne (by omega)).of_eq ?_ ?_
    · simp only [parseStatement, hfind, hhandler]
    · simp only [parseStatement, h.current, hfind, hhandler]

theorem itemWith_eats (hreg : HandlersCount reg) (he : EngineCounts w n e e') :
    Eats w true n (itemWith reg nullItem e) (itemWith reg nullItem e') := by
  intro k σ τ h hlen
  cases hfind : reg.findItemHandler (Parser.current σ).kind with
  | none =>
    refine (unexpected_eats "unexpected token at top-level start" nullItem h hlen).of_eq ?_ ?_
    · simp only [itemWith, hfind]
    · simp only [itemWith, h.current, hfind]
  | some handler =>
    obtain ⟨f, hhandler, hcounts⟩ := hreg.item _ _ hfind
    have hne : σ.tokens ≠ [] := by
      refine tokens_ne_nil fun heof => ?_
      rw [heof, hreg.itemEof] at hfind
      cases hfind
    refine (handler_eats (fun tok => hcounts w n e e' tok he) h hne (by omega)).of_eq ?_ ?_
    · simp only [itemWith, hfind, hhandler]
    · simp only [itemWith, h.current, hfind, hhandler]

/-- With bounds of at least `n` the engine and its companion agree on streams of less
than `n` tokens. Induction on `n`. -/
theorem parserEngine_counts (hreg : HandlersCount reg) (n : Nat) {a b : Nat} (ha : n ≤ a)
    (hb : n ≤ b) : EngineCounts notes.length n (parserEngine reg nullExpr nullStmt a)
      (notingEngine reg nullExpr nullStmt notes b) := by
  induction n generalizing a b with
  | zero =>
    refine ⟨fun m k σ τ _ hlen => ?_, fun k σ τ _ hlen => ?_, Nat.zero_le _, Nat.zero_le _⟩
    · exact absurd hlen (Nat.not_lt_zero _)
    · exact absurd hlen (Nat.not_lt_zero _)
  | succ n ih =>
    obtain ⟨a, rfl⟩ : ∃ a', a = a' + 1 := ⟨a - 1, by omega⟩
    obtain ⟨b, rfl⟩ : ∃ b', b = b' + 1 := ⟨b - 1, by omega⟩
    have he := ih (a := a) (b := b) (by omega) (by omega)
    exact ⟨fun m => parseExpression_eats hreg he m, parseStatement_eats hreg he, ha, hb⟩

end

/-! ## The default pack -/

section
variable {builder : ExprBuilder D E} {w n : Nat} {e e' : Engine D G E S}

theorem prefixIntegerExpr_quiet (tok : Token D) :
    Quiet (DefaultGrammarPack.prefixIntegerExpr builder e tok) := by
  unfold DefaultGrammarPack.prefixIntegerExpr
  cases tok.literal with
  | int val => exact Quiet.pure _
  | none => exact (Quiet.error _ _).bind fun _ => Quiet.pure _
  | double val => exact (Quiet.error _ _).bind fun _ => Quiet.pure _

theorem prefixFloatExpr_quiet (tok : Token D) :
    Quiet (DefaultGrammarPack.prefixFloatExpr builder e tok) := by
  unfold DefaultGrammarPack.prefixFloatExpr
  cases tok.literal with
  | double val => exact Quiet.pure _
  | none => exact (Quiet.error _ _).bind fun _ => Quiet.pure _
  | int val => exact (Quiet.error _ _).bind fun _ => Quiet.pure _

theorem prefixParenExpr_counts (he : EngineCounts w n e e') (tok : Token D) :
    Counts w true n (DefaultGrammarPack.prefixParenExpr builder e tok)
      (DefaultGrammarPack.prefixParenExpr builder e' tok) :=
  (he.expression 0).counts.bind fun _ =>
    Counts.of_quiet ((Quiet.expect _ _).bind fun _ => Quiet.ite (Quiet.pure _) (Quiet.pure _))

end

/-! ## Calls in the source -/

section
variable {w n : Nat} {e e' : Engine D G E S}

theorem EngineCounts.subexpr (he : EngineCounts w n e e') :
    Counts w true n (e.parseExpression 0) (e'.parseExpression 0) :=
  (he.expression 0).counts

/-- A list of arguments, one for each turn of a loop that goes on behind a comma. Induction
on the bound. -/
theorem arguments_counts (he : EngineCounts w n e e') {message : String}
    {loop : Engine D G E S → Nat → List E → Parser D G (Option (List E))}
    (hloop : ∀ e a args, loop e (a + 1) args = (do
      let arg ← e.parseExpression 0
      let closing ← Parser.atKind .rParen
      if closing then pure (some (args ++ [arg]))
      else do
        let comma ← Parser.expect .comma message
        if comma then loop e a (args ++ [arg]) else pure none))
    {m : Nat} (hm : m ≤ n) {a b : Nat} (ha : m ≤ a) (hb : m ≤ b) (args : List E) :
    Counts w true m (loop e a args) (loop e' b args) := by
  induction m generalizing a b args with
  | zero => exact fun k σ τ _ hlen => absurd hlen (Nat.not_lt_zero _)
  | succ m ih =>
    obtain ⟨a, rfl⟩ : ∃ a', a = a' + 1 := ⟨a - 1, by omega⟩
    obtain ⟨b, rfl⟩ : ∃ b', b = b' + 1 := ⟨b - 1, by omega⟩
    rw [hloop, hloop]
    refine (he.subexpr.mono hm).bind fun arg => ?_
    refine Counts.quiet_bind (Quiet.atKind _) fun closing => ?_
    cases closing with
    | true => exact Counts.pure _
    | false =>
      refine Counts.test_bind (Tests.expect (by decide) _) ?_ (Counts.pure _)
      exact ih (by omega) (by omega) (by omega) _

/-- Arguments between parentheses behind a name, or the name alone. -/
theorem identifierOrCall_counts {list list' : Parser D G (Option (List E))} {other : Parser D G E}
    {rest : Option (List E) → Parser D G E} (hlist : Counts w true n list list')
    (hrest : ∀ args, Quiet (rest args)) (hother : Quiet other) :
    Counts w true n
      (do
        let opened ← Parser.matchKind .lParen
        if opened then list >>= rest else other)
      (do
        let opened ← Parser.matchKind .lParen
        if opened then list' >>= rest else other) := by
  refine Counts.test_bind (Tests.matchKind (by decide)) ?_ (Counts.of_quiet hother)
  exact (hlist.mono (Nat.sub_le n 1)).bind fun args => Counts.of_quiet (hrest args)

end

/-! ## Termination -/

/-- Started on any state, the parser returns, and returns the same with every bound
above the number of tokens. It has consumed a token unless there was none, and its
companion has noted at most one call more than tokens were consumed. -/
def Terminates (notes : List (SourceLoc × String)) (p q : Nat → Parser D G α) : Prop :=
  ∀ σ, ∃ a σ', σ'.tokens <:+ σ.tokens.tail ∧ ∀ fuel, σ.tokens.length < fuel →
    p fuel σ = some (a, σ') ∧ ∃ calls τ', q fuel σ = some (a, τ') ∧
      Noted notes.length calls σ' τ' ∧ calls + σ'.tokens.length ≤ σ.tokens.length + 1

/-- With the companion that notes nothing, two bounds are compared. -/
theorem Terminates.of_eats {notes : List (SourceLoc × String)} {late : Bool}
    {p q : Nat → Parser D G α}
    (h : ∀ n a b, n ≤ a → n ≤ b → Eats notes.length late n (p a) (q b))
    (hplain : ∀ n a b, n ≤ a → n ≤ b → Eats 0 late n (p a) (p b)) : Terminates notes p q := by
  intro σ
  have hlen : σ.tokens.length < σ.tokens.length + 1 := Nat.lt_succ_self _
  obtain ⟨a, -, σ', -, hp, -, -, -, heats⟩ :=
    h _ _ _ (Nat.le_refl _) (Nat.le_refl _) (Noted.refl _ σ) hlen
  refine ⟨a, σ', heats, fun fuel hfuel => ?_⟩
  constructor
  · obtain ⟨b, k, σ₁, τ₁, hp₁, hp₂, hnoted, -⟩ :=
      hplain _ fuel _ hfuel (Nat.le_refl _) (Noted.refl 0 σ) hlen
    rw [hp₁, ← hnoted.eq_of_zero, ← hp₂, hp]
  · obtain ⟨b, calls, σ₁, τ₁, hp₁, hq, hnoted, hpays, -⟩ :=
      h _ _ fuel (Nat.le_refl _) hfuel (Noted.refl _ σ) hlen
    rw [hp] at hp₁
    cases hp₁
    have hcalls := hpays.calls
    exact ⟨calls, τ₁, hq, hnoted, by omega⟩

/-- What is left of the stream behind a parse that was started on a token. -/
theorem Terminates.shrinks {notes : List (SourceLoc × String)}
    {p q : Nat → Parser D G α} (h : Terminates notes p q)
    {σ : ParseState D G} {fuel : Nat} (hfuel : σ.tokens.length < fuel)
    (hne : (Parser.current σ).kind ≠ .eof) :
    ∃ a σ', p fuel σ = some (a, σ') ∧ σ'.tokens.length < σ.tokens.length := by
  obtain ⟨a, σ', hsuffix, hrun⟩ := h σ
  have hle := hsuffix.length_le
  have hpos := List.length_pos_iff.mpr (tokens_ne_nil hne)
  rw [List.length_tail] at hle
  exact ⟨a, σ', (hrun fuel hfuel).1, by omega⟩

section
variable {reg : ParserRegistry D G E S I} (hreg : HandlersCount reg) (nullExpr : E) (nullStmt : S)
  (nullItem : I) (notes : List (SourceLoc × String))
include hreg

theorem plain_counts (n : Nat) {a b : Nat} (ha : n ≤ a) (hb : n ≤ b) :
    EngineCounts 0 n (parserEngine reg nullExpr nullStmt a)
      (parserEngine reg nullExpr nullStmt b) := by
  have hcounts : EngineCounts ([] : List (SourceLoc × String)).length n
      (parserEngine reg nullExpr nullStmt a) (notingEngine reg nullExpr nullStmt [] b) :=
    parserEngine_counts hreg n ha hb
  rwa [notingEngine_nil] at hcounts

theorem parseExpression_terminates (m : Int) : Terminates notes
    (fun fuel => (parserEngine reg nullExpr nullStmt fuel).parseExpression m)
    (fun fuel => (notingEngine reg nullExpr nullStmt notes fuel).parseExpression m) :=
  Terminates.of_eats (fun n _ _ ha hb => (parserEngine_counts hreg n ha hb).expression m)
    (fun n _ _ ha hb => (plain_counts hreg nullExpr nullStmt n ha hb).expression m)

theorem parseStatement_terminates : Terminates notes
    (fun fuel => (parserEngine reg nullExpr nullStmt fuel).parseStatement)
    (fun fuel => (notingEngine reg nullExpr nullStmt notes fuel).parseStatement) :=
  Terminates.of_eats (fun n _ _ ha hb => (parserEngine_counts hreg n ha hb).statement)
    (fun n _ _ ha hb => (plain_counts hreg nullExpr nullStmt n ha hb).statement)

theorem parseItem_terminates : Terminates notes
    (fun fuel => parseItem reg nullExpr nullStmt nullItem fuel)
    (fun fuel => itemWith reg nullItem (notingEngine reg nullExpr nullStmt notes fuel)) :=
  Terminates.of_eats (fun n _ _ ha hb => itemWith_eats hreg (parserEngine_counts hreg n ha hb))
    (fun n _ _ ha hb => itemWith_eats hreg (plain_counts hreg nullExpr nullStmt n ha hb))

end

end AroundTheWorld.Parse
