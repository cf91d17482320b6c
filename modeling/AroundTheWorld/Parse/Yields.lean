import AroundTheWorld.Parse.Engine

/-!
# What a parser that reports nothing has read

`Yields p Q`: a run of `p` consumes a prefix of the stream, only adds
diagnostics and leaves the globals alone, and if it adds none then `Q` relates
the consumed tokens to the result. One rule for each primitive of the context,
and one for the engine over any registry whose handlers keep a relation `Spec`.
-/

namespace AroundTheWorld.Parse

open AroundTheWorld.Lex

variable {D G E S I α β : Type}

/-- The run from `σ` to `σ'` consumed and reported exactly this. -/
structure Ran (σ : ParseState D G) (consumed : List (Token D))
    (reported : List (SourceLoc × String)) (σ' : ParseState D G) : Prop where
  tokens : σ.tokens = consumed ++ σ'.tokens
  diag : σ'.diag = σ.diag ++ reported
  eofLoc : σ'.eofLoc = σ.eofLoc
  globals : σ'.globals = σ.globals

theorem Ran.refl (σ : ParseState D G) : Ran σ [] [] σ := ⟨rfl, by simp, rfl, rfl⟩

theorem Ran.trans {σ σ' σ'' : ParseState D G} {c c' : List (Token D)}
    {r r' : List (SourceLoc × String)} (h : Ran σ c r σ') (h' : Ran σ' c' r' σ'') :
    Ran σ (c ++ c') (r ++ r') σ'' := by
  refine ⟨?_, ?_, h'.eofLoc.trans h.eofLoc, h'.globals.trans h.globals⟩
  · rw [h.tokens, h'.tokens, List.append_assoc]
  · rw [h'.diag, h.diag, List.append_assoc]

/-- The current token is in the stream unless it is `Eof`. -/
theorem tokens_of_current {σ : ParseState D G} (h : (Parser.current σ).kind ≠ .eof) :
    σ.tokens = Parser.current σ :: σ.tokens.tail := by
  unfold Parser.current at h ⊢
  cases hts : σ.tokens with
  | nil => simp [hts] at h
  | cons tok rest => simp

theorem Ran.consume {σ : ParseState D G} (h : (Parser.current σ).kind ≠ .eof) :
    Ran σ [Parser.current σ] [] { σ with tokens := σ.tokens.tail } :=
  ⟨tokens_of_current h, by simp, rfl, rfl⟩

theorem Ran.error (σ : ParseState D G) (loc : SourceLoc) (message : String) :
    Ran σ [] [(loc, message)] { σ with diag := σ.diag ++ [(loc, message)] } :=
  ⟨rfl, rfl, rfl, rfl⟩

/-- Dropping the head of the stream, whatever it is. -/
theorem Ran.tail (σ : ParseState D G) :
    ∃ consumed, Ran σ consumed [] { σ with tokens := σ.tokens.tail } := by
  by_cases h : (Parser.current σ).kind = .eof
  · exact ⟨σ.tokens.take 1, by cases σ.tokens <;> simp, by simp, rfl, rfl⟩
  · exact ⟨_, Ran.consume h⟩

theorem Parser.expect_cases {kind : TokenKind} {message : String} {σ σ' : ParseState D G} {b : Bool}
    (h : Parser.expect kind message σ = some (b, σ')) :
    (b = true ∧ (Parser.current σ).kind = kind ∧ (kind ≠ .eof → Ran σ [Parser.current σ] [] σ')) ∨
      (b = false ∧ Ran σ [] [((Parser.current σ).sourceLoc, message)] σ') := by
  unfold Parser.expect at h
  split at h
  · rename_i hkind
    cases h
    exact .inl ⟨rfl, hkind, fun hne => Ran.consume (hkind ▸ hne)⟩
  · cases h
    exact .inr ⟨rfl, Ran.error σ _ message⟩

def Yields (p : Parser D G α) (Q : List (Token D) → α → Prop) : Prop :=
  ∀ ⦃σ a σ'⦄, p σ = some (a, σ') → ∃ consumed reported, Ran σ consumed reported σ' ∧
    (reported = [] → Q consumed a)

namespace Yields

variable {Q R : List (Token D) → α → Prop} {T : List (Token D) → β → Prop} {kind : TokenKind}
  {message : String}

theorem mono {p : Parser D G α} (h : Yields p Q) (hQR : ∀ c a, Q c a → R c a) : Yields p R := by
  intro σ a σ' hrun
  obtain ⟨c, r, hran, hQ⟩ := h hrun
  exact ⟨c, r, hran, fun hr => hQR c a (hQ hr)⟩

theorem diverge : Yields (Parser.diverge : Parser D G α) Q := by
  intro σ a σ' hrun
  cases hrun

theorem pure {a : α} (h : Q [] a) : Yields (Pure.pure a : Parser D G α) Q := by
  intro σ b σ' hrun
  cases hrun
  exact ⟨[], [], Ran.refl _, fun _ => h⟩

/-- The second parser's relation is about what is consumed after the first. -/
theorem bind {p : Parser D G α} {f : α → Parser D G β} (hp : Yields p Q)
    (hf : ∀ a, Yields (f a) fun c b => ∀ c₀, Q c₀ a → T (c₀ ++ c) b) : Yields (p >>= f) T := by
  intro σ b σ' hrun
  obtain ⟨⟨a, σ₁⟩, hrun₁, hrun₂⟩ := Option.bind_eq_some_iff.mp hrun
  obtain ⟨c₁, r₁, hran₁, hQ⟩ := hp hrun₁
  obtain ⟨c₂, r₂, hran₂, hT⟩ := hf a hrun₂
  refine ⟨c₁ ++ c₂, r₁ ++ r₂, hran₁.trans hran₂, ?_⟩
  intro hr
  obtain ⟨hr₁, hr₂⟩ := List.append_eq_nil_iff.mp hr
  exact hT hr₂ c₁ (hQ hr₁)

/-- After a diagnostic only the frame matters. -/
theorem error_bind (loc : SourceLoc) (message : String) {f : Unit → Parser D G β}
    (hf : Yields (f ()) fun _ _ => True) :
    Yields (Parser.error loc message >>= f) T := by
  intro σ b σ' hrun
  obtain ⟨c, r, hran, -⟩ := hf hrun
  exact ⟨_, _, (Ran.error σ loc message).trans hran, fun hr => by simp at hr⟩

theorem errorHere_bind (message : String) {f : Unit → Parser D G β}
    (hf : Yields (f ()) fun _ _ => True) :
    Yields (Parser.errorHere message >>= f) T := by
  intro σ b σ' hrun
  exact error_bind (Parser.current σ).sourceLoc message hf hrun

theorem atKind_bind {f : Bool → Parser D G β} (hf : ∀ b, Yields (f b) T) :
    Yields (Parser.atKind kind >>= f) T := by
  intro σ b σ' hrun
  exact hf _ hrun

theorem matchKind_bind {f : Bool → Parser D G β} (hkind : kind ≠ .eof)
    (ht : Yields (f true) fun c b => ∀ tok, tok.kind = kind → T (tok :: c) b)
    (hf : Yields (f false) T) : Yields (Parser.matchKind kind >>= f) T := by
  intro σ b σ' hrun
  by_cases hcur : (Parser.current σ).kind = kind
  · simp only [Bind.bind, Parser.bind, Parser.matchKind, hcur, if_true, Option.bind_some] at hrun
    obtain ⟨c, r, hran, hT⟩ := ht hrun
    have hne : (Parser.current σ).kind ≠ .eof := hcur ▸ hkind
    exact ⟨_, _, (Ran.consume hne).trans hran, fun hr => hT hr _ hcur⟩
  · simp only [Bind.bind, Parser.bind, Parser.matchKind, hcur, if_false, Option.bind_some] at hrun
    exact hf hrun

theorem expect_bind {f : Bool → Parser D G β} (hkind : kind ≠ .eof)
    (ht : Yields (f true) fun c b => ∀ tok, tok.kind = kind → T (tok :: c) b)
    (hf : Yields (f false) fun _ _ => True) : Yields (Parser.expect kind message >>= f) T := by
  intro σ b σ' hrun
  obtain ⟨⟨found, σ₁⟩, hexpect, hrun⟩ := Option.bind_eq_some_iff.mp hrun
  rcases Parser.expect_cases hexpect with ⟨rfl, hcur, hran₁⟩ | ⟨rfl, hran₁⟩
  · obtain ⟨c, r, hran, hT⟩ := ht hrun
    exact ⟨_, _, (hran₁ hkind).trans hran, fun hr => hT hr _ hcur⟩
  · obtain ⟨c, r, hran, -⟩ := hf hrun
    exact ⟨_, _, hran₁.trans hran, fun hr => by simp at hr⟩

/-- A token that is consumed after its kind has been looked at. -/
theorem atKind_consume {f : Token D → Parser D G β} {q : Parser D G β} (hkind : kind ≠ .eof)
    (ht : ∀ tok, tok.kind = kind → Yields (f tok) fun c b => T (tok :: c) b) (hq : Yields q T) :
    Yields (do
      let found ← Parser.atKind kind
      if found then do
        let tok ← Parser.consume
        f tok
      else q) T := by
  intro σ b σ' hrun
  by_cases hcur : (Parser.current σ).kind = kind
  · simp only [Bind.bind, Parser.bind, Parser.atKind, hcur, beq_self_eq_true, if_true,
      Option.bind_some, Parser.consume] at hrun
    obtain ⟨c, r, hran, hT⟩ := ht _ hcur hrun
    have hne : (Parser.current σ).kind ≠ .eof := hcur ▸ hkind
    exact ⟨_, _, (Ran.consume hne).trans hran, hT⟩
  · have hb : ((Parser.current σ).kind == kind) = false := by simpa using hcur
    simp only [Bind.bind, Parser.bind, Parser.atKind, hb, Option.bind_some] at hrun
    exact hq hrun

end Yields

/-! ## The engine -/

/-- All calls of the engine with a minimum precedence from 0 on yield `Spec`. -/
def EngineYields (engine : Engine D G E S) (Spec : List (Token D) → E → Prop) : Prop :=
  ∀ m, 0 ≤ m → Yields (engine.parseExpression m) Spec

/-- The handlers of a registry keep `Spec`; an infix handler only has to for
tokens that bind, since others never become operators. -/
structure KeepsSpec (reg : ParserRegistry D G E S I) (Spec : List (Token D) → E → Prop) :
    Prop where
  prefix_ : ∀ kind handler, reg.findPrefixHandler kind = some handler → kind ≠ .eof ∧
    ∀ engine, EngineYields engine Spec → ∀ tok, tok.kind = kind →
      Yields (handler engine tok) fun c e => Spec (tok :: c) e
  infix_ : ∀ kind entry, reg.findInfixHandler kind = some entry → kind ≠ .eof ∧
    ∀ engine, EngineYields engine Spec → ∀ globals tok, tok.kind = kind →
      0 ≤ entry.getPrecedence globals tok → ∀ lhs rhs, Yields (entry.handler engine lhs tok rhs)
        fun c e => ∀ l r, Spec l lhs → Spec r rhs → Spec (l ++ tok :: (r ++ c)) e

section
variable {reg : ParserRegistry D G E S I} {Spec : List (Token D) → E → Prop}

/-- The loop extends the expression it is given. Induction on the iterations. -/
theorem infixLoop_yields (hreg : KeepsSpec reg Spec) {engine : Engine D G E S}
    (hengine : EngineYields engine Spec) {m : Int} (hm : 0 ≤ m) (n : Nat) (lhs : E) :
    Yields (infixLoop reg engine m n lhs) fun c e => ∀ l, Spec l lhs → Spec (l ++ c) e := by
  induction n generalizing lhs with
  | zero => exact Yields.diverge
  | succ n ih =>
    intro σ e σ' hrun
    unfold infixLoop at hrun
    cases hfind : reg.findInfixHandler (Parser.current σ).kind with
    | none =>
      simp only [hfind] at hrun
      cases hrun
      exact ⟨[], [], Ran.refl _, fun _ l hl => by simpa using hl⟩
    | some entry =>
      obtain ⟨hne, hhandler⟩ := hreg.infix_ _ _ hfind
      simp only [hfind] at hrun
      split at hrun
      · cases hrun
        exact ⟨[], [], Ran.refl _, fun _ l hl => by simpa using hl⟩
      · rename_i hprec
        have hprec0 : 0 ≤ entry.getPrecedence σ.globals (Parser.current σ) := by omega
        have hiter := Yields.bind (T := fun c e => ∀ l, Spec l lhs →
            Spec (l ++ Parser.current σ :: c) e)
          (hengine (entry.getPrecedence σ.globals (Parser.current σ) + 1) (by omega))
          fun rhs => Yields.bind (hhandler engine hengine σ.globals _ rfl hprec0 lhs rhs)
            fun lhs' => (ih lhs').mono (fun c e h c₁ h₁ r hr l hl => by
              simpa using h _ (h₁ l r hl hr))
        obtain ⟨c, r, hran, hspec⟩ := hiter hrun
        refine ⟨_, _, (Ran.consume hne).trans hran, ?_⟩
        intro hr l hl
        exact hspec hr l hl

/-- Induction on the depth of the calls: one call uses the engine below it. -/
theorem parserEngine_yields (hreg : KeepsSpec reg Spec) (nullExpr : E) (nullStmt : S) (n : Nat) :
    EngineYields (parserEngine reg nullExpr nullStmt n) Spec := by
  induction n with
  | zero => exact fun m _ => Yields.diverge
  | succ n ih =>
    intro m hm σ e σ' hrun
    simp only [parserEngine_parseExpression, parseExpression, parserEngine_fuel, Bind.bind,
      Parser.bind, Parser.consume, Option.bind_some] at hrun
    cases hfind : reg.findPrefixHandler (Parser.current σ).kind with
    | none =>
      simp only [hfind] at hrun
      obtain ⟨c, hran⟩ := Ran.tail σ
      have herr : Yields (D := D) (G := G) (do
          Parser.error (Parser.current σ).sourceLoc "unexpected token at expression start"
          pure nullExpr) fun _ _ => False := Yields.error_bind _ _ (Yields.pure trivial)
      obtain ⟨c', r', hran', hfalse⟩ := herr hrun
      exact ⟨_, _, hran.trans hran', fun hr => (hfalse hr).elim⟩
    | some handler =>
      obtain ⟨hne, hhandler⟩ := hreg.prefix_ _ _ hfind
      simp only [hfind] at hrun
      have hbody := Yields.bind (T := fun c e => Spec (Parser.current σ :: c) e)
        (hhandler _ ih _ rfl) fun lhs => (infixLoop_yields hreg ih hm n lhs).mono
          fun c e h c₀ h₀ => h _ h₀
      obtain ⟨c, r, hran, hspec⟩ := hbody hrun
      exact ⟨_, _, (Ran.consume hne).trans hran, hspec⟩

end

end AroundTheWorld.Parse
