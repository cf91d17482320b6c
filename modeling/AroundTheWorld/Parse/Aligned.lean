import AroundTheWorld.Parse.Engine

/-!
# Parsing up to a token that ends an item

Two streams hold the same tokens up to one that no handler is registered for, at whatever
locations, and anything behind it. As long as nothing is reported, a parser takes the same
from both, and reports nothing on the second either.
-/

namespace AroundTheWorld.Parse

open AroundTheWorld.Lex

variable {D G E S I α β : Type}

/-- The list starts with a token of that kind. -/
def StartsWith (stop : TokenKind) (ts : List (Token D)) : Prop :=
  ∃ tok rest, ts = tok :: rest ∧ tok.kind = stop

/-- Two states in front of the same tokens and of what comes later. -/
structure Aligned (later later' : List (Token D)) (σ τ : ParseState D G) : Prop where
  tokens : ∃ ts ts', ts.map (·.content) = ts'.map (·.content) ∧ σ.tokens = ts ++ later ∧
    τ.tokens = ts' ++ later'
  diag : σ.diag = τ.diag
  globals : σ.globals = τ.globals

/-- A run of `p` only adds diagnostics. When it adds none, `q` tracks it on every aligned
state, with a result that looks the same. -/
def Tracks (later later' : List (Token D)) (view : α → β) (p q : Parser D G α) : Prop :=
  ∀ ⦃σ a σ'⦄, p σ = some (a, σ') → ∃ reported, σ'.diag = σ.diag ++ reported ∧
    (reported = [] → ∀ τ, Aligned later later' σ τ →
      ∃ b τ', q τ = some (b, τ') ∧ view a = view b ∧ Aligned later later' σ' τ')

/-- A run of `p` reports something. -/
def Reports (p : Parser D G α) : Prop :=
  ∀ ⦃σ a σ'⦄, p σ = some (a, σ') → ∃ reported, reported ≠ [] ∧ σ'.diag = σ.diag ++ reported

theorem reports_error (loc : SourceLoc) (message : String) (a : α) :
    Reports (do
      Parser.error loc message
      pure a : Parser D G α) := by
  intro σ a' σ' hrun
  cases hrun
  exact ⟨[(loc, message)], by simp, rfl⟩

theorem reports_errorHere (message : String) (a : α) :
    Reports (do
      Parser.errorHere message
      pure a : Parser D G α) := by
  intro σ a' σ' hrun
  exact reports_error (Parser.current σ).sourceLoc message a hrun

section
variable {stop kind : TokenKind} {later later' : List (Token D)} {σ τ : ParseState D G}
  {tok tok' : Token D}

theorem content_kind (h : tok.content = tok'.content) : tok.kind = tok'.kind :=
  (Prod.mk.inj h).1

theorem content_lexeme (h : tok.content = tok'.content) : tok.lexeme = tok'.lexeme :=
  (Prod.mk.inj (Prod.mk.inj h).2).1

theorem content_literal (h : tok.content = tok'.content) : tok.literal = tok'.literal :=
  (Prod.mk.inj (Prod.mk.inj h).2).2

/-- The current tokens are alike, or both streams stand at what comes later. -/
theorem Aligned.current (hlater : StartsWith stop later) (hlater' : StartsWith stop later')
    (h : Aligned later later' σ τ) :
    ((Parser.current σ).kind = stop ∧ (Parser.current τ).kind = stop) ∨
      ((Parser.current σ).content = (Parser.current τ).content ∧
        Aligned later later' { σ with tokens := σ.tokens.tail }
          { τ with tokens := τ.tokens.tail }) := by
  obtain ⟨ts, ts', hts, hσ, hτ⟩ := h.tokens
  unfold Parser.current
  rw [hσ, hτ]
  cases ts with
  | nil =>
    obtain rfl : ts' = [] := by simpa using hts.symm
    obtain ⟨tok, rest, rfl, hkind⟩ := hlater
    obtain ⟨tok', rest', rfl, hkind'⟩ := hlater'
    exact .inl ⟨hkind, hkind'⟩
  | cons tok ts =>
    cases ts' with
    | nil => cases hts
    | cons tok' ts' =>
      obtain ⟨hcontent, hts⟩ := List.cons.inj hts
      exact .inr ⟨hcontent, ⟨ts, ts', hts, rfl, rfl⟩, h.diag, h.globals⟩

theorem Aligned.current_kind (hlater : StartsWith stop later) (hlater' : StartsWith stop later')
    (h : Aligned later later' σ τ) : (Parser.current σ).kind = (Parser.current τ).kind := by
  rcases h.current hlater hlater' with ⟨hσ, hτ⟩ | ⟨hcontent, -⟩
  · rw [hσ, hτ]
  · exact content_kind hcontent

theorem Aligned.symm (h : Aligned later later' σ τ) : Aligned later' later τ σ := by
  obtain ⟨ts, ts', hts, hσ, hτ⟩ := h.tokens
  exact ⟨⟨ts', ts, hts.symm, hτ, hσ⟩, h.diag.symm, h.globals.symm⟩

/-- At any other token both go on. -/
theorem Aligned.step (hlater : StartsWith stop later) (hlater' : StartsWith stop later')
    (h : Aligned later later' σ τ) (hne : (Parser.current σ).kind ≠ stop) :
    (Parser.current σ).content = (Parser.current τ).content ∧
      Aligned later later' { σ with tokens := σ.tokens.tail } { τ with tokens := τ.tokens.tail } :=
  (h.current hlater hlater').resolve_left fun hstop => hne hstop.1

end

namespace Tracks

variable {γ δ : Type} {stop kind : TokenKind} {later later' : List (Token D)} {view : α → γ}
  {view' : β → δ} {message : String}

theorem diverge {q : Parser D G α} : Tracks later later' view Parser.diverge q := by
  intro σ a σ' hrun
  cases hrun

theorem pure {a b : α} (h : view a = view b) :
    Tracks (G := G) later later' view (Pure.pure a) (Pure.pure b) := by
  intro σ a' σ' hrun
  cases hrun
  exact ⟨[], by simp, fun _ τ halign => ⟨b, τ, rfl, h, halign⟩⟩

theorem bind {p q : Parser D G α} {f g : α → Parser D G β} (hp : Tracks later later' view p q)
    (hf : ∀ a b, view a = view b → Tracks later later' view' (f a) (g b)) :
    Tracks later later' view' (p >>= f) (q >>= g) := by
  intro σ c σ' hrun
  obtain ⟨⟨a, σ₁⟩, hrun₁, hrun₂⟩ := Option.bind_eq_some_iff.mp hrun
  obtain ⟨r₁, hr₁, hq⟩ := hp hrun₁
  obtain ⟨r₂, hr₂, -⟩ := hf a a rfl hrun₂
  refine ⟨r₁ ++ r₂, by rw [hr₂, hr₁, List.append_assoc], ?_⟩
  intro hnil τ halign
  obtain ⟨rfl, rfl⟩ := List.append_eq_nil_iff.mp hnil
  obtain ⟨b, τ₁, hτ₁, hview, halign₁⟩ := hq rfl τ halign
  obtain ⟨r, hr, hg⟩ := hf a b hview hrun₂
  obtain rfl : r = [] := by
    rw [hr₂] at hr
    exact (List.append_cancel_left hr).symm
  obtain ⟨d, τ₂, hτ₂, hview', halign₂⟩ := hg rfl τ₁ halign₁
  exact ⟨d, τ₂, Option.bind_eq_some_iff.mpr ⟨_, hτ₁, hτ₂⟩, hview', halign₂⟩

/-- Equal results. -/
theorem bind_same {p q : Parser D G α} {f g : α → Parser D G β} (hp : Tracks later later' id p q)
    (hf : ∀ a, Tracks later later' view' (f a) (g a)) :
    Tracks later later' view' (p >>= f) (q >>= g) := by
  refine hp.bind ?_
  rintro a b rfl
  exact hf a

theorem run {p q : Parser D G α} (h : Tracks later later' id p q) {σ σ' τ : ParseState D G} {a : α}
    (hrun : p σ = some (a, σ')) (hdiag : σ'.diag = σ.diag) (halign : Aligned later later' σ τ) :
    ∃ τ', q τ = some (a, τ') ∧ Aligned later later' σ' τ' := by
  obtain ⟨reported, hreported, hq⟩ := h hrun
  rw [hdiag, List.self_eq_append_right] at hreported
  obtain ⟨b, τ', hτ, rfl, halign'⟩ := hq hreported τ halign
  exact ⟨τ', hτ, halign'⟩

/-- Behind a diagnostic nothing has to be followed. -/
theorem of_reports {p q : Parser D G α} (h : Reports p) : Tracks later later' view p q := by
  intro σ a σ' hrun
  obtain ⟨r, hne, hr⟩ := h hrun
  exact ⟨r, hr, fun hnil => absurd hnil hne⟩

section
variable (hlater : StartsWith stop later) (hlater' : StartsWith stop later')
include hlater hlater'

theorem atKind_bind {f g : Bool → Parser D G α}
    (hf : ∀ b, Tracks later later' view (f b) (g b)) :
    Tracks later later' view (Parser.atKind kind >>= f) (Parser.atKind kind >>= g) := by
  intro σ a σ' hrun
  obtain ⟨r, hr, hq⟩ := hf _ hrun
  refine ⟨r, hr, fun hnil τ halign => ?_⟩
  obtain ⟨b, τ', hτ, hview, halign'⟩ := hq hnil τ halign
  refine ⟨b, τ', ?_, hview, halign'⟩
  rw [halign.current_kind hlater hlater'] at hτ
  exact hτ

/-- A token is taken, and what ends an item is reported. -/
theorem consume_bind {f g : Token D → Parser D G α}
    (hstop : ∀ tok, tok.kind = stop → Reports (f tok))
    (hf : ∀ tok tok', tok.content = tok'.content → Tracks later later' view (f tok) (g tok')) :
    Tracks later later' view (Parser.consume >>= f) (Parser.consume >>= g) := by
  intro σ a σ' hrun
  have hrun' : f (Parser.current σ) { σ with tokens := σ.tokens.tail } = some (a, σ') := hrun
  by_cases hkind : (Parser.current σ).kind = stop
  · obtain ⟨r, hne, hr⟩ := hstop _ hkind hrun'
    exact ⟨r, hr, fun hnil => absurd hnil hne⟩
  · obtain ⟨r, hr, -⟩ := hf _ _ rfl hrun'
    refine ⟨r, hr, fun hnil τ halign => ?_⟩
    obtain ⟨hcontent, halign'⟩ := halign.step hlater hlater' hkind
    obtain ⟨r', hr', hg⟩ := hf _ _ hcontent hrun'
    obtain rfl : r' = r := by
      rw [hr] at hr'
      exact (List.append_cancel_left hr').symm
    exact hg hnil _ halign'

theorem matchKind_bind (hne : kind ≠ stop) {f g : Bool → Parser D G α}
    (hf : ∀ b, Tracks later later' view (f b) (g b)) :
    Tracks later later' view (Parser.matchKind kind >>= f) (Parser.matchKind kind >>= g) := by
  intro σ a σ' hrun
  have hcases : ∀ (ρ : ParseState D G) (h : Bool → Parser D G α), (Parser.matchKind kind >>= h) ρ =
      if (Parser.current ρ).kind = kind then h true { ρ with tokens := ρ.tokens.tail }
      else h false ρ := by
    intro ρ h
    simp only [Bind.bind, Parser.bind, Parser.matchKind]
    split <;> rfl
  rw [hcases] at hrun
  split at hrun
  · rename_i hkind
    obtain ⟨r, hr, hg⟩ := hf true hrun
    refine ⟨r, hr, fun hnil τ halign => ?_⟩
    obtain ⟨-, halign'⟩ := halign.step hlater hlater' (by rwa [hkind])
    rw [hcases, ← halign.current_kind hlater hlater', if_pos hkind]
    exact hg hnil _ halign'
  · rename_i hkind
    obtain ⟨r, hr, hg⟩ := hf false hrun
    refine ⟨r, hr, fun hnil τ halign => ?_⟩
    rw [hcases, ← halign.current_kind hlater hlater', if_neg hkind]
    exact hg hnil τ halign

theorem expect_bind (hne : kind ≠ stop) {f g : Bool → Parser D G α}
    (hf : ∀ b, Tracks later later' view (f b) (g b)) :
    Tracks later later' view (Parser.expect kind message >>= f)
      (Parser.expect kind message >>= g) := by
  intro σ a σ' hrun
  have hcases : ∀ (ρ : ParseState D G) (h : Bool → Parser D G α),
      (Parser.expect kind message >>= h) ρ =
        if (Parser.current ρ).kind = kind then h true { ρ with tokens := ρ.tokens.tail }
        else h false { ρ with diag := ρ.diag ++ [((Parser.current ρ).sourceLoc, message)] } := by
    intro ρ h
    simp only [Bind.bind, Parser.bind, Parser.expect]
    split <;> rfl
  rw [hcases] at hrun
  split at hrun
  · rename_i hkind
    obtain ⟨r, hr, hg⟩ := hf true hrun
    refine ⟨r, hr, fun hnil τ halign => ?_⟩
    obtain ⟨-, halign'⟩ := halign.step hlater hlater' (by rwa [hkind])
    rw [hcases, ← halign.current_kind hlater hlater', if_pos hkind]
    exact hg hnil _ halign'
  · obtain ⟨r, hr, -⟩ := hf false hrun
    exact ⟨((Parser.current σ).sourceLoc, message) :: r, by rw [hr]; simp,
      fun hnil => by cases hnil⟩

/-- A token that is taken after its kind has been looked at. -/
theorem atKind_consume (hne : kind ≠ stop) {f g : Token D → Parser D G α} {p q : Parser D G α}
    (ht : ∀ tok tok', tok.content = tok'.content → Tracks later later' view (f tok) (g tok'))
    (hq : Tracks later later' view p q) :
    Tracks later later' view
      (do
        let found ← Parser.atKind kind
        if found then do
          let tok ← Parser.consume
          f tok
        else p)
      (do
        let found ← Parser.atKind kind
        if found then do
          let tok ← Parser.consume
          g tok
        else q) := by
  intro σ a σ' hrun
  have hcases : ∀ (ρ : ParseState D G) (h : Token D → Parser D G α) (p : Parser D G α),
      (do
        let found ← Parser.atKind kind
        if found then do
          let tok ← Parser.consume
          h tok
        else p : Parser D G α) ρ =
        if (Parser.current ρ).kind = kind then
          h (Parser.current ρ) { ρ with tokens := ρ.tokens.tail }
        else p ρ := by
    intro ρ h p
    simp only [Bind.bind, Parser.bind, Parser.atKind, Option.bind_some, beq_iff_eq]
    split <;> rfl
  rw [hcases] at hrun
  split at hrun
  · rename_i hkind
    obtain ⟨r, hr, -⟩ := ht _ _ rfl hrun
    refine ⟨r, hr, fun hnil τ halign => ?_⟩
    obtain ⟨hcontent, halign'⟩ := halign.step hlater hlater' (by rwa [hkind])
    obtain ⟨r', hr', hg⟩ := ht _ _ hcontent hrun
    obtain rfl : r' = r := by
      rw [hr] at hr'
      exact (List.append_cancel_left hr').symm
    rw [hcases, ← halign.current_kind hlater hlater', if_pos hkind]
    exact hg hnil _ halign'
  · rename_i hkind
    obtain ⟨r, hr, hg⟩ := hq hrun
    refine ⟨r, hr, fun hnil τ halign => ?_⟩
    rw [hcases, ← halign.current_kind hlater hlater', if_neg hkind]
    exact hg hnil τ halign

end

end Tracks

/-! ## The engine -/

section
variable (later later' : List (Token D))

/-- Expressions of the engine are followed by its expressions. -/
def EngineTracks (engine : Engine D G E S) : Prop :=
  ∀ m, Tracks later later' id (engine.parseExpression m) (engine.parseExpression m)

/-- The handlers of a registry do the same for tokens that look the same, and none is
registered for the token that ends an item. -/
structure HandlersFollow (stop : TokenKind) (reg : ParserRegistry D G E S I) : Prop where
  prefixStop : reg.findPrefixHandler stop = none
  infixStop : reg.findInfixHandler stop = none
  prefix_ : ∀ kind handler, reg.findPrefixHandler kind = some handler → ∀ engine,
    EngineTracks later later' engine → ∀ tok tok', tok.kind = kind → tok.content = tok'.content →
      Tracks later later' id (handler engine tok) (handler engine tok')
  infix_ : ∀ kind entry, reg.findInfixHandler kind = some entry → ∀ engine,
    EngineTracks later later' engine → ∀ tok tok', tok.kind = kind → tok.content = tok'.content →
      (∀ g, entry.getPrecedence g tok = entry.getPrecedence g tok') ∧ ∀ lhs rhs,
        Tracks later later' id (entry.handler engine lhs tok rhs)
        (entry.handler engine lhs tok' rhs)

variable {later later'} {stop : TokenKind} {reg : ParserRegistry D G E S I}

/-- The loop stops at the same token. Induction on its bound. -/
theorem infixLoop_tracks (hlater : StartsWith stop later) (hlater' : StartsWith stop later')
    (hreg : HandlersFollow later later' stop reg) {engine : Engine D G E S}
    (hengine : EngineTracks later later' engine) (m : Int) (n : Nat) (lhs : E) :
    Tracks later later' id (infixLoop reg engine m n lhs) (infixLoop reg engine m n lhs) := by
  induction n generalizing lhs with
  | zero => exact Tracks.diverge
  | succ n ih =>
    intro σ e σ' hrun
    unfold infixLoop at hrun
    cases hfind : reg.findInfixHandler (Parser.current σ).kind with
    | none =>
      simp only [hfind] at hrun
      cases hrun
      refine ⟨[], by simp, fun _ τ halign => ⟨lhs, τ, ?_, rfl, halign⟩⟩
      unfold infixLoop
      rw [← halign.current_kind hlater hlater', hfind]
    | some entry =>
      have hne : (Parser.current σ).kind ≠ stop := by
        intro hstop
        rw [hstop, hreg.infixStop] at hfind
        cases hfind
      simp only [hfind] at hrun
      by_cases hprec : entry.getPrecedence σ.globals (Parser.current σ) < m
      · rw [if_pos hprec] at hrun
        cases hrun
        refine ⟨[], by simp, fun _ τ halign => ⟨lhs, τ, ?_, rfl, halign⟩⟩
        obtain ⟨hcontent, -⟩ := halign.step hlater hlater' hne
        obtain ⟨hsame, -⟩ := hreg.infix_ _ _ hfind engine hengine _ _ rfl hcontent
        unfold infixLoop
        simp only [← content_kind hcontent, hfind]
        rw [← hsame, ← halign.globals, if_pos hprec]
      · rw [if_neg hprec] at hrun
        have hbody : ∀ tok', (Parser.current σ).content = tok'.content →
            Tracks later later' id
              (do
                let rhs ← engine.parseExpression
                  (entry.getPrecedence σ.globals (Parser.current σ) + 1)
                let lhs' ← entry.handler engine lhs (Parser.current σ) rhs
                infixLoop reg engine m n lhs')
              (do
                let rhs ← engine.parseExpression
                  (entry.getPrecedence σ.globals (Parser.current σ) + 1)
                let lhs' ← entry.handler engine lhs tok' rhs
                infixLoop reg engine m n lhs') := by
          intro tok' hcontent
          obtain ⟨-, hhandler⟩ := hreg.infix_ _ _ hfind engine hengine _ tok' rfl hcontent
          exact Tracks.bind_same (hengine _) fun rhs =>
            Tracks.bind_same (hhandler lhs rhs) fun lhs' => ih lhs'
        obtain ⟨r, hr, -⟩ := hbody _ rfl hrun
        refine ⟨r, hr, fun hnil τ halign => ?_⟩
        obtain ⟨hcontent, halign'⟩ := halign.step hlater hlater' hne
        obtain ⟨r', hr', hg⟩ := hbody _ hcontent hrun
        obtain rfl : r' = r := by
          rw [hr] at hr'
          exact (List.append_cancel_left hr').symm
        obtain ⟨hsame, -⟩ := hreg.infix_ _ _ hfind engine hengine _ _ rfl hcontent
        obtain ⟨e, τ', hτ, hview, halign''⟩ := hg hnil _ halign'
        refine ⟨e, τ', ?_, hview, halign''⟩
        unfold infixLoop
        simp only [← content_kind hcontent, hfind]
        rw [← hsame, ← halign.globals, if_neg hprec]
        exact hτ

/-- Induction on the depth of the calls. -/
theorem parserEngine_tracks (hlater : StartsWith stop later) (hlater' : StartsWith stop later')
    (hreg : HandlersFollow later later' stop reg) (nullExpr : E) (nullStmt : S) (n : Nat) :
    EngineTracks later later' (parserEngine reg nullExpr nullStmt n) := by
  induction n with
  | zero => exact fun m => Tracks.diverge
  | succ n ih =>
    intro m
    refine Tracks.consume_bind hlater hlater' ?_ ?_
    · intro tok hkind
      rw [hkind, hreg.prefixStop]
      exact reports_error _ _ _
    · intro tok tok' hcontent
      rw [← content_kind hcontent]
      cases hfind : reg.findPrefixHandler tok.kind with
      | none => exact Tracks.of_reports (reports_error _ _ _)
      | some handler =>
        refine Tracks.bind_same (hreg.prefix_ _ _ hfind _ ih _ _ rfl hcontent) fun lhs => ?_
        exact infixLoop_tracks hlater hlater' hreg ih m _ lhs

end

end AroundTheWorld.Parse
