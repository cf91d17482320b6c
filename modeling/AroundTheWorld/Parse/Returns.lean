import AroundTheWorld.Parse.Engine

/-!
# What a parser returns over fixed globals

`Returns g p Q`: started with the globals `g`, the parser leaves them alone and
returns something in `Q`, whether or not it reports anything. One rule for each
primitive of the context, and one for the engine.
-/

namespace AroundTheWorld.Parse

open AroundTheWorld.Lex

variable {D G E S I α β : Type}

def Returns (g : G) (p : Parser D G α) (Q : α → Prop) : Prop :=
  ∀ ⦃σ a σ'⦄, σ.globals = g → p σ = some (a, σ') → σ'.globals = g ∧ Q a

namespace Returns

variable {g : G} {Q R : α → Prop} {T : β → Prop}

theorem diverge : Returns g (Parser.diverge : Parser D G α) Q := by
  intro σ a σ' _ hrun
  cases hrun

theorem pure {a : α} (h : Q a) : Returns g (Pure.pure a : Parser D G α) Q := by
  intro σ b σ' hg hrun
  cases hrun
  exact ⟨hg, h⟩

theorem bind {p : Parser D G α} {f : α → Parser D G β} (hp : Returns g p Q)
    (hf : ∀ a, Q a → Returns g (f a) T) : Returns g (p >>= f) T := by
  intro σ b σ' hg hrun
  obtain ⟨⟨a, σ₁⟩, hrun₁, hrun₂⟩ := Option.bind_eq_some_iff.mp hrun
  obtain ⟨hg₁, ha⟩ := hp hg hrun₁
  exact hf a ha hg₁ hrun₂

theorem consume : Returns g (Parser.consume : Parser D G (Token D)) fun _ => True := by
  intro σ a σ' hg hrun
  cases hrun
  exact ⟨hg, trivial⟩

theorem atKind (kind : TokenKind) :
    Returns g (Parser.atKind kind : Parser D G Bool) fun _ => True := by
  intro σ a σ' hg hrun
  cases hrun
  exact ⟨hg, trivial⟩

theorem error (loc : SourceLoc) (message : String) :
    Returns g (Parser.error loc message : Parser D G Unit) fun _ => True := by
  intro σ a σ' hg hrun
  cases hrun
  exact ⟨hg, trivial⟩

theorem errorHere (message : String) :
    Returns g (Parser.errorHere message : Parser D G Unit) fun _ => True := by
  intro σ a σ' hg hrun
  exact error _ message hg hrun

theorem matchKind (kind : TokenKind) :
    Returns g (Parser.matchKind kind : Parser D G Bool) fun _ => True := by
  intro σ a σ' hg hrun
  unfold Parser.matchKind at hrun
  split at hrun <;> cases hrun <;> exact ⟨hg, trivial⟩

theorem expect (kind : TokenKind) (message : String) :
    Returns g (Parser.expect kind message : Parser D G Bool) fun _ => True := by
  intro σ a σ' hg hrun
  unfold Parser.expect at hrun
  split at hrun <;> cases hrun <;> exact ⟨hg, trivial⟩

/-- A test and the two ways to go on. -/
theorem ite {b : Bool} {p q : Parser D G α} (hp : Returns g p Q) (hq : Returns g q Q) :
    Returns g (if b then p else q) Q := by
  cases b
  · exact hq
  · exact hp

end Returns

/-! ## The engine -/

def EngineReturns (g : G) (engine : Engine D G E S) (Spec : E → Prop) : Prop :=
  ∀ m, 0 ≤ m → Returns g (engine.parseExpression m) Spec

/-- The handlers of a registry keep `Spec` over the globals `g`. -/
structure KeepsResult (g : G) (reg : ParserRegistry D G E S I) (Spec : E → Prop) : Prop where
  prefix_ : ∀ kind handler, reg.findPrefixHandler kind = some handler →
    ∀ engine, EngineReturns g engine Spec → ∀ tok, Returns g (handler engine tok) Spec
  infix_ : ∀ kind entry, reg.findInfixHandler kind = some entry →
    ∀ engine, EngineReturns g engine Spec → ∀ tok, 0 ≤ entry.getPrecedence g tok →
      ∀ lhs rhs, Spec lhs → Spec rhs → Returns g (entry.handler engine lhs tok rhs) Spec

section
variable {g : G} {reg : ParserRegistry D G E S I} {Spec : E → Prop}

/-- Induction on the iterations of the loop. -/
theorem infixLoop_returns (hreg : KeepsResult g reg Spec) {engine : Engine D G E S}
    (hengine : EngineReturns g engine Spec) {m : Int} (hm : 0 ≤ m) (n : Nat) {lhs : E}
    (hlhs : Spec lhs) : Returns g (infixLoop reg engine m n lhs) Spec := by
  induction n generalizing lhs with
  | zero => exact Returns.diverge
  | succ n ih =>
    intro σ e σ' hg hrun
    unfold infixLoop at hrun
    cases hfind : reg.findInfixHandler (Parser.current σ).kind with
    | none =>
      simp only [hfind] at hrun
      cases hrun
      exact ⟨hg, hlhs⟩
    | some entry =>
      simp only [hfind] at hrun
      split at hrun
      · cases hrun
        exact ⟨hg, hlhs⟩
      · rename_i hprec
        have hprec0 : 0 ≤ entry.getPrecedence g (Parser.current σ) := by
          rw [← hg]
          omega
        have hrest : Returns g (do
            let rhs ← engine.parseExpression (entry.getPrecedence σ.globals (Parser.current σ) + 1)
            let lhs' ← entry.handler engine lhs (Parser.current σ) rhs
            infixLoop reg engine m n lhs') Spec := by
          refine (hengine _ (by omega)).bind fun rhs hrhs => ?_
          exact (hreg.infix_ _ _ hfind engine hengine _ hprec0 lhs rhs hlhs hrhs).bind
            fun lhs' hlhs' => ih hlhs'
        have htail : ({ σ with tokens := σ.tokens.tail } : ParseState D G).globals = g := hg
        exact hrest htail hrun

/-- Induction on the depth of the calls. -/
theorem parserEngine_returns (hreg : KeepsResult g reg Spec) {nullExpr : E} (hnull : Spec nullExpr)
    (nullStmt : S) (n : Nat) :
    EngineReturns g (parserEngine reg nullExpr nullStmt n) Spec := by
  induction n with
  | zero => exact fun m _ => Returns.diverge
  | succ n ih =>
    intro m hm
    rw [parserEngine_parseExpression]
    refine Returns.consume.bind fun firstTok _ => ?_
    cases hfind : reg.findPrefixHandler firstTok.kind with
    | none => exact (Returns.error _ _).bind fun _ _ => Returns.pure hnull
    | some handler =>
      exact (hreg.prefix_ _ _ hfind _ ih firstTok).bind fun lhs hlhs =>
        infixLoop_returns hreg ih hm _ hlhs

end

end AroundTheWorld.Parse
