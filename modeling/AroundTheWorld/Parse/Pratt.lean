import AroundTheWorld.Base.OpTree
import AroundTheWorld.Parse.DefaultGrammarPack

/-!
# Precedence climbing

For a registry with fixed precedences, the tree that `parseExpression` builds
is the one whose yield is the consumed tokens and which is grouped by the
precedences. A grouped tree fixes the run of the engine on its yield: the left
spine is the sequence of loop iterations, a right child is one recursive call.
-/

namespace AroundTheWorld.Parse

open AroundTheWorld.Lex
open AroundTheWorld.Base (OpTree)

variable {D G E S I : Type}

/-- The fixed precedence of an infix token kind. -/
def infixPrec (reg : ParserRegistry D G E S I) (kind : TokenKind) : Option Int :=
  (reg.findInfixHandler kind).map (·.precedence)

/-- A registry that gives every infix kind a fixed precedence and has atoms and
parenthesised expressions as prefixes, all with the default handlers. -/
structure PrattRegistry (builder : ExprBuilder D E) (reg : ParserRegistry D G E S I) : Prop where
  fixed : ∀ kind entry, reg.findInfixHandler kind = some entry →
    entry.precedenceFor = none ∧ 0 ≤ entry.precedence ∧
      entry.handler = DefaultGrammarPack.infixBinaryExpr builder
  identifier : reg.findPrefixHandler .identifier =
    some (DefaultGrammarPack.prefixIdentifierExpr builder)
  integer : reg.findPrefixHandler .integer = some (DefaultGrammarPack.prefixIntegerExpr builder)
  float : reg.findPrefixHandler .float = some (DefaultGrammarPack.prefixFloatExpr builder)
  lParen : reg.findPrefixHandler .lParen = some (DefaultGrammarPack.prefixParenExpr builder)

/-- An identifier, or a number that carries the payload the lexer gives it. -/
def AtomToken (tok : Token D) : Prop :=
  tok.kind = .identifier ∨ (tok.kind = .integer ∧ ∃ val, tok.literal = .int val) ∨
    (tok.kind = .float ∧ ∃ val, tok.literal = .double val)

section
variable (prec : TokenKind → Option Int)

mutual

/-- An atom token, or a chain in parentheses whose `)` is not an infix token. -/
inductive IsAtom : List (Token D) → Prop where
  | token {tok : Token D} : AtomToken tok → IsAtom [tok]
  | paren {opening closing : Token D} {inner : List (Token D)} : opening.kind = .lParen →
      IsChain inner → closing.kind = .rParen → prec .rParen = none →
      IsAtom (opening :: (inner ++ [closing]))

/-- The token sequences `atom (op atom)*`. -/
inductive IsChain : List (Token D) → Prop where
  | atom {a : List (Token D)} : IsAtom a → IsChain a
  | snoc {c a : List (Token D)} {op : Token D} : IsChain c → (prec op.kind).isSome →
      IsAtom a → IsChain (c ++ op :: a)

end

/-- The trees of chains. -/
def Shaped : OpTree (Token D) → Prop
  | .atom tok => AtomToken tok
  | .group opening closing inner => opening.kind = .lParen ∧ closing.kind = .rParen ∧
      prec .rParen = none ∧ Shaped inner
  | .node op lhs rhs => (prec op.kind).isSome ∧ Shaped lhs ∧ Shaped rhs

/-- Precedence of a token, below every minimum if it is no infix token. -/
def opPrec (tok : Token D) : Int := (prec tok.kind).getD (-1)

/-- `tok` does not continue an expression with minimum precedence `m`. -/
def Stops (m : Int) (tok : Token D) : Prop := ∀ p, prec tok.kind = some p → p < m

/-- `t` spells the tokens before `rest`, is grouped by precedence with left
association, has no operator below `m`, and `next` does not continue it. -/
structure PrattTree (m : Int) (tokens rest : List (Token D)) (next : Token D)
    (t : OpTree (Token D)) : Prop where
  yield : tokens = t.yield ++ rest
  shaped : Shaped prec t
  grouped : t.Grouped (opPrec prec)
  above : t.Above (opPrec prec) m
  stops : Stops prec m next

end

variable {prec : TokenKind → Option Int} {m : Int}

theorem opPrec_of_some {tok : Token D} {p : Int} (h : prec tok.kind = some p) :
    opPrec prec tok = p := by
  simp [opPrec, h]

theorem stops_of_opPrec_lt {tok : Token D} (h : opPrec prec tok < m) : Stops prec m tok := by
  intro p hp
  rwa [opPrec_of_some hp] at h

theorem Stops.opPrec_lt {tok : Token D} (h : Stops prec m tok) (hm : 0 ≤ m) :
    opPrec prec tok < m := by
  cases hp : prec tok.kind with
  | none =>
    simp only [opPrec, hp, Option.getD_none]
    omega
  | some p => exact opPrec_of_some hp ▸ h p hp

/-- With precedences from 0 on, every tree of a chain lies above 0. -/
theorem Shaped.above_zero (hnn : ∀ k p, prec k = some p → 0 ≤ p) {t : OpTree (Token D)}
    (h : Shaped prec t) : t.Above (opPrec prec) 0 := by
  induction t with
  | atom tok => trivial
  | group opening closing inner _ => trivial
  | node op lhs rhs hl hr =>
    obtain ⟨hop, hsl, hsr⟩ := h
    obtain ⟨p, hp⟩ := Option.isSome_iff_exists.mp hop
    refine ⟨?_, hl hsl, hr hsr⟩
    rw [opPrec_of_some hp]
    exact hnn _ _ hp

theorem Shaped.push {op : Token D} {rhs t : OpTree (Token D)} (h : Shaped prec t)
    (hop : (prec op.kind).isSome) (hrhs : Shaped prec rhs) :
    Shaped prec (OpTree.push (opPrec prec) op rhs t) := by
  induction t with
  | atom tok => exact ⟨hop, h, hrhs⟩
  | group opening closing inner _ => exact ⟨hop, h, hrhs⟩
  | node o l r _ hr =>
    unfold OpTree.push
    split
    · exact ⟨h.1, h.2.1, hr h.2.2⟩
    · exact ⟨hop, h, hrhs⟩

/-! ## The run of the engine on the yield of a tree -/

/-- The handlers of a registry act on the results of trees as `build` does. -/
structure Interprets (reg : ParserRegistry D G E S I) (prec : TokenKind → Option Int)
    (build : OpTree (Token D) → E) : Prop where
  no_infix : ∀ kind, prec kind = none → reg.findInfixHandler kind = none
  infix_ : ∀ kind p, prec kind = some p → ∃ entry, reg.findInfixHandler kind = some entry ∧
    (∀ g tok, entry.getPrecedence g tok = p) ∧
    ∀ engine l op r, entry.handler engine (build l) op (build r) = pure (build (.node op l r))
  atom : ∀ tok, AtomToken tok → ∃ handler, reg.findPrefixHandler tok.kind = some handler ∧
    ∀ engine, handler engine tok = pure (build (.atom tok))
  paren : ∃ handler, reg.findPrefixHandler .lParen = some handler ∧
    ∀ (engine : Engine D G E S) opening closing inner σ σ' rest, closing.kind = .rParen →
      engine.parseExpression 0 σ = some (build inner, σ') → σ'.tokens = closing :: rest →
      handler engine opening σ =
        some (build (.group opening closing inner), { σ' with tokens := rest })

section
variable {reg : ParserRegistry D G E S I} {build : OpTree (Token D) → E} {nullExpr : E}
  {nullStmt : S}

theorem infixLoop_stop (hI : Interprets reg prec build) {engine : Engine D G E S} {lhs : E}
    {σ : ParseState D G} (hstop : Stops prec m (Parser.current σ)) (n : Nat) :
    infixLoop reg engine m (n + 1) lhs σ = some (lhs, σ) := by
  unfold infixLoop
  cases hp : prec (Parser.current σ).kind with
  | none => rw [hI.no_infix _ hp]
  | some p =>
    obtain ⟨entry, hentry, hprec, _⟩ := hI.infix_ _ _ hp
    have hlt : p < m := hstop p hp
    simp only [hentry, hprec, hlt, if_true]

/-- One iteration of the loop. -/
theorem infixLoop_step (hI : Interprets reg prec build) {engine : Engine D G E S}
    {l r : OpTree (Token D)} {op : Token D} {rest : List (Token D)} {σ σ' : ParseState D G}
    (hσ : σ.tokens = op :: rest) {p : Int} (hp : prec op.kind = some p) (hm : m ≤ p)
    (hr : engine.parseExpression (p + 1) { σ with tokens := rest } = some (build r, σ')) (n : Nat) :
    infixLoop reg engine m (n + 1) (build l) σ =
      infixLoop reg engine m n (build (.node op l r)) σ' := by
  obtain ⟨entry, hentry, hprec, hhandler⟩ := hI.infix_ _ _ hp
  have hcur : Parser.current σ = op := by simp [Parser.current, hσ]
  have hnlt : ¬ p < m := by omega
  rw [infixLoop]
  simp only [hcur, hentry, hprec, hnlt, if_false]
  simp only [bind, Parser.bind, Parser.consume, hcur, hσ, List.tail_cons, Option.bind_some, hr,
    hhandler, pure, Parser.pure]

/-- The engine reaches its loop with a tree in hand once it has consumed the
yield of the tree. Induction on the tree: the left child brings the engine to
the root operator, the recursive call for the right child stops behind it. -/
theorem parse_tree (hI : Interprets reg prec build) (hnn : ∀ k p, prec k = some p → 0 ≤ p)
    (t : OpTree (Token D)) :
    ∀ {m : Int} {n : Nat} {σ : ParseState D G} {rest : List (Token D)}, Shaped prec t →
      t.Grouped (opPrec prec) → t.Above (opPrec prec) m →
      (∀ o, t.root = some o →
        opPrec prec (Parser.current { σ with tokens := rest }) ≤ opPrec prec o) →
      t.yield.length ≤ n → σ.tokens = t.yield ++ rest →
      (parserEngine reg nullExpr nullStmt (n + 1)).parseExpression m σ =
        infixLoop reg (parserEngine reg nullExpr nullStmt n) m (n - t.leftOps) (build t)
          { σ with tokens := rest } := by
  induction t with
  | atom tok =>
    intro m n σ rest hshape _ _ _ _ hσ
    obtain ⟨handler, hfind, hh⟩ := hI.atom tok hshape
    have hσ' : σ.tokens = tok :: rest := hσ
    simp [parseExpression, bind, Parser.bind, Parser.consume, Parser.current, hσ', hfind, hh, pure,
      Parser.pure, OpTree.leftOps]
  | group opening closing inner ih =>
    intro m n σ rest hshape hgrouped _ _ hn hσ
    obtain ⟨hopen, hclose, hparen, hinner⟩ := hshape
    obtain ⟨handler, hfind, hh⟩ := hI.paren
    have hσ' : σ.tokens = opening :: (inner.yield ++ closing :: rest) := by
      simpa [OpTree.yield] using hσ
    have hstop : Stops prec 0 closing := by
      intro p hp
      rw [hclose, hparen] at hp
      cases hp
    simp only [OpTree.yield, List.length_cons, List.length_append, List.length_nil] at hn
    obtain ⟨k, rfl⟩ : ∃ k, n = k + 1 := ⟨n - 1, by omega⟩
    have hleft : inner.leftOps < inner.yield.length := inner.leftOps_lt_yield
    have hcall : (parserEngine reg nullExpr nullStmt (k + 1)).parseExpression 0
        { σ with tokens := inner.yield ++ closing :: rest } =
          some (build inner, { σ with tokens := closing :: rest }) := by
      rw [ih hinner hgrouped (hinner.above_zero hnn) ?_ (by omega) rfl]
      · obtain ⟨j, hj⟩ : ∃ j, k - inner.leftOps = j + 1 := ⟨k - inner.leftOps - 1, by omega⟩
        rw [hj]
        exact infixLoop_stop hI hstop j
      · intro o ho
        have hlt : opPrec prec closing < 0 := hstop.opPrec_lt (Int.le_refl 0)
        have hroot : 0 ≤ opPrec prec o := (hinner.above_zero hnn).le_root ho
        exact Int.le_of_lt (Int.lt_of_lt_of_le hlt hroot)
    have hgo := hh (parserEngine reg nullExpr nullStmt (k + 1)) opening closing inner _ _ rest
      hclose hcall rfl
    simp only [parserEngine_parseExpression, parserEngine_fuel, parseExpression, bind, Parser.bind,
      Parser.consume, Parser.current, hσ', List.headD_cons, List.tail_cons, Option.bind_some, hopen,
      hfind, hgo, OpTree.leftOps, Nat.sub_zero]
  | node op l r ihl ihr =>
    intro m n σ rest hshape hgrouped habove hrest hn hσ
    obtain ⟨hop, hsl, hsr⟩ := hshape
    obtain ⟨p, hp⟩ := Option.isSome_iff_exists.mp hop
    have hpop : opPrec prec op = p := opPrec_of_some hp
    have hhead := hrest op rfl
    rw [hpop] at hhead
    simp only [OpTree.yield, List.length_append, List.length_cons] at hn
    have hleft : l.leftOps < l.yield.length := l.leftOps_lt_yield
    have hright : r.leftOps < r.yield.length := r.leftOps_lt_yield
    have hσ' : σ.tokens = l.yield ++ op :: (r.yield ++ rest) := by simpa [OpTree.yield] using hσ
    -- the left child: the loop is entered with it, in front of the root operator
    rw [ihl hsl hgrouped.1 habove.2.1 ?_ (by omega) hσ']
    · obtain ⟨k, rfl⟩ : ∃ k, n = k + 1 := ⟨n - 1, by omega⟩
      -- the right child: its own call ends at the first token behind it
      have hcall : (parserEngine reg nullExpr nullStmt (k + 1)).parseExpression (p + 1)
          { σ with tokens := r.yield ++ rest } = some (build r, { σ with tokens := rest }) := by
        rw [ihr hsr hgrouped.2.1 (hpop ▸ hgrouped.above_right) ?_ (by omega) rfl]
        · obtain ⟨j, hj⟩ : ∃ j, k - r.leftOps = j + 1 := ⟨k - r.leftOps - 1, by omega⟩
          rw [hj]
          refine infixLoop_stop hI (stops_of_opPrec_lt ?_) j
          exact Int.lt_add_one_of_le hhead
        · intro o ho
          have hlt := hgrouped.2.2.2 o ho
          rw [hpop] at hlt
          exact Int.le_of_lt (Int.lt_of_le_of_lt hhead hlt)
      obtain ⟨j, hj⟩ : ∃ j, k + 1 - l.leftOps = j + 1 := ⟨k - l.leftOps, by omega⟩
      have hj' : k + 1 - (OpTree.node op l r).leftOps = j := by
        simp only [OpTree.leftOps]
        omega
      rw [hj, hj']
      have hloop := infixLoop_step (m := m) (l := l) hI
        (σ := { σ with tokens := op :: (r.yield ++ rest) }) rfl hp (hpop ▸ habove.1) hcall
      exact hloop j
    · intro o ho
      exact hgrouped.2.2.1 o ho

/-- A parse that is given more fuel than there are tokens returns the tree. -/
theorem parse_prattTree (hI : Interprets reg prec build) (hnn : ∀ k p, prec k = some p → 0 ≤ p)
    (hm : 0 ≤ m) {t : OpTree (Token D)} {σ : ParseState D G} {rest : List (Token D)}
    (ht : PrattTree prec m σ.tokens rest (Parser.current { σ with tokens := rest }) t) {fuel : Nat}
    (hfuel : t.yield.length < fuel) :
    (parserEngine reg nullExpr nullStmt fuel).parseExpression m σ =
      some (build t, { σ with tokens := rest }) := by
  obtain ⟨n, rfl⟩ : ∃ n, fuel = n + 1 := ⟨fuel - 1, by omega⟩
  have hleft : t.leftOps < t.yield.length := t.leftOps_lt_yield
  rw [parse_tree hI hnn t ht.shaped ht.grouped ht.above ?_ (by omega) ht.yield]
  · obtain ⟨j, hj⟩ : ∃ j, n - t.leftOps = j + 1 := ⟨n - t.leftOps - 1, by omega⟩
    rw [hj]
    exact infixLoop_stop hI ht.stops j
  · intro o ho
    have hlt := ht.stops.opPrec_lt hm
    exact Int.le_of_lt (Int.lt_of_lt_of_le hlt (ht.above.le_root ho))

end

/-! ## The tree of a chain -/

/-- `a` is the yield of a tree that is no bare operator node. -/
def AtomTree (prec : TokenKind → Option Int) (a : List (Token D)) : Prop :=
  ∃ t : OpTree (Token D), a = t.yield ∧ Shaped prec t ∧ t.Grouped (opPrec prec) ∧ t.root = none

/-- The longest prefix of `c` without an operator below `m` is the yield of a
grouped tree. -/
def ChainTree (prec : TokenKind → Option Int) (c : List (Token D)) : Prop :=
  ∀ m : Int, 0 ≤ m → ∃ (t : OpTree (Token D)) (rem : List (Token D)), c = t.yield ++ rem ∧
    Shaped prec t ∧ t.Grouped (opPrec prec) ∧ t.Above (opPrec prec) m ∧
    (rem = [] ∨ ∃ op tl, rem = op :: tl ∧ (prec op.kind).isSome ∧ opPrec prec op < m)

theorem atomTree_paren (hnn : ∀ k p, prec k = some p → 0 ≤ p) {opening closing : Token D}
    {inner : List (Token D)} (hopen : opening.kind = .lParen) (hclose : closing.kind = .rParen)
    (hparen : prec .rParen = none) (hinner : ChainTree prec inner) :
    AtomTree prec (opening :: (inner ++ [closing])) := by
  obtain ⟨t, rem, hyield, hshape, hgrouped, -, hrem⟩ := hinner 0 (Int.le_refl 0)
  -- no operator lies below 0, so the inner chain is consumed whole
  have hnil : rem = [] := by
    rcases hrem with hnil | ⟨op, tl, rfl, hop, hlt⟩
    · exact hnil
    · obtain ⟨p, hp⟩ := Option.isSome_iff_exists.mp hop
      have := hnn _ _ hp
      rw [opPrec_of_some hp] at hlt
      omega
  refine ⟨.group opening closing t, ?_, ⟨hopen, hclose, hparen, hshape⟩, hgrouped, rfl⟩
  simp [OpTree.yield, hyield, hnil]

theorem chainTree_atom {a : List (Token D)} (ha : AtomTree prec a) : ChainTree prec a := by
  intro m _
  obtain ⟨t, hyield, hshape, hgrouped, hroot⟩ := ha
  exact ⟨t, [], by simp [hyield], hshape, hgrouped, OpTree.above_of_root_none hroot, .inl rfl⟩

/-- One more operator: pushed onto the tree while everything so far was consumed
and the operator reaches the minimum, left over otherwise. -/
theorem chainTree_snoc {c a : List (Token D)} {op : Token D} (hc : ChainTree prec c)
    (hop : (prec op.kind).isSome) (ha : AtomTree prec a) : ChainTree prec (c ++ op :: a) := by
  intro m hm
  obtain ⟨t, rem, hyield, hshape, hgrouped, habove, hrem⟩ := hc m hm
  obtain ⟨s, hs, hsshape, hsgrouped, hsroot⟩ := ha
  rcases hrem with rfl | ⟨op', tl, rfl, hop', hlt⟩
  · by_cases hlt : opPrec prec op < m
    · refine ⟨t, op :: a, ?_, hshape, hgrouped, habove, .inr ⟨op, a, rfl, hop, hlt⟩⟩
      simp [hyield]
    · refine ⟨OpTree.push (opPrec prec) op s t, [], ?_, ?_, ?_, ?_, .inl rfl⟩
      · simp [OpTree.push_yield, hyield, hs]
      · exact hshape.push hop hsshape
      · exact OpTree.push_grouped hsroot hsgrouped hgrouped
      · exact OpTree.push_above (Int.not_lt.mp hlt) hsroot habove
  · refine ⟨t, op' :: (tl ++ op :: a), ?_, hshape, hgrouped, habove, ?_⟩
    · simp [hyield]
    · exact .inr ⟨op', tl ++ op :: a, rfl, hop', hlt⟩

/-- Every chain has such a tree. Induction on the derivation of the chain. -/
theorem IsChain.tree (hnn : ∀ k p, prec k = some p → 0 ≤ p) {c : List (Token D)}
    (h : IsChain prec c) : ChainTree prec c := by
  induction h using IsChain.rec (motive_1 := fun a _ => AtomTree prec a) with
  | token htok => exact ⟨.atom _, rfl, htok, trivial, rfl⟩
  | paren hopen _ hclose hparen ih => exact atomTree_paren hnn hopen hclose hparen ih
  | atom _ ih => exact chainTree_atom ih
  | snoc _ hop _ ihc iha => exact chainTree_snoc ihc hop iha

/-! ## Registries that interpret trees -/

def buildAtom (builder : ExprBuilder D E) (tok : Token D) : E :=
  match tok.kind, tok.literal with
  | .integer, .int val => builder.makeInteger tok val
  | .float, .double val => builder.makeFloat tok val
  | _, _ => builder.makeIdentifier tok

/-- What the builder makes of a tree: groups leave no node behind. -/
def buildTree (builder : ExprBuilder D E) : OpTree (Token D) → E
  | .atom tok => buildAtom builder tok
  | .group _ _ inner => buildTree builder inner
  | .node op lhs rhs => builder.makeBinary op (buildTree builder lhs) (buildTree builder rhs)

theorem PrattRegistry.prec_nonneg {builder : ExprBuilder D E} {reg : ParserRegistry D G E S I}
    (hreg : PrattRegistry builder reg) (kind : TokenKind) (p : Int)
    (hp : infixPrec reg kind = some p) : 0 ≤ p := by
  obtain ⟨entry, hentry, rfl⟩ := Option.map_eq_some_iff.mp hp
  exact (hreg.fixed kind entry hentry).2.1

theorem PrattRegistry.interprets {builder : ExprBuilder D E} {reg : ParserRegistry D G E S I}
    (hreg : PrattRegistry builder reg) : Interprets reg (infixPrec reg) (buildTree builder) := by
  refine ⟨?_, ?_, ?_, ?_⟩
  · intro kind h
    exact Option.map_eq_none_iff.mp h
  · intro kind p hp
    obtain ⟨entry, hentry, rfl⟩ := Option.map_eq_some_iff.mp hp
    obtain ⟨hfixed, _, hhandler⟩ := hreg.fixed kind entry hentry
    refine ⟨entry, hentry, ?_, ?_⟩
    · intro g tok
      simp [InfixEntry.getPrecedence, hfixed]
    · intro engine l op r
      rw [hhandler]
      rfl
  · intro tok htok
    rcases htok with hkind | ⟨hkind, val, hval⟩ | ⟨hkind, val, hval⟩
    · refine ⟨_, hkind ▸ hreg.identifier, fun engine => ?_⟩
      simp [DefaultGrammarPack.prefixIdentifierExpr, buildTree, buildAtom, hkind]
    · refine ⟨_, hkind ▸ hreg.integer, fun engine => ?_⟩
      simp [DefaultGrammarPack.prefixIntegerExpr, buildTree, buildAtom, hkind, hval]
    · refine ⟨_, hkind ▸ hreg.float, fun engine => ?_⟩
      simp [DefaultGrammarPack.prefixFloatExpr, buildTree, buildAtom, hkind, hval]
  · refine ⟨_, hreg.lParen, ?_⟩
    intro engine opening closing inner σ σ' rest hclose hparse hrest
    simp [DefaultGrammarPack.prefixParenExpr, bind, Parser.bind, hparse, Parser.expect,
      Parser.current, hrest, hclose, pure, Parser.pure, buildTree]

def treeParenExpr : PrefixExprHandler D Unit (OpTree (Token D)) Unit := fun engine opening => do
  let inner ← engine.parseExpression 0
  let closing ← Parser.consume
  pure (.group opening closing inner)

/-- Handlers that keep the whole tree, groups included. -/
def treeRegistry (D : Type) (prec : TokenKind → Option Int) :
    ParserRegistry D Unit (OpTree (Token D)) Unit Unit :=
  .base {
    prefix_ := fun kind =>
      if kind = .lParen then some treeParenExpr else some fun _ tok => pure (.atom tok)
    infix_ := fun kind => (prec kind).map fun p => ⟨p, none, fun _ l op r => pure (.node op l r)⟩ }

theorem treeRegistry_interprets (prec : TokenKind → Option Int) :
    Interprets (treeRegistry D prec) prec id := by
  refine ⟨?_, ?_, ?_, ?_⟩
  · intro kind h
    simp [treeRegistry, ParserRegistry.findInfixHandler, h]
  · intro kind p hp
    refine ⟨_, by simp [treeRegistry, ParserRegistry.findInfixHandler, hp]; rfl, ?_, ?_⟩
    · intro g tok
      rfl
    · intro engine l op r
      rfl
  · intro tok htok
    have hkind : tok.kind ≠ .lParen := by
      rcases htok with h | ⟨h, _⟩ | ⟨h, _⟩ <;> simp [h]
    exact ⟨_, if_neg hkind, fun engine => rfl⟩
  · refine ⟨treeParenExpr, rfl, ?_⟩
    intro engine opening closing inner σ σ' rest _ hparse hrest
    simp [treeParenExpr, bind, Parser.bind, hparse, Parser.consume, Parser.current, hrest, pure,
      Parser.pure]

/-- There is at most one such tree: the tree handlers return it. -/
theorem PrattTree.unique (hnn : ∀ k p, prec k = some p → 0 ≤ p) (hm : 0 ≤ m)
    {tokens rest rest' : List (Token D)} {eofLoc : SourceLoc} {t t' : OpTree (Token D)}
    (ht : PrattTree prec m tokens rest (rest.headD ⟨.eof, [], eofLoc, .none⟩) t)
    (ht' : PrattTree prec m tokens rest' (rest'.headD ⟨.eof, [], eofLoc, .none⟩) t') :
    t' = t ∧ rest' = rest := by
  let σ : ParseState D Unit := { tokens, eofLoc, globals := () }
  let fuel := t.yield.length + t'.yield.length + 1
  have h : (parserEngine (treeRegistry D prec) t () fuel).parseExpression m σ =
      some (t, { σ with tokens := rest }) :=
    parse_prattTree (treeRegistry_interprets prec) hnn hm ht (by omega)
  have h' : (parserEngine (treeRegistry D prec) t () fuel).parseExpression m σ =
      some (t', { σ with tokens := rest' }) :=
    parse_prattTree (treeRegistry_interprets prec) hnn hm ht' (by omega)
  rw [h] at h'
  injection h' with hpair
  injection hpair with htree hstate
  exact ⟨htree.symm, (congrArg ParseState.tokens hstate).symm⟩

/-- `parseExpression` with minimum precedence `m` on a chain that is followed by
a token without infix entry returns what the builder makes of the one tree that
spells the consumed tokens, is grouped by precedence with every operator
associating to the left, has no operator below `m`, and stops where no operator
from `m` on follows. It reports nothing. -/
theorem parseExpression_pratt {builder : ExprBuilder D E} {reg : ParserRegistry D G E S I}
    (nullExpr : E) (nullStmt : S) (hreg : PrattRegistry builder reg) {m : Int} (hm : 0 ≤ m)
    {σ : ParseState D G}
    {chain rest : List (Token D)} (hchain : IsChain (infixPrec reg) chain)
    (hσ : σ.tokens = chain ++ rest)
    (hend : infixPrec reg (Parser.current { σ with tokens := rest }).kind = none) :
    ∃ (t : OpTree (Token D)) (rem : List (Token D)), chain = t.yield ++ rem ∧
      PrattTree (infixPrec reg) m σ.tokens (rem ++ rest)
        (Parser.current { σ with tokens := rem ++ rest }) t ∧
      (∀ fuel, chain.length < fuel →
        (parserEngine reg nullExpr nullStmt fuel).parseExpression m σ =
          some (buildTree builder t, { σ with tokens := rem ++ rest })) ∧
      ∀ t' rest', PrattTree (infixPrec reg) m σ.tokens rest'
        (Parser.current { σ with tokens := rest' }) t' → t' = t ∧ rest' = rem ++ rest := by
  have hnn := hreg.prec_nonneg
  obtain ⟨t, rem, hyield, hshape, hgrouped, habove, hrem⟩ := hchain.tree hnn m hm
  have hstop : Stops (infixPrec reg) m (Parser.current { σ with tokens := rem ++ rest }) := by
    rcases hrem with rfl | ⟨op, tl, rfl, _, hlt⟩
    · intro p hp
      rw [List.nil_append, hend] at hp
      cases hp
    · exact stops_of_opPrec_lt hlt
  have ht : PrattTree (infixPrec reg) m σ.tokens (rem ++ rest)
      (Parser.current { σ with tokens := rem ++ rest }) t :=
    ⟨by rw [hσ, hyield, List.append_assoc], hshape, hgrouped, habove, hstop⟩
  refine ⟨t, rem, hyield, ht, ?_, ?_⟩
  · intro fuel hfuel
    refine parse_prattTree hreg.interprets hnn hm ht ?_
    rw [hyield, List.length_append] at hfuel
    omega
  · intro t' rest' ht'
    exact ht.unique hnn hm ht'

/-- The registry that holds the default pack alone. -/
theorem defaultPack_prattRegistry (builder : ExprBuilder D E) :
    PrattRegistry (G := G) (S := S) (I := I) builder
      (DefaultGrammarPack.registerExpressionHandlers builder ParserRegistry.empty) := by
  refine ⟨?_, rfl, rfl, rfl, rfl⟩
  intro kind entry h
  cases kind <;> cases h <;> exact ⟨rfl, by simp, rfl⟩

/-- A builder that computes. -/
def sumBuilder : ExprBuilder Unit Int where
  makeIdentifier _ := 0
  makeInteger _ val := val
  makeFloat _ _ := 0
  makeBinary op lhs rhs :=
    match op.kind with
    | .plus => lhs + rhs
    | .minus => lhs - rhs
    | .star => lhs * rhs
    | _ => 0
  makeErrorExpr _ := 0

/-- `9 - 2 * 3 - 4` is read as `(9 - (2 * 3)) - 4`. -/
theorem parseExpression_pratt_chain :
    let num (val : Int) : Token Unit := ⟨.integer, [], {}, .int val⟩
    let op (kind : TokenKind) : Token Unit := ⟨kind, [], {}, .none⟩
    let σ : ParseState Unit Unit := {
      tokens := [num 9, op .minus, num 2, op .star, num 3, op .minus, num 4], globals := () }
    let reg : ParserRegistry Unit Unit Int Unit Unit :=
      DefaultGrammarPack.registerExpressionHandlers sumBuilder .empty
    (parserEngine reg 0 () 8).parseExpression 0 σ =
      some (-1, { σ with tokens := [] }) := by
  intro num op σ reg
  have hnum : ∀ val, IsAtom (infixPrec reg) [num val] := fun val =>
    .token (.inr (.inl ⟨rfl, val, rfl⟩))
  have hchain : IsChain (infixPrec reg)
      ((([num 9] ++ op .minus :: [num 2]) ++ op .star :: [num 3]) ++ op .minus :: [num 4]) :=
    .snoc (.snoc (.snoc (.atom (hnum 9)) rfl (hnum 2)) rfl (hnum 3)) rfl (hnum 4)
  have hσ : σ.tokens = ((([num 9] ++ op .minus :: [num 2]) ++ op .star :: [num 3]) ++
      op .minus :: [num 4]) ++ [] := rfl
  obtain ⟨t, rem, -, -, hparse, hunique⟩ := parseExpression_pratt (0 : Int) ()
    (defaultPack_prattRegistry sumBuilder) (Int.le_refl 0) hchain hσ rfl
  have htree := hunique (.node (op .minus) (.node (op .minus) (.atom (num 9))
    (.node (op .star) (.atom (num 2)) (.atom (num 3)))) (.atom (num 4))) [] ?_
  · obtain ⟨rfl, hrem⟩ := htree
    rw [hparse 8 (by decide), ← hrem]
    rfl
  · refine ⟨rfl, ?_, ?_, ?_, ?_⟩
    · simp [Shaped, AtomToken, num, op, infixPrec]
      decide
    · simp [OpTree.Grouped, OpTree.root]
      decide
    · simp [OpTree.Above]
      decide
    · intro p hp
      cases hp

end AroundTheWorld.Parse
