import AroundTheWorld.Athens.Grammar
import AroundTheWorld.Athens.Print
import AroundTheWorld.Athens.Terminates

/-!
# What the expression parser accepts

A call of `parseExpression` on a chain stops at the end of the chain, or in front of an
operator that binds less than the call asks for; what is left behind the operator is a
chain again. With the least precedence nothing is left. The other direction is that a
parse which reports nothing has read an expression, as long as no operator of two
characters stands where an operand starts.
-/

namespace AroundTheWorld.Athens

open AroundTheWorld.Base AroundTheWorld.Lex AroundTheWorld.Parse
open AthensGrammarPack AthensParseBuilder

variable {D : Type}

/-- Every operator of one character among the tokens has a precedence. -/
def AllActive (table : BinopTable) (ts : List (Token D)) : Prop :=
  ∀ tok ∈ ts, isAthensOperatorToken tok.kind = true → ∀ c, tok.lexeme = [c] →
    ∃ p, table c = some p ∧ 0 < p

theorem allActive_append {table : BinopTable} {ts us : List (Token D)} :
    AllActive table (ts ++ us) ↔ AllActive table ts ∧ AllActive table us :=
  List.forall_mem_append

theorem AllActive.tail {table : BinopTable} {tok : Token D} {us : List (Token D)}
    (h : AllActive table (tok :: us)) : AllActive table us :=
  (List.forall_mem_cons.mp h).2

section
variable {ofInt : Int → D} {σ : ParseState D BinopTable} {m : Int} {n : Nat}
  {ts us rest : List (Token D)} {tok : Token D} {lhs : ExprAST D}

theorem prefixHandler_operator (hop : isAthensOperatorToken tok.kind = true) :
    (athensRegistry ofInt).findPrefixHandler tok.kind = some parseUnary := by
  cases hk : tok.kind <;> rw [hk] at hop <;> cases hop <;> rfl

theorem infixHandler_operator (hop : isAthensOperatorToken tok.kind = true) :
    (athensRegistry ofInt).findInfixHandler tok.kind =
      some ⟨0, some athensOperatorPrecedence, infixOperator⟩ := by
  cases hk : tok.kind <;> rw [hk] at hop <;> cases hop <;> rfl

theorem IsOperator.precedence (hop : IsOperator tok) (hactive : AllActive σ.globals (tok :: us)) :
    0 < athensOperatorPrecedence σ.globals tok := by
  obtain ⟨c, hlex⟩ := List.length_eq_one_iff.mp hop.2
  obtain ⟨p, hp, hpos⟩ := hactive tok List.mem_cons_self hop.1 c hlex
  simp only [athensOperatorPrecedence, hlex, hp]
  rw [if_neg (by omega)]
  exact hpos

/-! ## Chains are accepted -/

/-- What stands behind an expression inside another construct. -/
def Closing (kind : TokenKind) : Prop := isAthensOperatorToken kind = false ∧ kind ≠ .lParen

/-- An operator and what it goes on with, or nothing. -/
def Continues (table : BinopTable) (ts : List (Token D)) : Prop :=
  ts = [] ∨ ∃ tok us, ts = tok :: us ∧ IsOperator tok ∧ Chain us ∧ AllActive table (tok :: us)

/-- What a call that asks for precedence `m` may leave. -/
def Leaves (table : BinopTable) (m : Int) (ts : List (Token D)) : Prop :=
  ts = [] ∨ ∃ tok us, ts = tok :: us ∧ IsOperator tok ∧ Chain us ∧ AllActive table (tok :: us) ∧
    athensOperatorPrecedence table tok < m

theorem Leaves.continues {table : BinopTable} (h : Leaves table m ts) : Continues table ts := by
  rcases h with rfl | ⟨tok, us, rfl, hop, hus, hactive, -⟩
  · exact .inl rfl
  · exact .inr ⟨tok, us, rfl, hop, hus, hactive⟩

/-- A call without a least precedence leaves nothing. -/
theorem Leaves.eq_nil (h : Leaves σ.globals 0 ts) : ts = [] := by
  rcases h with rfl | ⟨tok, us, rfl, hop, -, hactive, hprec⟩
  · rfl
  · have hpos := hop.precedence hactive
    omega

/-- The engine with bound `n` takes the chain, up to what it may leave. -/
def TakesChain (ofInt : Int → D) (σ : ParseState D BinopTable) (n : Nat) (ts : List (Token D)) :
    Prop :=
  ∀ m rest, Closing (Parser.current (σ.on rest)).kind → ∃ e us, e ≠ .null ∧
    Leaves σ.globals m us ∧ us.length < ts.length ∧
    Takes σ ((athensEngine ofInt n).parseExpression m) (ts ++ rest) e (us ++ rest)

/-- Behind the first token, its handler takes the rest up to a continuation. -/
def TakesFirst (ofInt : Int → D) (σ : ParseState D BinopTable) (n : Nat) (ts : List (Token D)) :
    Prop :=
  ∃ tok rest handler, ts = tok :: rest ∧
    (athensRegistry ofInt).findPrefixHandler tok.kind = some handler ∧
    ∀ behind, Closing (Parser.current (σ.on behind)).kind → ∃ e us, e ≠ .null ∧
      Continues σ.globals us ∧ us.length ≤ rest.length ∧
      Takes σ (handler (athensEngine ofInt n) tok) (rest ++ behind) e (us ++ behind)

theorem closing_kind {kind : TokenKind} (h : tok.kind = kind)
    (hop : isAthensOperatorToken kind = false) (hcall : kind ≠ .lParen) (rest : List (Token D)) :
    Closing (Parser.current (σ.on (tok :: rest))).kind := by
  rw [ParseState.current_on_cons, h]
  exact ⟨hop, hcall⟩

/-! What an expression starts with is no closing parenthesis. -/

theorem Atom.starts (h : Atom ts) : ∃ tok us, ts = tok :: us ∧ tok.kind ≠ .rParen := by
  cases h with
  | number hnumber => cases hnumber <;> exact ⟨_, _, rfl, by simp [*]⟩
  | identifier hkind => exact ⟨_, _, rfl, by simp [hkind]⟩
  | paren hopen => exact ⟨_, _, rfl, by simp [hopen]⟩
  | callNone hkind => exact ⟨_, _, rfl, by simp [hkind]⟩
  | call hkind => exact ⟨_, _, rfl, by simp [hkind]⟩

theorem Opener.starts (h : Opener ts) : ∃ tok us, ts = tok :: us ∧ tok.kind ≠ .rParen := by
  cases h with
  | @prefix_ tok hop =>
    refine ⟨tok, [], rfl, ?_⟩
    intro hkind
    have hfalse := hop.1
    rw [hkind] at hfalse
    cases hfalse
  | if_ hif => exact ⟨_, _, rfl, by simp [hif]⟩
  | for_ hfor => exact ⟨_, _, rfl, by simp [hfor]⟩
  | var_ hvar => exact ⟨_, _, rfl, by simp [hvar]⟩

theorem Chain.starts (h : Chain ts) : ∃ tok us, ts = tok :: us ∧ tok.kind ≠ .rParen := by
  cases h with
  | atom hatom => exact hatom.starts
  | infix_ hatom =>
    obtain ⟨tok, us, rfl, hne⟩ := hatom.starts
    exact ⟨tok, _, rfl, hne⟩
  | opener hopener =>
    obtain ⟨tok, us, rfl, hne⟩ := hopener.starts
    exact ⟨tok, _, rfl, hne⟩

theorem ChainArgs.starts (h : ChainArgs ts) : ∃ tok us, ts = tok :: us ∧ tok.kind ≠ .rParen := by
  cases h with
  | lastArg hts => exact hts.starts
  | moreArgs hts =>
    obtain ⟨tok, us, rfl, hne⟩ := hts.starts
    exact ⟨tok, _, rfl, hne⟩

theorem ChainOptional.closing {kind : TokenKind} (h : ChainOptional kind ts)
    (hkind : isAthensOperatorToken kind = false ∧ kind ≠ .lParen)
    (hrest : Closing (Parser.current (σ.on rest)).kind) :
    Closing (Parser.current (σ.on (ts ++ rest))).kind := by
  cases h with
  | absent => exact hrest
  | present => exact hkind

theorem Closing.ends (h : Closing (Parser.current σ).kind) : Ends ofInt m σ :=
  ⟨h.2, stopsAt_of_kind h.1⟩

/-- The loop goes on as long as the operators bind. Induction on its bound. -/
theorem takes_infixLoop
    (hengine : ∀ us, Chain us → AllActive σ.globals us → us.length < n → TakesChain ofInt σ n us)
    {k : Nat} (hlhs : lhs ≠ .null) (hts : Continues σ.globals ts) (hk : ts.length < k)
    (hn : ts.length ≤ n) (hrest : Closing (Parser.current (σ.on rest)).kind) (m : Int) :
    ∃ e us, e ≠ .null ∧ Leaves σ.globals m us ∧ us.length ≤ ts.length ∧
      Takes σ (infixLoop (athensRegistry ofInt) (athensEngine ofInt n) m k lhs) (ts ++ rest) e
        (us ++ rest) := by
  induction k generalizing ts lhs with
  | zero => exact absurd hk (Nat.not_lt_zero _)
  | succ k ih =>
    rcases hts with rfl | ⟨tok, us, rfl, hop, hus, hactive⟩
    · exact ⟨lhs, [], hlhs, .inl rfl, Nat.le_refl _,
        Takes.infixLoop_stop (Closing.ends hrest).stops⟩
    · rw [List.length_cons] at hk hn
      by_cases hprec : athensOperatorPrecedence σ.globals tok < m
      · refine ⟨lhs, tok :: us, hlhs, .inr ⟨tok, us, rfl, hop, hus, hactive, hprec⟩,
          Nat.le_refl _, ?_⟩
        refine Takes.infixLoop_stop fun entry hfind => ?_
        obtain ⟨-, rfl⟩ := athensRegistry_infix hfind
        exact hprec
      · obtain ⟨rhs, vs, hrhs, hvs, hlen, htakes⟩ := hengine us hus hactive.tail (by omega)
          (athensOperatorPrecedence σ.globals tok + 1) rest hrest
        obtain ⟨op, hlex⟩ := List.length_eq_one_iff.mp hop.2
        have hmake : Takes σ (infixOperator (athensEngine ofInt n) lhs tok rhs) (vs ++ rest)
            (.binaryExpr op lhs rhs) (vs ++ rest) := by
          unfold infixOperator
          rw [makeBinary_eq hlex hlhs hrhs]
          exact Takes.pure
        have hne : ExprAST.binaryExpr op lhs rhs ≠ .null := by simp
        obtain ⟨e, ws, he, hws, hlen', hloop⟩ := ih hne hvs.continues (by omega) (by omega)
        refine ⟨e, ws, he, hws, by rw [List.length_cons]; omega, ?_⟩
        refine Takes.infixLoop_step (infixHandler_operator hop.1) ?_ htakes hmake hloop
        show m ≤ athensOperatorPrecedence σ.globals tok
        omega

section
variable
  (hengine : ∀ us, Chain us → AllActive σ.globals us → us.length < n → TakesChain ofInt σ n us)
include hengine

/-- In front of a closing token a chain is taken to its end. -/
theorem takes_whole (hus : Chain us) (hactive : AllActive σ.globals us) (hlen : us.length < n)
    (hrest : Closing (Parser.current (σ.on rest)).kind) :
    ∃ e, e ≠ .null ∧ Takes σ ((athensEngine ofInt n).parseExpression 0) (us ++ rest) e rest := by
  obtain ⟨e, vs, he, hvs, -, htakes⟩ := hengine us hus hactive hlen 0 rest hrest
  obtain rfl := hvs.eq_nil
  exact ⟨e, he, htakes⟩

/-- The loop over arguments. Induction on the arguments. -/
theorem takes_chainArgs (h : ChainArgs ts) (hactive : AllActive σ.globals ts)
    {closing : Token D} (hclose : closing.kind = .rParen)
    {k : Nat} (hk : ts.length < k) (hn : ts.length < n) (acc : List (ExprAST D)) :
    ∃ args, Takes σ (parseArguments (athensEngine ofInt n) k acc) (ts ++ closing :: rest)
      (some args) (closing :: rest) := by
  induction h using ChainArgs.rec
    (motive_1 := fun _ _ => True) (motive_2 := fun _ _ => True) (motive_3 := fun _ _ => True)
    (motive_5 := fun _ _ _ => True) (motive_6 := fun _ _ => True) generalizing k acc with
  | @lastArg ts hts =>
    obtain ⟨k, rfl⟩ := Nat.exists_eq_add_of_lt hk
    obtain ⟨e, -, htakes⟩ := takes_whole hengine hts hactive hn
      (closing_kind hclose rfl (by decide) rest)
    exact ⟨_, htakes.bind (Takes.bind (Takes.atKind_true hclose) Takes.pure)⟩
  | @moreArgs ts us comma hts hcomma _ _ ih =>
    obtain ⟨k, rfl⟩ : ∃ j, k = j + 1 := ⟨k - 1, by omega⟩
    simp only [List.length_append, List.length_cons] at hk hn
    obtain ⟨hts', hus'⟩ := allActive_append.mp hactive
    obtain ⟨e, -, htakes⟩ := takes_whole hengine hts hts' (by omega)
      (closing_kind hcomma rfl (by decide) (us ++ closing :: rest))
    obtain ⟨args, hargs⟩ := ih hus'.tail (k := k) (by omega) (by omega) (acc ++ [e])
    refine ⟨args, ?_⟩
    rw [List.append_assoc, List.cons_append]
    refine htakes.bind (Takes.bind (Takes.atKind_false ?_) (Takes.bind (Takes.expect hcomma) hargs))
    rw [ParseState.current_on_cons, hcomma]
    decide
  | _ => trivial

/-- A part that may be left out. -/
theorem takes_chainOptional {kind : TokenKind} (h : ChainOptional kind ts)
    (hactive : AllActive σ.globals ts) (hn : ts.length ≤ n)
    (hkind : (Parser.current (σ.on rest)).kind ≠ kind)
    (hrest : Closing (Parser.current (σ.on rest)).kind) :
    ∃ e, Takes σ (do
      let found ← Parser.matchKind kind
      if found then (athensEngine ofInt n).parseExpression 0 else pure .null) (ts ++ rest) e
        rest := by
  cases h with
  | absent => exact ⟨.null, Takes.bind (Takes.matchKind_false hkind) Takes.pure⟩
  | @present tok ts hts =>
    rw [List.length_cons] at hn
    obtain ⟨e, -, htakes⟩ := takes_whole hengine hts hactive.tail (by omega) hrest
    exact ⟨e, Takes.bind (Takes.matchKind_true rfl) htakes⟩

/-- The loop over bindings. Induction on the bindings. -/
theorem takes_chainBindings (h : ChainBindings ts) (hactive : AllActive σ.globals ts)
    {kwIn : Token D} (hin : kwIn.kind = .kwIn)
    {k : Nat} (hk : ts.length < k) (hn : ts.length ≤ n) (acc : List (Name × ExprAST D)) :
    ∃ bindings, Takes σ (parseBindings (athensEngine ofInt n) k acc) (ts ++ kwIn :: rest)
      (some bindings) (kwIn :: rest) := by
  induction h using ChainBindings.rec
    (motive_1 := fun _ _ => True) (motive_2 := fun _ _ => True) (motive_3 := fun _ _ => True)
    (motive_4 := fun _ _ => True) (motive_5 := fun _ _ _ => True) generalizing k acc with
  | @lastBinding name ts hname hts =>
    obtain ⟨k, rfl⟩ := Nat.exists_eq_add_of_lt hk
    rw [List.length_cons] at hn
    have hne : ∀ kind, kind ≠ .kwIn → (Parser.current (σ.on (kwIn :: rest))).kind ≠ kind := by
      intro kind hkind
      rw [ParseState.current_on_cons, hin]
      exact hkind.symm
    obtain ⟨e, htakes⟩ := takes_chainOptional hengine hts hactive.tail (by omega)
      (hne _ (by decide)) (closing_kind hin rfl (by decide) rest)
    exact ⟨_, Takes.bind (Takes.atKind_true hname) (Takes.bind Takes.consume (htakes.bind
      (Takes.bind (Takes.matchKind_false (hne _ (by decide))) Takes.pure)))⟩
  | @moreBindings name comma ts us hname hts hcomma _ _ ih =>
    obtain ⟨k, rfl⟩ : ∃ j, k = j + 1 := ⟨k - 1, by omega⟩
    simp only [List.length_append, List.length_cons] at hk hn
    obtain ⟨hts', hus'⟩ := allActive_append.mp hactive.tail
    have hne : (Parser.current (σ.on (comma :: (us ++ kwIn :: rest)))).kind ≠ .equal := by
      rw [ParseState.current_on_cons, hcomma]
      decide
    obtain ⟨e, htakes⟩ := takes_chainOptional hengine hts hts' (by omega) hne
      (closing_kind hcomma rfl (by decide) _)
    obtain ⟨bindings, hbindings⟩ := ih hus'.tail (k := k) (by omega) (by omega)
      (acc ++ [(name.lexeme, e)])
    refine ⟨bindings, ?_⟩
    rw [List.cons_append, List.append_assoc, List.cons_append]
    exact Takes.bind (Takes.atKind_true hname) (Takes.bind Takes.consume (htakes.bind
      (Takes.bind (Takes.matchKind_true hcomma) hbindings)))
  | _ => trivial

/-- An atom is taken as a whole unless it could be called. -/
theorem takes_atom (h : Atom ts) (hactive : AllActive σ.globals ts) (hn : ts.length ≤ n) :
    ∃ tok rest handler, ts = tok :: rest ∧
      (athensRegistry ofInt).findPrefixHandler tok.kind = some handler ∧
      ∀ behind, (Parser.current (σ.on behind)).kind ≠ .lParen → ∃ e, e ≠ .null ∧
        Takes σ (handler (athensEngine ofInt n) tok) (rest ++ behind) e behind := by
  cases h with
  | @number tok hnumber =>
    cases hnumber with
    | @integer val hkind hlit =>
      refine ⟨tok, [], DefaultGrammarPack.prefixIntegerExpr (exprBuilder ofInt), rfl,
        by rw [hkind]; rfl, ?_⟩
      intro behind _
      refine ⟨.numberExpr (ofInt val), by simp, ?_⟩
      unfold DefaultGrammarPack.prefixIntegerExpr
      rw [hlit]
      exact Takes.pure
    | @float val hkind hlit =>
      refine ⟨tok, [], DefaultGrammarPack.prefixFloatExpr (exprBuilder ofInt), rfl,
        by rw [hkind]; rfl, ?_⟩
      intro behind _
      refine ⟨.numberExpr val, by simp, ?_⟩
      unfold DefaultGrammarPack.prefixFloatExpr
      rw [hlit]
      exact Takes.pure
  | @identifier tok hkind =>
    refine ⟨tok, [], parseIdentifierOrCall, rfl, by rw [hkind]; rfl, ?_⟩
    intro behind hbehind
    exact ⟨_, by simp [makeIdentifier], Takes.bind (Takes.matchKind_false hbehind) Takes.pure⟩
  | @paren opening closing ts hopen hts hclose =>
    simp only [List.length_cons, List.length_append] at hn
    refine ⟨opening, _, DefaultGrammarPack.prefixParenExpr (exprBuilder ofInt), rfl,
      by rw [hopen]; rfl, ?_⟩
    intro behind _
    obtain ⟨e, he, htakes⟩ := takes_whole hengine hts (allActive_append.mp hactive.tail).1
      (by omega) (closing_kind hclose rfl (by decide) behind)
    refine ⟨e, he, ?_⟩
    rw [List.append_assoc]
    exact htakes.bind (Takes.bind (Takes.expect hclose) Takes.pure)
  | @callNone tok opening closing hkind hopen hclose =>
    refine ⟨tok, [opening, closing], parseIdentifierOrCall, rfl, by rw [hkind]; rfl, ?_⟩
    intro behind _
    have hlist : Takes σ (parseArgumentList (athensEngine ofInt n)) (closing :: behind) (some [])
        (closing :: behind) := Takes.bind (Takes.atKind_true hclose) Takes.pure
    exact ⟨_, by simp [makeCall], Takes.bind (Takes.matchKind_true hopen)
      (hlist.bind (Takes.bind (Takes.expect hclose) Takes.pure))⟩
  | @call tok opening closing ts hkind hopen hts hclose =>
    simp only [List.length_cons, List.length_append] at hn
    refine ⟨tok, _, parseIdentifierOrCall, rfl, by rw [hkind]; rfl, ?_⟩
    intro behind _
    have hfuel : ts.length < (athensEngine ofInt n).fuel := by
      rw [athensEngine, parserEngine_fuel]
      omega
    obtain ⟨args, hargs⟩ := takes_chainArgs hengine hts
      (allActive_append.mp hactive.tail.tail).1 hclose hfuel (by omega) []
    refine ⟨makeCall tok args, by simp [makeCall], ?_⟩
    have hlist : Takes σ (parseArgumentList (athensEngine ofInt n)) (ts ++ closing :: behind)
        (some args) (closing :: behind) := by
      obtain ⟨first, us, rfl, hfirst⟩ := hts.starts
      exact Takes.bind (Takes.atKind_false hfirst) hargs
    rw [List.cons_append, List.append_assoc]
    exact Takes.bind (Takes.matchKind_true hopen)
      (hlist.bind (Takes.bind (Takes.expect hclose) Takes.pure))

/-- Behind an opener a chain is taken up to a continuation, which only a prefix operator
leaves. -/
theorem takesFirst_opener (h : Opener ts) (hus : Chain us)
    (hactive : AllActive σ.globals (ts ++ us)) (hn : (ts ++ us).length ≤ n) :
    TakesFirst ofInt σ n (ts ++ us) := by
  obtain ⟨hopener, hus'⟩ := allActive_append.mp hactive
  cases h with
  | @prefix_ tok hop =>
    refine ⟨tok, us, parseUnary, rfl, prefixHandler_operator hop.1, ?_⟩
    intro behind hbehind
    obtain ⟨op, hlex⟩ := List.length_eq_one_iff.mp hop.2
    obtain ⟨e, vs, he, hvs, hlen, htakes⟩ := hengine us hus hus' hn 100 behind hbehind
    refine ⟨.unaryExpr op e, vs, by simp, hvs.continues, Nat.le_of_lt hlen, htakes.bind ?_⟩
    rw [makeUnary_eq hlex he]
    exact Takes.pure
  | @if_ kwIf kwThen kwElse c t hif hc hthen ht helse =>
    simp only [List.length_append, List.length_cons, List.length_nil] at hn
    refine ⟨kwIf, c ++ kwThen :: (t ++ [kwElse]) ++ us, parseIf, rfl, by rw [hif]; rfl, ?_⟩
    intro behind hbehind
    obtain ⟨hc', ht'⟩ := allActive_append.mp hopener.tail
    obtain ⟨cond, hcond, hc⟩ := takes_whole hengine hc hc' (by omega)
      (closing_kind hthen rfl (by decide) (t ++ kwElse :: (us ++ behind)))
    obtain ⟨then_, hthen_, ht⟩ := takes_whole hengine ht (allActive_append.mp ht'.tail).1 (by omega)
      (closing_kind helse rfl (by decide) (us ++ behind))
    obtain ⟨else_, helse_, hu⟩ := takes_whole hengine hus hus' (by omega) hbehind
    refine ⟨.ifExpr cond then_ else_, [], by simp, .inl rfl, Nat.zero_le _, ?_⟩
    have hmake :
        Takes σ (pure (makeIf cond then_ else_)) behind (.ifExpr cond then_ else_) behind := by
      rw [makeIf_eq hcond hthen_ helse_]
      exact Takes.pure
    have happend : c ++ kwThen :: (t ++ [kwElse]) ++ us ++ behind =
        c ++ kwThen :: (t ++ kwElse :: (us ++ behind)) := by simp
    rw [List.nil_append, happend]
    exact hc.bind (Takes.bind (Takes.expect hthen) (ht.bind
      (Takes.bind (Takes.expect helse) (hu.bind hmake))))
  | @for_ kwFor name equal comma kwIn s e st hfor hname hequal hs hcomma he hst hin =>
    simp only [List.length_append, List.length_cons, List.length_nil] at hn
    refine ⟨kwFor, name :: equal :: (s ++ comma :: (e ++ (st ++ [kwIn]))) ++ us, parseFor, rfl,
      by rw [hfor]; rfl, ?_⟩
    intro behind hbehind
    have hnext := closing_kind (σ := σ) hin rfl (by decide) (us ++ behind)
    obtain ⟨hs', hrange'⟩ := allActive_append.mp hopener.tail.tail.tail
    obtain ⟨he', hstep'⟩ := allActive_append.mp hrange'.tail
    obtain ⟨start, hstart, hs⟩ := takes_whole hengine hs hs' (by omega)
      (closing_kind hcomma rfl (by decide) (e ++ (st ++ kwIn :: (us ++ behind))))
    obtain ⟨end_, hend, he⟩ := takes_whole hengine he he' (by omega)
      (hst.closing (by decide) hnext)
    obtain ⟨step, hst⟩ := takes_chainOptional hengine hst (allActive_append.mp hstep').1
      (by omega) (by rw [ParseState.current_on_cons, hin]; decide) hnext
    obtain ⟨body, hbody, hu⟩ := takes_whole hengine hus hus' (by omega) hbehind
    refine ⟨.forExpr name.lexeme start end_ step body, [], by simp, .inl rfl, Nat.zero_le _, ?_⟩
    have hmake : Takes σ (pure (makeFor name start end_ step body)) behind
        (.forExpr name.lexeme start end_ step body) behind := by
      rw [makeFor_eq hstart hend hbody]
      exact Takes.pure
    have happend : name :: equal :: (s ++ comma :: (e ++ (st ++ [kwIn]))) ++ us ++ behind =
        name :: equal :: (s ++ comma :: (e ++ (st ++ kwIn :: (us ++ behind)))) := by simp
    rw [List.nil_append, happend]
    have hrange : Takes σ (parseForRange (athensEngine ofInt n) name)
        (s ++ comma :: (e ++ (st ++ kwIn :: (us ++ behind))))
        (.forExpr name.lexeme start end_ step body) behind :=
      hs.bind (Takes.bind (Takes.expect hcomma) (he.bind (hst.bind
        (Takes.bind (Takes.expect hin) (hu.bind hmake)))))
    exact Takes.bind (Takes.atKind_true hname) (Takes.bind Takes.consume
      (Takes.bind (Takes.expect hequal) hrange))
  | @var_ kwVar kwIn bs hvar hbs hin =>
    simp only [List.length_append, List.length_cons, List.length_nil] at hn
    refine ⟨kwVar, bs ++ [kwIn] ++ us, parseVar, rfl, by rw [hvar]; rfl, ?_⟩
    intro behind hbehind
    have hfuel : bs.length < (athensEngine ofInt n).fuel := by
      rw [athensEngine, parserEngine_fuel]
      omega
    obtain ⟨bindings, hbs⟩ := takes_chainBindings hengine hbs
      (allActive_append.mp hopener.tail).1 hin hfuel (by omega) []
    obtain ⟨body, hbody, hu⟩ := takes_whole hengine hus hus' (by omega) hbehind
    refine ⟨.varExpr bindings body, [], by simp, .inl rfl, Nat.zero_le _, ?_⟩
    have hmake : Takes σ (pure (makeVar bindings body)) behind (.varExpr bindings body) behind := by
      rw [makeVar_eq hbody]
      exact Takes.pure
    have happend : bs ++ [kwIn] ++ us ++ behind = bs ++ kwIn :: (us ++ behind) := by simp
    rw [List.nil_append, happend]
    exact hbs.bind (Takes.bind (Takes.expect hin) (hu.bind hmake))

theorem takesFirst (h : Chain ts) (hactive : AllActive σ.globals ts) (hn : ts.length ≤ n) :
    TakesFirst ofInt σ n ts := by
  cases h with
  | atom hatom =>
    obtain ⟨tok, rest, handler, rfl, hfind, htakes⟩ := takes_atom hengine hatom hactive hn
    refine ⟨tok, rest, handler, rfl, hfind, ?_⟩
    intro behind hbehind
    obtain ⟨e, he, htakes⟩ := htakes behind hbehind.2
    exact ⟨e, [], he, .inl rfl, Nat.zero_le _, htakes⟩
  | @infix_ ts us tok hatom hop hus =>
    rw [List.length_append] at hn
    obtain ⟨hts', hus'⟩ := allActive_append.mp hactive
    obtain ⟨first, rest, handler, rfl, hfind, htakes⟩ := takes_atom hengine hatom hts'
      (by omega)
    refine ⟨first, rest ++ tok :: us, handler, rfl, hfind, ?_⟩
    intro behind _
    have hcall : (Parser.current (σ.on (tok :: (us ++ behind)))).kind ≠ .lParen := by
      intro hkind
      have hfalse := hop.1
      rw [show tok.kind = .lParen from hkind] at hfalse
      cases hfalse
    obtain ⟨e, he, htakes⟩ := htakes _ hcall
    refine ⟨e, tok :: us, he, .inr ⟨tok, us, rfl, hop, hus, hus'⟩, by simp, ?_⟩
    rw [List.append_assoc]
    exact htakes
  | opener hopener hus => exact takesFirst_opener hengine hopener hus hactive hn

end

/-- Induction on the depth of the calls. -/
theorem athensEngine_takesChain (ofInt : Int → D) (n : Nat) :
    ∀ us, Chain us → AllActive σ.globals us → us.length < n → TakesChain ofInt σ n us := by
  induction n with
  | zero => exact fun us _ _ h => absurd h (Nat.not_lt_zero _)
  | succ n ih =>
    intro us hus hactive hlen m rest hrest
    obtain ⟨tok, ts, handler, rfl, hfind, htakes⟩ := takesFirst ih hus hactive (by omega)
    rw [List.length_cons] at hlen
    obtain ⟨lhs, vs, hlhs, hvs, hle, hhandler⟩ := htakes rest hrest
    obtain ⟨e, ws, he, hws, hle', hloop⟩ :=
      takes_infixLoop ih hlhs hvs (k := n) (by omega) (by omega) hrest m
    refine ⟨e, ws, he, hws, by rw [List.length_cons]; omega, ?_⟩
    exact Takes.parseExpression hfind hhandler hloop

end

/-! ## What is accepted has no wide operator -/

/-- The kinds that an operand ends with. -/
def endsOperand : TokenKind → Bool
  | .identifier | .integer | .float | .rParen => true
  | _ => false

/-- Whether an operand ends with the tokens, or with what stands in front of none. -/
def endsBehind (b : Bool) : List (Token D) → Bool
  | [] => b
  | tok :: ts => endsBehind (endsOperand tok.kind) ts

/-- Operators that are not one character long stand directly behind operands only, and
`=` is one character long. -/
def InfixOnly (b : Bool) : List (Token D) → Prop
  | [] => True
  | tok :: ts => (isAthensOperatorToken tok.kind = true → tok.lexeme.length ≠ 1 →
      b = true ∧ tok.kind ≠ .equal) ∧ InfixOnly (endsOperand tok.kind) ts

theorem InfixOnly.append {b : Bool} {ts us : List (Token D)} (h : InfixOnly b (ts ++ us)) :
    InfixOnly b ts ∧ InfixOnly (endsBehind b ts) us := by
  induction ts generalizing b with
  | nil => exact ⟨trivial, h⟩
  | cons tok ts ih =>
    obtain ⟨hts, hus⟩ := ih h.2
    exact ⟨⟨h.1, hts⟩, hus⟩

theorem InfixOnly.behind {b : Bool} {ts : List (Token D)} (h : InfixOnly b ts) :
    InfixOnly true ts := by
  cases ts with
  | nil => trivial
  | cons tok ts => exact ⟨fun hop hlen => ⟨rfl, (h.1 hop hlen).2⟩, h.2⟩

section
variable {α β : Type} {b : Bool} {kind : TokenKind} {message : String}

/-- The parser takes no wide operator, behind an operand if `b`. -/
def Narrows (b : Bool) (p : AthensParser D α) : Prop :=
  Yields p fun c _ => InfixOnly b c → Narrow c

namespace Narrows

theorem pure (a : α) : Narrows (D := D) b (Pure.pure a) := Yields.pure fun _ => narrow_nil

theorem bind {p : AthensParser D α} {f : α → AthensParser D β} (hp : Narrows b p)
    (hf : ∀ a, Narrows true (f a)) : Narrows b (p >>= f) := by
  refine Yields.bind hp fun a => (hf a).mono ?_
  intro c _ hc c₀ hc₀ honly
  obtain ⟨honly₀, honly⟩ := honly.append
  exact narrow_append.mpr ⟨hc₀ honly₀, hc honly.behind⟩

/-- A token that is no operator, or `=`, and what is taken behind it. -/
theorem behind {tok : Token D} {c : List (Token D)}
    (hkind : isAthensOperatorToken tok.kind = false ∨ tok.kind = .equal)
    (hc : InfixOnly (endsOperand tok.kind) c → Narrow c) : InfixOnly b (tok :: c) →
      Narrow (tok :: c) := by
  intro honly
  refine narrow_cons.mpr ⟨fun hop => ?_, hc honly.2⟩
  by_contra hlen
  rcases hkind with hkind | hkind
  · rw [hop] at hkind
    cases hkind
  · exact (honly.1 hop hlen).2 hkind

theorem expect_bind {f : Bool → AthensParser D β}
    (hkind : isAthensOperatorToken kind = false ∨ kind = .equal) (hne : kind ≠ .eof)
    (ht : Narrows (endsOperand kind) (f true)) (hf : Narrows true (f false)) :
    Narrows b (Parser.expect kind message >>= f) := by
  refine Yields.expect_bind hne (ht.mono ?_) (hf.mono fun _ _ _ => trivial)
  rintro c _ hc tok rfl
  exact behind hkind hc

theorem matchKind_bind {f : Bool → AthensParser D β}
    (hkind : isAthensOperatorToken kind = false ∨ kind = .equal) (hne : kind ≠ .eof)
    (ht : Narrows (endsOperand kind) (f true)) (hf : Narrows b (f false)) :
    Narrows b (Parser.matchKind kind >>= f) := by
  refine Yields.matchKind_bind hne (ht.mono ?_) hf
  rintro c _ hc tok rfl
  exact behind hkind hc

theorem errorHere_bind {f : Unit → AthensParser D β} (hf : Narrows true (f ())) :
    Narrows b (Parser.errorHere message >>= f) :=
  Yields.errorHere_bind _ (hf.mono fun _ _ _ => trivial)

theorem atKind_consume {f : Token D → AthensParser D β} {q : AthensParser D β}
    (hkind : isAthensOperatorToken kind = false ∨ kind = .equal) (hne : kind ≠ .eof)
    (ht : ∀ tok, Narrows (endsOperand kind) (f tok)) (hq : Narrows b q) :
    Narrows b (do
      let found ← Parser.atKind kind
      if found then do
        let tok ← Parser.consume
        f tok
      else q) := by
  refine Yields.atKind_consume hne ?_ hq
  rintro tok rfl
  exact (ht tok).mono fun c _ hc => behind hkind hc

end Narrows

end

/-- The relation that the handlers keep. -/
def Infixed (c : List (Token D)) (_ : ExprAST D) : Prop := InfixOnly false c → Narrow c

section
variable {ofInt : Int → D} {engine : AthensEngine D} (hengine : EngineYields engine Infixed)
include hengine

theorem parseArguments_narrows (n : Nat) (args : List (ExprAST D)) :
    Narrows false (parseArguments engine n args) := by
  induction n generalizing args with
  | zero => exact Yields.diverge
  | succ n ih =>
    refine Narrows.bind (hengine 0 (by decide)) fun arg => Yields.atKind_bind fun closing => ?_
    cases closing with
    | true => exact Narrows.pure _
    | false => exact Narrows.expect_bind (.inl rfl) (by decide) (ih _) (Narrows.pure _)

theorem parseArgumentList_narrows : Narrows false (parseArgumentList engine) := by
  refine Yields.atKind_bind fun empty => ?_
  cases empty with
  | true => exact Narrows.pure _
  | false => exact parseArguments_narrows hengine _ []

theorem parseIdentifierOrCall_narrows (tok : Token D) :
    Narrows true (parseIdentifierOrCall engine tok) := by
  refine Narrows.matchKind_bind (.inl rfl) (by decide) ?_ (Narrows.pure _)
  refine Narrows.bind (parseArgumentList_narrows hengine) fun args => ?_
  cases args with
  | none => exact Narrows.pure _
  | some args =>
    exact Narrows.expect_bind (.inl rfl) (by decide) (Narrows.pure _) (Narrows.pure _)

theorem parseUnary_narrows (tok : Token D) : Narrows false (parseUnary engine tok) :=
  Narrows.bind (hengine 100 (by decide)) fun _ => Narrows.pure _

theorem parseIf_narrows (tok : Token D) : Narrows false (parseIf engine tok) := by
  refine Narrows.bind (hengine 0 (by decide)) fun cond => ?_
  refine Narrows.expect_bind (.inl rfl) (by decide) ?_ (Narrows.pure _)
  refine Narrows.bind (hengine 0 (by decide)) fun then_ => ?_
  refine Narrows.expect_bind (.inl rfl) (by decide) ?_ (Narrows.pure _)
  exact Narrows.bind (hengine 0 (by decide)) fun else_ => Narrows.pure _

/-- A step or an initialiser. -/
theorem optional_narrows {kind : TokenKind}
    (hkind : isAthensOperatorToken kind = false ∨ kind = .equal) (hne : kind ≠ .eof)
    (hends : endsOperand kind = false) : Narrows true (do
      let found ← Parser.matchKind kind
      if found then engine.parseExpression 0 else pure .null) := by
  refine Narrows.matchKind_bind hkind hne ?_ (Narrows.pure _)
  rw [hends]
  exact hengine 0 (by decide)

theorem parseFor_narrows (tok : Token D) : Narrows false (parseFor engine tok) := by
  refine Narrows.atKind_consume (.inl rfl) (by decide) ?_ (Narrows.errorHere_bind (Narrows.pure _))
  intro name
  refine Narrows.expect_bind (.inr rfl) (by decide) ?_ (Narrows.pure _)
  refine Narrows.bind (hengine 0 (by decide)) fun start => ?_
  refine Narrows.expect_bind (.inl rfl) (by decide) ?_ (Narrows.pure _)
  refine Narrows.bind (hengine 0 (by decide)) fun end_ => ?_
  refine Narrows.bind (optional_narrows hengine (.inl rfl) (by decide) rfl) fun step => ?_
  refine Narrows.expect_bind (.inl rfl) (by decide) ?_ (Narrows.pure _)
  exact Narrows.bind (hengine 0 (by decide)) fun body => Narrows.pure _

theorem parseBindings_narrows (n : Nat) (bindings : List (Name × ExprAST D)) :
    Narrows false (parseBindings engine n bindings) := by
  induction n generalizing bindings with
  | zero => exact Yields.diverge
  | succ n ih =>
    refine Narrows.atKind_consume (.inl rfl) (by decide) ?_
      (Narrows.errorHere_bind (Narrows.pure _))
    intro name
    refine Narrows.bind (optional_narrows hengine (.inr rfl) (by decide) rfl) fun init => ?_
    exact Narrows.matchKind_bind (.inl rfl) (by decide) (ih _) (Narrows.pure _)

theorem parseVar_narrows (tok : Token D) : Narrows false (parseVar engine tok) := by
  refine Narrows.bind (parseBindings_narrows hengine _ []) fun bindings => ?_
  cases bindings with
  | none => exact Narrows.pure _
  | some bindings =>
    refine Narrows.expect_bind (.inl rfl) (by decide) ?_ (Narrows.pure _)
    exact Narrows.bind (hengine 0 (by decide)) fun body => Narrows.pure _

theorem prefixParenExpr_narrows (tok : Token D) :
    Narrows false (DefaultGrammarPack.prefixParenExpr (exprBuilder ofInt) engine tok) := by
  refine Narrows.bind (hengine 0 (by decide)) fun inner => ?_
  exact Narrows.expect_bind (.inl rfl) (by decide) (Narrows.pure _) (Narrows.pure _)

/-- Behind the token that it is registered for, every handler starts where it should. -/
theorem athensRegistry_prefix_narrows {kind : TokenKind}
    {handler : PrefixExprHandler D BinopTable (ExprAST D) (ExprAST D)}
    (h : (athensRegistry ofInt).findPrefixHandler kind = some handler) (tok : Token D) :
    Narrows (endsOperand kind) (handler engine tok) := by
  have hliteral : ∀ loc message (e : ExprAST D), Narrows true (do
      Parser.error loc message
      pure e : AthensParser D (ExprAST D)) := fun _ _ _ =>
    Yields.error_bind _ _ (Yields.pure trivial)
  cases kind <;> cases h
  case identifier.refl => exact parseIdentifierOrCall_narrows hengine tok
  case integer.refl =>
    unfold DefaultGrammarPack.prefixIntegerExpr
    cases tok.literal with
    | int val => exact Narrows.pure _
    | _ => exact hliteral _ _ _
  case float.refl =>
    unfold DefaultGrammarPack.prefixFloatExpr
    cases tok.literal with
    | double val => exact Narrows.pure _
    | _ => exact hliteral _ _ _
  case lParen.refl => exact prefixParenExpr_narrows hengine tok
  case kwIf.refl => exact parseIf_narrows hengine tok
  case kwFor.refl => exact parseFor_narrows hengine tok
  case kwVar.refl => exact parseVar_narrows hengine tok
  all_goals exact parseUnary_narrows hengine tok

end

theorem athensRegistry_keepsInfixed (ofInt : Int → D) :
    KeepsSpec (athensRegistry ofInt) Infixed := by
  have hkeeps := athensRegistry_keepsSpec ofInt
  refine ⟨?_, ?_⟩
  · intro kind handler h
    refine ⟨(hkeeps.prefix_ kind handler h).1, ?_⟩
    rintro engine hengine tok rfl
    refine (athensRegistry_prefix_narrows hengine h tok).mono ?_
    intro c e hc honly
    refine narrow_cons.mpr ⟨fun hop => ?_, hc honly.2⟩
    by_contra hlen
    exact absurd (honly.1 hop hlen).1 (by decide)
  · intro kind entry h
    refine ⟨(hkeeps.infix_ kind entry h).1, ?_⟩
    obtain ⟨hop, rfl⟩ := athensRegistry_infix h
    rintro engine - globals tok rfl hprec lhs rhs
    obtain ⟨op, -, hlex, -, -⟩ := athensOperatorPrecedence_nonneg hprec
    refine Yields.pure ?_
    intro l r hl hr honly
    obtain ⟨honlyl, -, honlyr⟩ := honly.append
    have hends : endsOperand tok.kind = false := by
      cases hk : tok.kind <;> rw [hk] at hop <;> cases hop <;> rfl
    rw [hends, List.append_nil] at honlyr
    rw [List.append_nil, narrow_append, narrow_cons]
    exact ⟨hl honlyl, fun _ => by rw [hlex]; rfl, hr honlyr⟩

/-! ## The language of `parseExpression` -/

/-- `parseExpression()` takes the whole stream, has a result and reports nothing. -/
def Accepts (ofInt : Int → D) (σ : ParseState D BinopTable) : Prop :=
  ∃ e σ', (∀ fuel, σ.tokens.length < fuel →
    (athensEngine ofInt fuel).parseExpression 0 σ = some (e, σ')) ∧
    e ≠ .null ∧ σ'.tokens = [] ∧ σ'.diag = σ.diag

section
variable {ofInt : Int → D} {σ : ParseState D BinopTable}

/-- One run that accepts is enough: all that are long enough agree. -/
theorem accepts_of_run {e : ExprAST D} {σ' : ParseState D BinopTable}
    (hrun : (athensEngine ofInt (σ.tokens.length + 1)).parseExpression 0 σ = some (e, σ'))
    (hne : e ≠ .null) (htokens : σ'.tokens = []) (hdiag : σ'.diag = σ.diag) : Accepts ofInt σ := by
  obtain ⟨e', τ, -, hruns⟩ :=
    parseExpression_terminates (athensRegistry_handlersCount ofInt) .null .null [] 0 σ
  have hsame : (athensEngine ofInt (σ.tokens.length + 1)).parseExpression 0 σ = some (e', τ) :=
    (hruns _ (Nat.lt_succ_self _)).1
  obtain ⟨rfl, rfl⟩ := Prod.mk.inj (Option.some.inj (hrun.symm.trans hsame))
  exact ⟨e, σ', fun fuel hfuel => (hruns fuel hfuel).1, hne, htokens, hdiag⟩

theorem Chain.accepts (h : Chain σ.tokens) (hactive : AllActive σ.globals σ.tokens) :
    Accepts ofInt σ := by
  obtain ⟨e, us, he, hus, -, htakes⟩ := athensEngine_takesChain ofInt
    (σ.tokens.length + 1) _ h hactive (Nat.lt_succ_self _) 0 []
    (show Closing .eof from ⟨rfl, by decide⟩)
  obtain rfl := hus.eq_nil
  rw [List.append_nil, List.append_nil] at htakes
  exact accepts_of_run htakes he rfl rfl

theorem Accepts.chain (h : Accepts ofInt σ) (hinfixed : InfixOnly false σ.tokens) :
    Chain σ.tokens := by
  obtain ⟨e, σ', hruns, -, htokens, hdiag⟩ := h
  have hrun := hruns _ (Nat.lt_succ_self _)
  have hengine := parserEngine_yields (athensRegistry_keepsInfixed ofInt) .null .null
    (σ.tokens.length + 1)
  obtain ⟨c, r, hran, hnarrow⟩ := hengine 0 (by decide) hrun
  obtain ⟨c', r', hran', hspells⟩ := athensEngine_yields ofInt _ 0 (by decide) hrun
  have hreported : ∀ {r : List (SourceLoc × String)}, σ'.diag = σ.diag ++ r → r = [] := by
    intro r hr
    exact List.append_cancel_left (hr.symm.trans (hdiag.trans (List.append_nil _).symm))
  have hconsumed : ∀ {c : List (Token D)}, σ.tokens = c ++ σ'.tokens → c = σ.tokens := by
    intro c hc
    rw [hc, htokens, List.append_nil]
  obtain rfl := hconsumed hran.tokens
  have heq := hconsumed hran'.tokens
  rw [heq] at hspells
  exact (hspells (hreported hran'.diag) (hnarrow (hreported hran.diag) hinfixed)).chain

/-- Every operator has precedence 10. -/
def flatTable : BinopTable := fun _ => some 10

theorem flatTable_active (c : UInt8) : ∃ p, flatTable c = some p ∧ 0 < p := ⟨10, rfl, by decide⟩

/-- `-if x then y else z`. -/
def negatedIf : List (Token Int) :=
  [word .minus "-", word .kwIf "if", identToken (text "x"), word .kwThen "then",
    identToken (text "y"), word .kwElse "else", identToken (text "z")]

theorem chain_negatedIf : Chain negatedIf :=
  .opener (.prefix_ ⟨rfl, rfl⟩) (.opener
    (.if_ rfl (.atom (.identifier rfl)) rfl (.atom (.identifier rfl)) rfl)
    (.atom (.identifier rfl)))

/-- Under a table in which every operator of one character among the tokens is active,
`parseExpression` accepts what the README derives once `var`, `if` and `for` may be operands,
as long as no wide operator stands where an operand starts. -/
theorem parseExpression_accepts (ofInt : Int → D) (hactive : AllActive σ.globals σ.tokens) :
    (ReadmeExpression σ.tokens → OpenExpression σ.tokens) ∧
      (OpenExpression σ.tokens → Accepts ofInt σ) ∧
      (InfixOnly false σ.tokens → Accepts ofInt σ → OpenExpression σ.tokens) := by
  refine ⟨fun h => h.open_, fun h => h.chain.accepts hactive, ?_⟩
  intro hinfixed h
  exact (h.chain hinfixed).openExpression

theorem parseExpression_accepts_negatedIf :
    Accepts id { tokens := negatedIf, globals := flatTable } ∧ OpenExpression negatedIf := by
  obtain ⟨-, hcomplete, hsound⟩ := parseExpression_accepts
    (σ := { tokens := negatedIf, globals := flatTable }) id
    fun _ _ _ c _ => flatTable_active c
  have haccepts := hcomplete chain_negatedIf.openExpression
  have hinfixed : InfixOnly false negatedIf := by
    simp [InfixOnly, negatedIf, word, identToken, text, isAthensOperatorToken]
  exact ⟨haccepts, hsound hinfixed haccepts⟩

end

/-! ## Operands that the README does not have -/

/-- How the words of the README start: no operator has an `if` directly behind it. -/
def ReadmeStart : Nonterminal → List (Token D) → Prop
  | .expression, ts => ∃ tok us, ts = tok :: us ∧
      (isAthensOperatorToken tok.kind = true → ∃ tok' vs, us = tok' :: vs ∧ tok'.kind ≠ .kwIf)
  | .varExpr, ts | .ifExpr, ts | .forExpr, ts =>
      ∃ tok us, ts = tok :: us ∧ isAthensOperatorToken tok.kind = false
  | .binaryExpr, ts | .unaryExpr, ts | .unaryPrefix, ts => ∃ tok us, ts = tok :: us ∧
      tok.kind ≠ .kwIf ∧
      (isAthensOperatorToken tok.kind = true → ∃ tok' vs, us = tok' :: vs ∧ tok'.kind ≠ .kwIf)
  | .primaryExpr, ts | .parenExpr, ts | .idOrFuncCallExpr, ts => ∃ tok us, ts = tok :: us ∧
      tok.kind ≠ .kwIf ∧ isAthensOperatorToken tok.kind = false
  | _, _ => True

theorem readmeStart_closed (n : Nonterminal) (rhs : List (Symbol Terminal Nonterminal))
    (ts : List (Token D)) (hrhs : rhs ∈ Readme.productions n)
    (h : Matches IsTerminal ReadmeStart rhs ts) : ReadmeStart n ts := by
  have hkeyword : ∀ {kind : TokenKind} {tok : Token D} {us : List (Token D)}, tok.kind = kind →
      isAthensOperatorToken kind = false → ∃ tok' us', tok :: us = tok' :: us' ∧
        isAthensOperatorToken tok'.kind = false := fun hkind hop => ⟨_, _, rfl, hkind ▸ hop⟩
  cases n <;> simp only [Readme.productions, List.mem_cons, List.not_mem_nil, or_false] at hrhs
  case expression =>
    rcases hrhs with rfl | rfl | rfl | rfl
    case inr.inr.inr =>
      obtain ⟨tok, us, rfl, -, hop⟩ := matches_nonterminal.mp h
      exact ⟨tok, us, rfl, hop⟩
    all_goals
      obtain ⟨tok, us, rfl, hop⟩ := matches_nonterminal.mp h
      exact ⟨tok, us, rfl, fun hfalse => absurd (hop.symm.trans hfalse) (by decide)⟩
  case varExpr =>
    subst hrhs
    obtain ⟨tok, us, rfl, hkind, -⟩ := h
    exact hkeyword hkind rfl
  case ifExpr =>
    subst hrhs
    obtain ⟨tok, us, rfl, hkind, -⟩ := h
    exact hkeyword hkind rfl
  case forExpr =>
    subst hrhs
    obtain ⟨tok, us, rfl, hkind, -⟩ := h
    exact hkeyword hkind rfl
  case binaryExpr =>
    subst hrhs
    obtain ⟨_, vs, rfl, ⟨tok, us, rfl, hne, hop⟩, -⟩ := h
    refine ⟨tok, us ++ vs, rfl, hne, fun h => ?_⟩
    obtain ⟨tok', vs', rfl, hne'⟩ := hop h
    exact ⟨tok', vs' ++ vs, rfl, hne'⟩
  case unaryExpr =>
    rcases hrhs with rfl | rfl
    · exact matches_nonterminal.mp h
    · obtain ⟨tok, us, rfl, hne, hop⟩ := matches_nonterminal.mp h
      exact ⟨tok, us, rfl, hne, fun hfalse => absurd (hop.symm.trans hfalse) (by decide)⟩
  case unaryPrefix =>
    subst hrhs
    obtain ⟨tok, us, rfl, hop, hus⟩ := h
    obtain ⟨tok', vs, rfl, hne, -⟩ := matches_nonterminal.mp hus
    refine ⟨tok, tok' :: vs, rfl, ?_, fun _ => ⟨tok', vs, rfl, hne⟩⟩
    intro hkind
    have hfalse := hop.1
    rw [hkind] at hfalse
    cases hfalse
  case primaryExpr =>
    rcases hrhs with rfl | rfl | rfl
    · obtain ⟨tok, us, rfl, hnumber, -⟩ := h
      cases hnumber <;> exact ⟨tok, us, rfl, by simp [*], by simp [*, isAthensOperatorToken]⟩
    all_goals exact matches_nonterminal.mp h
  case parenExpr =>
    subst hrhs
    obtain ⟨tok, us, rfl, hkind, -⟩ := h
    have hkind : tok.kind = .lParen := hkind
    exact ⟨tok, us, rfl, by simp [hkind], by simp [hkind, isAthensOperatorToken]⟩
  case idOrFuncCallExpr =>
    subst hrhs
    obtain ⟨tok, us, rfl, hkind, -⟩ := h
    have hkind : tok.kind = .identifier := hkind
    exact ⟨tok, us, rfl, by simp [hkind], by simp [hkind, isAthensOperatorToken]⟩
  all_goals trivial

/-- `f(<= x)`. -/
def wideArgument : List (Token Int) :=
  [identToken (text "f"), word .lParen "(", word .lessEqual "<=", identToken (text "x"),
    word .rParen ")"]

/-- Both are accepted. The README derives neither; the second has an operator of two
characters where an operand starts, and a call with a null argument comes of it. -/
theorem accepts_more_than_readme :
    ((∀ c, ∃ p, flatTable c = some p ∧ 0 < p) ∧
      Accepts id { tokens := negatedIf, globals := flatTable } ∧
      ¬ ReadmeExpression negatedIf) ∧
    (Accepts id { tokens := wideArgument, globals := flatTable } ∧
      ¬ OpenExpression wideArgument ∧ ¬ ReadmeExpression wideArgument) := by
  have hwide : ¬ OpenExpression wideArgument := by
    intro h
    obtain ⟨t, ht⟩ := Derives.terminals h (word .lessEqual "<=") (by simp [wideArgument])
    cases t
    case number => cases ht <;> contradiction
    case operatorChar => exact absurd ht.2 (by decide)
    all_goals cases ht
  refine ⟨⟨flatTable_active, ?_, ?_⟩, ?_, hwide, fun h => hwide h.open_⟩
  · exact Chain.accepts chain_negatedIf fun _ _ _ c _ => flatTable_active c
  · intro h
    obtain ⟨tok, us, hts, hop⟩ := Generates.least readmeStart_closed h
    obtain ⟨rfl, rfl⟩ := List.cons.inj hts
    obtain ⟨tok', vs, hus, hne⟩ := hop rfl
    obtain ⟨rfl, rfl⟩ := List.cons.inj hus
    exact hne rfl
  · exact accepts_of_run (e := .callExpr (text "f") [.null]) rfl (by simp) rfl rfl

end AroundTheWorld.Athens
