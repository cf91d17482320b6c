import Mathlib.Algebra.Ring.Nat
import AroundTheWorld.Athens.Accepts
import AroundTheWorld.Athens.Driver

/-!
# What a prefix operator is applied to

`parseUnary` asks for an operand of precedence 100, which a definition can give to a
binary operator. Such an operator directly behind an operand with a prefix is taken into
the operand of the prefix, every other one is not.
-/

namespace AroundTheWorld.Athens

open AroundTheWorld.Base AroundTheWorld.Lex AroundTheWorld.Parse
open AthensGrammarPack AthensParseBuilder

variable {D : Type}

/-! ## Chains of operands -/

section
variable (ofInt : Int → D) (σ : ParseState D BinopTable)

/-- On a stream that is shorter than the bound of the engine, `parseExpression` leaves `rest`. -/
def TakesExpression (m : Int) (ts : List (Token D)) (e : ExprAST D) (rest : List (Token D)) :
    Prop :=
  ∀ fuel, ts.length < fuel → Takes σ ((athensEngine ofInt fuel).parseExpression m) ts e rest

/-- In front of `closing` the tokens are read as the expression. -/
structure IsExpression (closing : Token D) (ts : List (Token D)) (e : ExprAST D) : Prop where
  ne_null : e ≠ .null
  takes : ∀ behind, TakesExpression ofInt σ 0 (ts ++ closing :: behind) e (closing :: behind)

/-- The arguments in front of a closing parenthesis. -/
inductive AreArguments (closing : Token D) : List (Token D) → List (ExprAST D) → Prop where
  | last {ts : List (Token D)} {e : ExprAST D} : IsExpression ofInt σ closing ts e →
      AreArguments closing ts [e]
  | more {ts us : List (Token D)} {comma : Token D} {e : ExprAST D} {es : List (ExprAST D)} :
      IsExpression ofInt σ comma ts e → comma.kind = .comma → AreArguments closing us es →
      AreArguments closing (ts ++ comma :: us) (e :: es)

/-- The `primary-expr` of the README, with what it is read as. -/
inductive IsPrimary : List (Token D) → ExprAST D → Prop where
  | integer {tok : Token D} {val : Int} : tok.kind = .integer → tok.literal = .int val →
      IsPrimary [tok] (.numberExpr (ofInt val))
  | float {tok : Token D} {val : D} : tok.kind = .float → tok.literal = .double val →
      IsPrimary [tok] (.numberExpr val)
  | identifier {tok : Token D} : tok.kind = .identifier →
      IsPrimary [tok] (.variableExpr tok.lexeme)
  | paren {opening closing : Token D} {ts : List (Token D)} {e : ExprAST D} :
      opening.kind = .lParen → IsExpression ofInt σ closing ts e → closing.kind = .rParen →
      IsPrimary (opening :: (ts ++ [closing])) e
  | callNone {tok opening closing : Token D} : tok.kind = .identifier → opening.kind = .lParen →
      closing.kind = .rParen → IsPrimary [tok, opening, closing] (.callExpr tok.lexeme [])
  | call {tok opening closing : Token D} {ts : List (Token D)} {es : List (ExprAST D)} :
      tok.kind = .identifier → opening.kind = .lParen → AreArguments ofInt σ closing ts es →
      closing.kind = .rParen →
      IsPrimary (tok :: opening :: (ts ++ [closing])) (.callExpr tok.lexeme es)

/-- A primary expression with its prefix operators. -/
structure UnaryOperand where
  prefixes : List (Token D)
  operators : ∀ tok ∈ prefixes, IsOperator tok
  tokens : List (Token D)
  expr : ExprAST D
  primary : IsPrimary ofInt σ tokens expr

end

/-- An operator with a precedence that a definition can give it. -/
structure ActiveOperator (D : Type) (table : BinopTable) where
  tok : Token D
  char : Byte
  kind_eq : isAthensOperatorToken tok.kind = true
  lexeme_eq : tok.lexeme = [char]
  active : Active table char

def ActiveOperator.precedence {table : BinopTable} (op : ActiveOperator D table) : Int :=
  athensOperatorPrecedence table op.tok

/-- An operator and the operand behind it. -/
structure Link (ofInt : Int → D) (σ : ParseState D BinopTable) where
  op : ActiveOperator D σ.globals
  operand : UnaryOperand ofInt σ

/-- A way to group the operands of a chain, each as a whole. -/
inductive Grouping (ofInt : Int → D) (σ : ParseState D BinopTable) where
  | operand (o : UnaryOperand ofInt σ)
  | binary (op : ActiveOperator D σ.globals) (lhs rhs : Grouping ofInt σ)

section
variable {ofInt : Int → D} {σ : ParseState D BinopTable}

namespace UnaryOperand

def spelled (o : UnaryOperand ofInt σ) : List (Token D) := o.prefixes ++ o.tokens

/-- The prefix operators on the primary expression alone. -/
def build (o : UnaryOperand ofInt σ) : ExprAST D := o.prefixes.foldr makeUnary o.expr

end UnaryOperand

def spelledLinks (links : List (Link ofInt σ)) : List (Token D) :=
  links.flatMap fun l => l.op.tok :: l.operand.spelled

namespace Grouping

def first : Grouping ofInt σ → UnaryOperand ofInt σ
  | operand o => o
  | binary _ lhs _ => lhs.first

def links : Grouping ofInt σ → List (Link ofInt σ)
  | operand _ => []
  | binary op lhs rhs => lhs.links ++ ⟨op, rhs.first⟩ :: rhs.links

def build : Grouping ofInt σ → ExprAST D
  | operand o => o.build
  | binary op lhs rhs => makeBinary op.tok lhs.build rhs.build

end Grouping

/-- The binary operators have whole operands, so that every prefix operator is applied to
the primary expression behind it and nothing else. -/
def BindsTightest (first : UnaryOperand ofInt σ) (links : List (Link ofInt σ)) (e : ExprAST D) :
    Prop :=
  ∃ t : Grouping ofInt σ, t.first = first ∧ t.links = links ∧ t.build = e

/-- No operator of precedence 100 comes directly behind an operand with a prefix. -/
def NoneAbsorbed : UnaryOperand ofInt σ → List (Link ofInt σ) → Prop
  | _, [] => True
  | o, l :: links => (o.prefixes ≠ [] → l.op.precedence ≠ 100) ∧ NoneAbsorbed l.operand links

/-! ## Primary expressions -/

theorem TakesExpression.starts {m : Int} {ts rest : List (Token D)} {e : ExprAST D}
    (h : TakesExpression ofInt σ m ts e rest) (hne : e ≠ .null) :
    (Parser.current (σ.on ts)).kind ≠ .rParen := by
  intro hkind
  have htakes := h (ts.length + 1) (Nat.lt_succ_self _)
  unfold Takes athensEngine at htakes
  rw [parserEngine_parseExpression] at htakes
  have hnone : (athensRegistry ofInt).findPrefixHandler (Parser.current (σ.on ts)).kind = none := by
    rw [hkind]
    rfl
  obtain ⟨hnull, -⟩ := Prod.mk.inj (Option.some.inj
    ((parseExpression_without_handler hnone).symm.trans htakes))
  exact hne hnull.symm

/-- The handler of the first token takes what belongs to it. -/
def TakesOperand (ofInt : Int → D) (σ : ParseState D BinopTable) (ts : List (Token D))
    (e : ExprAST D) (rest : List (Token D)) : Prop :=
  ∃ tok us handler, ts = tok :: us ∧ rest.length ≤ us.length ∧
    (athensRegistry ofInt).findPrefixHandler tok.kind = some handler ∧
    ∀ fuel, us.length < fuel → Takes σ (handler (athensEngine ofInt fuel) tok) us e rest

/-- The loop over arguments. Induction on the arguments. -/
theorem AreArguments.takes {closing : Token D} {ts behind : List (Token D)} {es : List (ExprAST D)}
    (h : AreArguments ofInt σ closing ts es) (hclose : closing.kind = .rParen) {n k : Nat}
    (hn : (ts ++ closing :: behind).length < n) (hk : ts.length < k) (acc : List (ExprAST D)) :
    Takes σ (parseArguments (athensEngine ofInt n) k acc) (ts ++ closing :: behind)
      (some (acc ++ es)) (closing :: behind) := by
  induction h generalizing k acc with
  | @last ts e he =>
    obtain ⟨k, rfl⟩ := Nat.exists_eq_add_of_lt hk
    exact (he.takes behind n hn).bind (Takes.bind (Takes.atKind_true hclose) Takes.pure)
  | @more ts us comma e es he hcomma _ ih =>
    obtain ⟨k, rfl⟩ : ∃ j, k = j + 1 := ⟨k - 1, by omega⟩
    rw [List.append_assoc, List.cons_append] at hn ⊢
    simp only [List.length_append, List.length_cons] at hk hn
    have hmore := ih (k := k) (by simp only [List.length_append, List.length_cons]; omega)
      (by omega) (acc ++ [e])
    rw [List.append_assoc, List.singleton_append] at hmore
    have hfirst := he.takes (us ++ closing :: behind) n
      (by simp only [List.length_append, List.length_cons]; omega)
    refine hfirst.bind (Takes.bind (Takes.atKind_false ?_) (Takes.bind (Takes.expect hcomma) hmore))
    rw [ParseState.current_on_cons, hcomma]
    decide

theorem AreArguments.starts {closing : Token D} {ts : List (Token D)} {es : List (ExprAST D)}
    (h : AreArguments ofInt σ closing ts es) (behind : List (Token D)) :
    (Parser.current (σ.on (ts ++ closing :: behind))).kind ≠ .rParen := by
  cases h with
  | last he => exact (he.takes behind).starts he.ne_null
  | more he =>
    rw [List.append_assoc, List.cons_append]
    exact (he.takes _).starts he.ne_null

theorem IsPrimary.ne_null {ts : List (Token D)} {e : ExprAST D} (h : IsPrimary ofInt σ ts e) :
    e ≠ .null := by
  cases h with
  | paren _ he => exact he.ne_null
  | _ => simp

/-- A primary expression is taken as a whole unless it could be called. -/
theorem IsPrimary.takes {ts rest : List (Token D)} {e : ExprAST D} (h : IsPrimary ofInt σ ts e)
    (hrest : (Parser.current (σ.on rest)).kind ≠ .lParen) :
    TakesOperand ofInt σ (ts ++ rest) e rest := by
  cases h with
  | @integer tok val hkind hlit =>
    refine ⟨tok, rest, DefaultGrammarPack.prefixIntegerExpr (exprBuilder ofInt), rfl, Nat.le_refl _,
      by rw [hkind]; rfl, fun fuel _ => ?_⟩
    unfold DefaultGrammarPack.prefixIntegerExpr
    rw [hlit]
    exact Takes.pure
  | @float tok val hkind hlit =>
    refine ⟨tok, rest, DefaultGrammarPack.prefixFloatExpr (exprBuilder ofInt), rfl, Nat.le_refl _,
      by rw [hkind]; rfl, fun fuel _ => ?_⟩
    unfold DefaultGrammarPack.prefixFloatExpr
    rw [hlit]
    exact Takes.pure
  | @identifier tok hkind =>
    refine ⟨tok, rest, parseIdentifierOrCall, rfl, Nat.le_refl _, by rw [hkind]; rfl,
      fun fuel _ => ?_⟩
    exact Takes.bind (Takes.matchKind_false hrest) Takes.pure
  | @paren opening closing ts e hopen he hclose =>
    have happend : ts ++ [closing] ++ rest = ts ++ closing :: rest := by simp
    refine ⟨opening, ts ++ [closing] ++ rest,
      DefaultGrammarPack.prefixParenExpr (exprBuilder ofInt),
      rfl, by simp; omega, by rw [hopen]; rfl, fun fuel hfuel => ?_⟩
    rw [happend] at hfuel ⊢
    exact (he.takes rest fuel hfuel).bind (Takes.bind (Takes.expect hclose) Takes.pure)
  | @callNone tok opening closing hkind hopen hclose =>
    refine ⟨tok, opening :: closing :: rest, parseIdentifierOrCall, rfl, by simp; omega,
      by rw [hkind]; rfl, fun fuel _ => ?_⟩
    have hlist : Takes σ (parseArgumentList (athensEngine ofInt fuel)) (closing :: rest) (some [])
        (closing :: rest) := Takes.bind (Takes.atKind_true hclose) Takes.pure
    exact Takes.bind (Takes.matchKind_true hopen)
      (hlist.bind (Takes.bind (Takes.expect hclose) Takes.pure))
  | @call tok opening closing ts es hkind hopen hes hclose =>
    have happend : opening :: (ts ++ [closing]) ++ rest = opening :: (ts ++ closing :: rest) := by
      simp
    refine ⟨tok, opening :: (ts ++ [closing]) ++ rest, parseIdentifierOrCall, rfl,
      by simp; omega, by rw [hkind]; rfl, fun fuel hfuel => ?_⟩
    rw [happend, List.length_cons] at hfuel
    rw [happend]
    have hlist : Takes σ (parseArgumentList (athensEngine ofInt fuel)) (ts ++ closing :: rest)
        (some es) (closing :: rest) := by
      refine Takes.bind (Takes.atKind_false (hes.starts rest)) ?_
      refine hes.takes hclose (by omega) ?_ []
      rw [athensEngine, parserEngine_fuel]
      rw [List.length_append] at hfuel
      omega
    exact Takes.bind (Takes.matchKind_true hopen)
      (hlist.bind (Takes.bind (Takes.expect hclose) Takes.pure))

/-! ## One call -/

namespace ActiveOperator

variable {table : BinopTable} (op : ActiveOperator D table)

theorem precedence_range : 1 ≤ op.precedence ∧ op.precedence ≤ 100 := by
  obtain ⟨p, hp, hlow, hhigh⟩ := op.active
  have hprec : op.precedence = p := by
    simp only [precedence, athensOperatorPrecedence, op.lexeme_eq, hp]
    exact if_neg (by omega)
  omega

end ActiveOperator

/-- No operator of the precedence comes next. -/
def Below (m : Int) : List (Link ofInt σ) → Prop
  | [] => True
  | l :: _ => l.op.precedence < m

/-- The loop of `parseExpression`, with a bound above the length of the stream. -/
def TakesLoop (ofInt : Int → D) (σ : ParseState D BinopTable) (m : Int) (lhs : ExprAST D)
    (ts : List (Token D)) (e : ExprAST D) (rest : List (Token D)) : Prop :=
  ∀ n k, ts.length < n → ts.length < k →
    Takes σ (infixLoop (athensRegistry ofInt) (athensEngine ofInt n) m k lhs) ts e rest

section
variable {m : Int} {ts us rest : List (Token D)} {lhs rhs e : ExprAST D}

theorem TakesOperand.parse (h : TakesOperand ofInt σ ts lhs us)
    (hloop : TakesLoop ofInt σ m lhs us e rest) : TakesExpression ofInt σ m ts e rest := by
  obtain ⟨tok, vs, handler, rfl, hle, hfind, htakes⟩ := h
  intro fuel hfuel
  rw [List.length_cons] at hfuel
  obtain ⟨n, rfl⟩ : ∃ n, fuel = n + 1 := ⟨fuel - 1, by omega⟩
  exact Takes.parseExpression hfind (htakes n (by omega)) (hloop n n (by omega) (by omega))

theorem TakesOperand.prefixed {tok : Token D} (hop : IsOperator tok)
    (h : TakesExpression ofInt σ 100 ts e rest) (hle : rest.length ≤ ts.length) :
    TakesOperand ofInt σ (tok :: ts) (makeUnary tok e) rest := by
  refine ⟨tok, ts, parseUnary, rfl, hle, prefixHandler_operator hop.1, ?_⟩
  intro fuel hfuel
  exact (h fuel hfuel).bind Takes.pure

theorem TakesLoop.stop (h : StopsAt (athensRegistry ofInt) m (σ.on ts)) :
    TakesLoop ofInt σ m lhs ts lhs ts := by
  intro n k _ hk
  obtain ⟨k, rfl⟩ : ∃ j, k = j + 1 := ⟨k - 1, by omega⟩
  exact Takes.infixLoop_stop h

theorem TakesLoop.step (op : ActiveOperator D σ.globals) (hm : m ≤ op.precedence)
    (hrhs : TakesExpression ofInt σ (op.precedence + 1) ts rhs us) (hle : us.length ≤ ts.length)
    (hloop : TakesLoop ofInt σ m (makeBinary op.tok lhs rhs) us e rest) :
    TakesLoop ofInt σ m lhs (op.tok :: ts) e rest := by
  intro n k hn hk
  rw [List.length_cons] at hn hk
  obtain ⟨k, rfl⟩ : ∃ j, k = j + 1 := ⟨k - 1, by omega⟩
  exact Takes.infixLoop_step (infixHandler_operator op.kind_eq) hm (hrhs n (by omega)) Takes.pure
    (hloop n k (by omega) (by omega))

end

/-! ## Expressions under prefix operators -/

/-- The unary and binary nodes above everything else. -/
def ExprAST.operatorNodes : ExprAST D → Nat
  | .unaryExpr _ operand => operand.operatorNodes + 1
  | .binaryExpr _ lhs rhs => lhs.operatorNodes + rhs.operatorNodes + 1
  | _ => 0

/-- How many of them are under a unary one, counted for each that they are under. -/
def ExprAST.underUnary : ExprAST D → Nat
  | .unaryExpr _ operand => operand.operatorNodes + operand.underUnary
  | .binaryExpr _ lhs rhs => lhs.underUnary + rhs.underUnary
  | _ => 0

def linkNodes (links : List (Link ofInt σ)) : Nat :=
  (links.map fun l => l.operand.build.operatorNodes + 1).sum

def linkUnder (links : List (Link ofInt σ)) : Nat :=
  (links.map fun l => l.operand.build.underUnary).sum

/-- Whether the operand of a prefix takes in what is behind it. -/
def absorbs (o : UnaryOperand ofInt σ) (links : List (Link ofInt σ)) : Nat :=
  match o.prefixes, links with
  | _ :: _, l :: _ => if l.op.precedence = 100 then 1 else 0
  | _, _ => 0

def absorbed : List (Link ofInt σ) → Nat
  | [] => 0
  | l :: links => absorbs l.operand links + absorbed links

theorem noneAbsorbed_iff (o : UnaryOperand ofInt σ) (links : List (Link ofInt σ)) :
    NoneAbsorbed o links ↔ absorbs o links + absorbed links = 0 := by
  induction links generalizing o with
  | nil => cases hus : o.prefixes <;> simp [NoneAbsorbed, absorbs, absorbed, hus]
  | cons l links ih =>
    rw [NoneAbsorbed, absorbed, ih l.operand]
    cases hus : o.prefixes with
    | nil => simp [absorbs, hus]
    | cons u us =>
      simp only [absorbs, hus]
      split <;> simp_all

theorem absorbs_eq_zero {o : UnaryOperand ofInt σ} {links : List (Link ofInt σ)}
    (h : o.prefixes ≠ [] → Below 100 links) : absorbs o links = 0 := by
  cases hus : o.prefixes with
  | nil => simp [absorbs, hus]
  | cons u us =>
    cases links with
    | nil => simp [absorbs, hus]
    | cons l links =>
      have hlt : l.op.precedence < 100 := h (by simp [hus])
      simp only [absorbs, hus]
      exact if_neg (by omega)

theorem absorbs_eq_one {o : UnaryOperand ofInt σ} {links : List (Link ofInt σ)} {u : Token D}
    {us : List (Token D)} (hus : o.prefixes = u :: us) (h : ¬ Below 100 links) :
    absorbs o links = 1 := by
  cases links with
  | nil => exact absurd trivial h
  | cons l links =>
    have hge : 100 ≤ l.op.precedence := Int.not_lt.mp h
    have hle := l.op.precedence_range.2
    simp only [absorbs, hus]
    exact if_pos (by omega)

theorem absorbed_le_of_suffix {rest links : List (Link ofInt σ)} (h : rest <:+ links) :
    absorbed rest ≤ absorbed links := by
  induction links with
  | nil => rw [List.suffix_nil.mp h]
  | cons l links ih =>
    rcases List.suffix_cons_iff.mp h with rfl | h
    · exact Nat.le_refl _
    · rw [absorbed]
      have hle := ih h
      omega

/-- How a call turns an operand, and `links` behind it, into `e` with `rest` behind it. The
number `k` says whether the operand of a prefix has taken in the first link. -/
structure Grows (k : Nat) (lhs : ExprAST D) (links : List (Link ofInt σ)) (e : ExprAST D)
    (rest : List (Link ofInt σ)) : Prop where
  suffix : rest <:+ links
  ne_null : lhs ≠ .null → e ≠ .null
  nodes : e.operatorNodes + linkNodes rest = lhs.operatorNodes + linkNodes links
  under : lhs.underUnary + k + linkUnder links + absorbed links ≤
    e.underUnary + linkUnder rest + absorbed rest
  grouping : k = 0 → absorbed links = 0 → ∀ t : Grouping ofInt σ, t.build = lhs →
    ∃ t' : Grouping ofInt σ, t'.build = e ∧ t'.first = t.first ∧
      t'.links ++ rest = t.links ++ links

section
variable {lhs rhs e e' : ExprAST D} {links rest rest' : List (Link ofInt σ)} {k k' : Nat}

theorem Grows.refl (lhs : ExprAST D) (links : List (Link ofInt σ)) :
    Grows 0 lhs links lhs links where
  suffix := List.suffix_refl _
  ne_null := id
  nodes := rfl
  under := by omega
  grouping := fun _ _ t ht => ⟨t, ht, rfl, rfl⟩

theorem Grows.trans (h : Grows k lhs links e rest) (h' : Grows k' e rest e' rest') :
    Grows (k + k') lhs links e' rest' where
  suffix := h'.suffix.trans h.suffix
  ne_null := h'.ne_null ∘ h.ne_null
  nodes := h'.nodes.trans h.nodes
  under := by
    have hunder := h.under
    have hunder' := h'.under
    omega
  grouping := by
    intro hk habsorbed t ht
    have hle := absorbed_le_of_suffix h.suffix
    obtain ⟨t₁, hbuild₁, hfirst₁, hlinks₁⟩ := h.grouping (by omega) habsorbed t ht
    obtain ⟨t₂, hbuild₂, hfirst₂, hlinks₂⟩ := h'.grouping (by omega) (by omega) t₁ hbuild₁
    exact ⟨t₂, hbuild₂, hfirst₂.trans hfirst₁, hlinks₂.trans hlinks₁⟩

theorem ActiveOperator.makeBinary_eq (op : ActiveOperator D σ.globals) (hl : lhs ≠ .null)
    (hr : rhs ≠ .null) : makeBinary op.tok lhs rhs = .binaryExpr op.char lhs rhs :=
  Athens.makeBinary_eq op.lexeme_eq hl hr

theorem IsOperator.makeUnary_eq {tok : Token D} (hop : IsOperator tok) (he : e ≠ .null) :
    ∃ c, makeUnary tok e = .unaryExpr c e := by
  obtain ⟨c, hlex⟩ := List.length_eq_one_iff.mp hop.2
  exact ⟨c, Athens.makeUnary_eq hlex he⟩

theorem UnaryOperand.build_ne_null (o : UnaryOperand ofInt σ) : o.build ≠ .null := by
  have hfold : ∀ us : List (Token D), (∀ tok ∈ us, IsOperator tok) →
      us.foldr makeUnary o.expr ≠ .null := by
    intro us hus
    induction us with
    | nil => exact o.primary.ne_null
    | cons u us ih =>
      obtain ⟨hu, hus⟩ := List.forall_mem_cons.mp hus
      obtain ⟨c, hmake⟩ := hu.makeUnary_eq (ih hus)
      rw [List.foldr_cons, hmake]
      simp
  exact hfold o.prefixes o.operators

/-- A turn of the loop. -/
theorem Grows.binary {l : Link ofInt σ} (hlhs : lhs ≠ .null)
    (h : Grows (absorbs l.operand links) l.operand.build links rhs rest) :
    Grows 0 lhs (l :: links) (makeBinary l.op.tok lhs rhs) rest := by
  have hmake := l.op.makeBinary_eq hlhs (h.ne_null l.operand.build_ne_null)
  have hnodes := h.nodes
  have hunder := h.under
  constructor
  · exact h.suffix.trans (List.suffix_cons l links)
  · intro _
    rw [hmake]
    simp
  · rw [hmake, ExprAST.operatorNodes]
    simp only [linkNodes, List.map_cons, List.sum_cons] at hnodes ⊢
    omega
  · rw [hmake, ExprAST.underUnary, absorbed]
    simp only [linkUnder, List.map_cons, List.sum_cons] at hunder ⊢
    omega
  · intro _ habsorbed t ht
    rw [absorbed] at habsorbed
    obtain ⟨r, hbuild, hfirst, hlinks⟩ := h.grouping (by omega) (by omega) (.operand l.operand) rfl
    refine ⟨.binary l.op t r, ?_, rfl, ?_⟩
    · rw [Grouping.build, ht, hbuild]
    · rw [Grouping.links, hfirst, List.append_assoc, List.cons_append, hlinks]
      rfl

theorem linkNodes_lt_of_suffix (h : rest <:+ links) (hne : rest ≠ links) :
    linkNodes rest < linkNodes links := by
  induction links with
  | nil => exact absurd (List.suffix_nil.mp h) hne
  | cons l links ih =>
    simp only [linkNodes, List.map_cons, List.sum_cons] at ih ⊢
    rcases List.suffix_cons_iff.mp h with rfl | h
    · exact absurd rfl hne
    · by_cases heq : rest = links
      · rw [heq]
        omega
      · have hlt := ih h heq
        omega

/-- A prefix operator whose operand has taken in a link. -/
theorem Grows.unary {tok : Token D} (hop : IsOperator tok) (hlhs : lhs ≠ .null)
    (h : Grows k lhs links e rest) (hne : rest ≠ links) :
    Grows 1 (makeUnary tok lhs) links (makeUnary tok e) rest := by
  obtain ⟨c, hmake⟩ := hop.makeUnary_eq hlhs
  obtain ⟨c', hmake'⟩ := hop.makeUnary_eq (h.ne_null hlhs)
  have hnodes := h.nodes
  have hunder := h.under
  have hlt := linkNodes_lt_of_suffix h.suffix hne
  constructor
  · exact h.suffix
  · intro _
    rw [hmake']
    simp
  · rw [hmake, hmake', ExprAST.operatorNodes, ExprAST.operatorNodes]
    omega
  · rw [hmake, hmake', ExprAST.underUnary, ExprAST.underUnary]
    omega
  · intro hk
    cases hk

end

/-! ## The parser on a chain -/

/-- The tokens of a chain behind its first operand, and what follows them. -/
def ahead (links : List (Link ofInt σ)) (more : List (Token D)) : List (Token D) :=
  spelledLinks links ++ more

theorem ahead_cons (l : Link ofInt σ) (links : List (Link ofInt σ)) (more : List (Token D)) :
    ahead (l :: links) more = l.op.tok :: (l.operand.spelled ++ ahead links more) := by
  simp [ahead, spelledLinks]

theorem ahead_length_le {rest links : List (Link ofInt σ)} (h : rest <:+ links)
    (more : List (Token D)) : (ahead rest more).length ≤ (ahead links more).length := by
  obtain ⟨used, rfl⟩ := h
  simp [ahead, spelledLinks]

/-- What a call of `parseExpression` makes of an operand and the links behind it. -/
def CallsOn (more : List (Token D)) (m : Int) (o : UnaryOperand ofInt σ)
    (links : List (Link ofInt σ)) : Prop :=
  ∃ e rest, Grows (absorbs o links) o.build links e rest ∧ Below m rest ∧
    TakesExpression ofInt σ m (o.spelled ++ ahead links more) e (ahead rest more)

section
variable {more : List (Token D)} (hmore : EndsExpression σ.globals (Parser.current (σ.on more)))
include hmore

theorem ahead_not_call (links : List (Link ofInt σ)) :
    (Parser.current (σ.on (ahead links more))).kind ≠ .lParen := by
  cases links with
  | nil => exact hmore.1
  | cons l links =>
    rw [ahead_cons, ParseState.current_on_cons]
    intro hkind
    have hop := l.op.kind_eq
    rw [hkind] at hop
    cases hop

theorem Below.stops {m : Int} (hm : 0 ≤ m) {links : List (Link ofInt σ)} (h : Below m links) :
    StopsAt (athensRegistry ofInt) m (σ.on (ahead links more)) := by
  intro entry hfind
  obtain ⟨hop, rfl⟩ := athensRegistry_infix hfind
  cases links with
  | nil => exact Int.lt_of_lt_of_le (hmore.2 hop) hm
  | cons l links =>
    rw [ahead_cons]
    exact h

/-- An operand in front of nothing that its prefixes take in. -/
theorem UnaryOperand.takes (o : UnaryOperand ofInt σ) {links : List (Link ofInt σ)}
    (h : o.prefixes ≠ [] → Below 100 links) :
    TakesOperand ofInt σ (o.spelled ++ ahead links more) o.build (ahead links more) := by
  have hfold : ∀ us : List (Token D), (∀ tok ∈ us, IsOperator tok) →
      (us ≠ [] → Below 100 links) → TakesOperand ofInt σ (us ++ o.tokens ++ ahead links more)
        (us.foldr makeUnary o.expr) (ahead links more) := by
    intro us hus hbelow
    induction us with
    | nil => exact o.primary.takes (ahead_not_call hmore links)
    | cons u us ih =>
      obtain ⟨hu, hus⟩ := List.forall_mem_cons.mp hus
      have hbelow := hbelow (by simp)
      have hstop := hbelow.stops hmore (by decide)
      have hinner := (ih hus fun _ => hbelow).parse (TakesLoop.stop hstop)
      refine TakesOperand.prefixed hu hinner ?_
      show _ ≤ (us ++ o.tokens ++ ahead links more).length
      rw [List.length_append]
      exact Nat.le_add_left _ _
  exact hfold o.prefixes o.operators h

/-- The loop with fewer links behind its operators than `n`, given calls on fewer than `n`.
Induction on the links. -/
theorem takes_links {n : Nat} (hcall : ∀ (o : UnaryOperand ofInt σ)
      (links : List (Link ofInt σ)) (m : Int), links.length < n → 0 ≤ m → CallsOn more m o links)
    {m : Int} (hm : 0 ≤ m) {links : List (Link ofInt σ)} (hn : links.length ≤ n)
    {lhs : ExprAST D} (hlhs : lhs ≠ .null) :
    ∃ e rest, Grows 0 lhs links e rest ∧ Below m rest ∧
      TakesLoop ofInt σ m lhs (ahead links more) e (ahead rest more) := by
  induction hlen : links.length using Nat.strong_induction_on generalizing links lhs with
  | _ len ih =>
    by_cases hbelow : Below m links
    · exact ⟨lhs, links, .refl lhs links, hbelow, TakesLoop.stop (hbelow.stops hmore hm)⟩
    · cases links with
      | nil => exact absurd trivial hbelow
      | cons l links =>
        have hprec : m ≤ l.op.precedence := Int.not_lt.mp hbelow
        rw [List.length_cons] at hn hlen
        obtain ⟨rhs, rest, hgrows, -, htakes⟩ := hcall l.operand links (l.op.precedence + 1)
          (by omega) (by omega)
        have hbinary := Grows.binary hlhs hgrows
        have hshort := hgrows.suffix.length_le
        have hlt : rest.length < len := by omega
        obtain ⟨e, rest', hgrows', hbelow', hloop⟩ := ih rest.length hlt (by omega)
          (hbinary.ne_null hlhs) rfl
        refine ⟨e, rest', hbinary.trans hgrows', hbelow', ?_⟩
        rw [ahead_cons]
        refine TakesLoop.step l.op hprec htakes ?_ hloop
        have hle := ahead_length_le hgrows.suffix more
        rw [List.length_append]
        omega

section
variable {n : Nat} (hcall : ∀ (o : UnaryOperand ofInt σ) (links : List (Link ofInt σ))
    (m : Int), links.length < n → 0 ≤ m → CallsOn more m o links)
  {links : List (Link ofInt σ)} (hn : links.length ≤ n)
include hcall hn

/-- The loop behind an operand. -/
theorem callsOn_of_taken {o : UnaryOperand ofInt σ} {m : Int} (hm : 0 ≤ m) {lhs : ExprAST D}
    {rest : List (Link ofInt σ)} (hgrows : Grows (absorbs o links) o.build links lhs rest)
    (htakes : TakesOperand ofInt σ (o.spelled ++ ahead links more) lhs (ahead rest more)) :
    CallsOn more m o links := by
  obtain ⟨e, rest', hgrows', hbelow, hloop⟩ := takes_links hmore hcall hm
    (hgrows.suffix.length_le.trans hn) (hgrows.ne_null o.build_ne_null)
  exact ⟨e, rest', hgrows.trans hgrows', hbelow, htakes.parse hloop⟩

theorem callsOn_whole {o : UnaryOperand ofInt σ} {m : Int} (hm : 0 ≤ m)
    (h : o.prefixes ≠ [] → Below 100 links) : CallsOn more m o links := by
  refine callsOn_of_taken hmore hcall hn hm ?_ (o.takes hmore h)
  rw [absorbs_eq_zero h]
  exact .refl o.build links

/-- Induction on the prefixes. Only the first sees more than the operand of the next. -/
theorem callsOn_of_shorter (o : UnaryOperand ofInt σ) {m : Int} (hm : 0 ≤ m) :
    CallsOn more m o links := by
  induction hus : o.prefixes generalizing o m with
  | nil => exact callsOn_whole hmore hcall hn hm fun hne => absurd hus hne
  | cons u us ih =>
    by_cases hbelow : Below 100 links
    · exact callsOn_whole hmore hcall hn hm fun _ => hbelow
    · have hops : ∀ tok ∈ u :: us, IsOperator tok := hus ▸ o.operators
      obtain ⟨hu, hus'⟩ := List.forall_mem_cons.mp hops
      let inner : UnaryOperand ofInt σ := ⟨us, hus', o.tokens, o.expr, o.primary⟩
      obtain ⟨e, rest, hgrows, hrest, htakes⟩ := ih inner (m := 100) (by decide) rfl
      have hne : rest ≠ links := by
        rintro rfl
        exact hbelow hrest
      have hbuild : o.build = makeUnary u inner.build := by
        unfold UnaryOperand.build
        rw [hus]
        rfl
      have hspelled : o.spelled = u :: inner.spelled := by
        unfold UnaryOperand.spelled
        rw [hus]
        rfl
      have hunary : Grows (absorbs o links) o.build links (makeUnary u e) rest := by
        rw [absorbs_eq_one hus hbelow, hbuild]
        exact hgrows.unary hu inner.build_ne_null hne
      refine callsOn_of_taken hmore hcall hn hm hunary ?_
      rw [hspelled, List.cons_append]
      refine TakesOperand.prefixed hu htakes ?_
      have hle := ahead_length_le hgrows.suffix more
      rw [List.length_append]
      omega

end

/-- Induction on the number of links. -/
theorem callsOn (o : UnaryOperand ofInt σ) (links : List (Link ofInt σ)) {m : Int} (hm : 0 ≤ m) :
    CallsOn more m o links := by
  have hcall : ∀ n, ∀ (o : UnaryOperand ofInt σ) (links : List (Link ofInt σ)) (m : Int),
      links.length < n → 0 ≤ m → CallsOn more m o links := by
    intro n
    induction n with
    | zero => exact fun _ _ _ hlen _ => absurd hlen (Nat.not_lt_zero _)
    | succ n ih =>
      exact fun o links m hlen hm => callsOn_of_shorter hmore ih (Nat.le_of_lt_succ hlen) o hm
  exact hcall (links.length + 1) o links m (Nat.lt_succ_self _) hm

end

theorem Grouping.underUnary_build (t : Grouping ofInt σ) :
    t.build ≠ .null ∧ t.build.underUnary = t.first.build.underUnary + linkUnder t.links := by
  induction t with
  | operand o => exact ⟨o.build_ne_null, rfl⟩
  | binary op lhs rhs hl hr =>
    rw [build, op.makeBinary_eq hl.1 hr.1, ExprAST.underUnary, hl.2, hr.2, first, links]
    refine ⟨by simp, ?_⟩
    simp only [linkUnder, List.map_append, List.map_cons, List.sum_append, List.sum_cons]
    omega

theorem Below.eq_nil {links : List (Link ofInt σ)} (h : Below 0 links) : links = [] := by
  cases links with
  | nil => rfl
  | cons l links =>
    have hlt : l.op.precedence < 0 := h
    have hpos := l.op.precedence_range.1
    omega

/-- `parseExpression` on a chain of operands. Every prefix operator is applied to the
primary expression behind it alone if and only if no operator of precedence 100 comes
directly behind an operand with a prefix. -/
theorem bindsTightest_iff (first : UnaryOperand ofInt σ) (links : List (Link ofInt σ))
    {more : List (Token D)} (hmore : EndsExpression σ.globals (Parser.current (σ.on more))) :
    ∃ e, TakesExpression ofInt σ 0 (first.spelled ++ (spelledLinks links ++ more)) e more ∧
      (BindsTightest first links e ↔ NoneAbsorbed first links) := by
  obtain ⟨e, rest, hgrows, hbelow, htakes⟩ := callsOn hmore first links (m := 0) (Int.le_refl 0)
  obtain rfl := hbelow.eq_nil
  refine ⟨e, htakes, ?_⟩
  rw [noneAbsorbed_iff]
  constructor
  · rintro ⟨t, rfl, rfl, rfl⟩
    have hunder := hgrows.under
    rw [t.underUnary_build.2] at hunder
    simp only [linkUnder, absorbed, List.map_nil, List.sum_nil] at hunder
    omega
  · intro hnone
    obtain ⟨t, hbuild, hfirst, hlinks⟩ := hgrows.grouping (by omega) (by omega) (.operand first) rfl
    refine ⟨t, hfirst, ?_, hbuild⟩
    rw [List.append_nil] at hlinks
    exact hlinks

end

/-! ## A precedence of 100 -/

/-- `def binary@ 100 (x y) x`. -/
def atDefinition : List (Token Int) :=
  [word .kwFuncDef "def", word .kwBinaryOp "binary", word .operator "@",
    { kind := .integer, lexeme := text "100", literal := .int 100 }, word .lParen "(",
    identToken (text "x"), identToken (text "y"), word .rParen ")", identToken (text "x")]

/-- The table of a session that has read the definition. -/
def atState : ParseState Int BinopTable where
  tokens := []
  globals := standardBinaryOperators.set (byte '@') (some 100)

/-- `-a`. -/
def minusA : UnaryOperand id atState where
  prefixes := [word .minus "-"]
  operators := by
    intro tok htok
    obtain rfl := List.mem_singleton.mp htok
    exact ⟨rfl, rfl⟩
  tokens := [identToken (text "a")]
  expr := .variableExpr (text "a")
  primary := .identifier rfl

def operandB : UnaryOperand id atState :=
  ⟨[], by simp, [identToken (text "b")], .variableExpr (text "b"), .identifier rfl⟩

/-- `@ b`. -/
def atB : Link id atState where
  op := ⟨word .operator "@", byte '@', rfl, rfl, 100, rfl, by decide, by decide⟩
  operand := operandB

/-- `* b`. -/
def timesB : Link id atState where
  op := ⟨word .star "*", byte '*', rfl, rfl, 40, rfl, by decide, by decide⟩
  operand := operandB

/-- `-a * b` and `b @ -a` are read as they should. -/
theorem bindsTightest_minusA :
    (∃ e, TakesExpression id atState 0 (minusA.spelled ++ (spelledLinks [timesB] ++ [])) e [] ∧
      BindsTightest minusA [timesB] e) ∧
    ∃ e, TakesExpression id atState 0
      (operandB.spelled ++ (spelledLinks [⟨atB.op, minusA⟩] ++ [])) e [] ∧
      BindsTightest operandB [⟨atB.op, minusA⟩] e := by
  have hmore : EndsExpression atState.globals (Parser.current (atState.on [])) :=
    ⟨by decide, by decide⟩
  obtain ⟨e, htakes, hiff⟩ := bindsTightest_iff minusA [timesB] hmore
  obtain ⟨e', htakes', hiff'⟩ := bindsTightest_iff operandB [⟨atB.op, minusA⟩] hmore
  refine ⟨⟨e, htakes, hiff.mpr ⟨fun _ => by decide, trivial⟩⟩, e', htakes', hiff'.mpr ⟨?_, trivial⟩⟩
  intro hprefixed
  exact absurd rfl hprefixed

/-- `-(a @ b)`. -/
def minusOfAt : ExprAST Int :=
  .unaryExpr (byte '-')
    (.binaryExpr (byte '@') (.variableExpr (text "a")) (.variableExpr (text "b")))

/-- `-a @ b` is read as `-(a @ b)` once `@` has precedence 100. -/
theorem minus_takes_in_at :
    (∃ item σ, athensParseItem id 10
        { tokens := atDefinition, globals := standardBinaryOperators } = some (item, σ) ∧
      item.function.isSome ∧ σ.tokens = [] ∧ σ.diag = [] ∧
        σ.globals = atState.globals) ∧
    (athensEngine id 10).parseExpression 0 (atState.on (minusA.spelled ++ spelledLinks [atB])) =
      some (minusOfAt, atState.on []) ∧
    ¬ BindsTightest minusA [atB] minusOfAt := by
  refine ⟨⟨_, _, rfl, rfl, rfl, rfl, rfl⟩, rfl, ?_⟩
  rintro ⟨t, hfirst, hlinks, hbuild⟩
  have hunder := t.underUnary_build.2
  rw [hfirst, hlinks, hbuild] at hunder
  exact absurd hunder (by decide)

end AroundTheWorld.Athens
