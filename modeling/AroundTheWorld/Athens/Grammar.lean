import AroundTheWorld.Athens.Spells
import AroundTheWorld.Base.Grammar

/-!
# The documented grammar

The productions of `expression` as the README has them. An operand there is a
`unary-expr`, so that a `var`, `if` or `for` stands in parentheses when it is one. The
parser has its prefix handlers in every operand position: its grammar has the three
among the alternatives of `unary-expr`.

With them the grammar is ambiguous. `Chain` is the reading of the parser, in which
what follows an operator, `else` or `in` extends as far as it can.
-/

namespace AroundTheWorld.Athens

open AroundTheWorld.Base AroundTheWorld.Lex AroundTheWorld.Parse
open AthensGrammarPack (isAthensOperatorToken)

variable {D : Type}

/-! ## The README -/

inductive Terminal where
  | identifier | number | operatorChar
  | lParen | rParen | comma | equal
  | kwVar | kwIn | kwIf | kwThen | kwElse | kwFor
  deriving DecidableEq, Repr

inductive Nonterminal where
  | expression
  | varExpr | varBindingList | varBindingListTail | varBinding | optionalInit
  | ifExpr | forExpr | optionalForStep
  | binaryExpr | binaryExprTail | unaryExpr | unaryPrefix | primaryExpr
  | parenExpr | idOrFuncCallExpr | idOrFuncCallSuffix | argumentList | argumentListTail
  deriving DecidableEq, Repr

/-- An operator of one character. -/
def IsOperator (tok : Token D) : Prop :=
  isAthensOperatorToken tok.kind = true ∧ tok.lexeme.length = 1

/-- A number with the value that the lexer gives it. -/
inductive IsNumber : Token D → Prop where
  | integer {tok : Token D} {val : Int} : tok.kind = .integer → tok.literal = .int val →
      IsNumber tok
  | float {tok : Token D} {val : D} : tok.kind = .float → tok.literal = .double val → IsNumber tok

/-- The tokens of a terminal. -/
def IsTerminal : Terminal → Token D → Prop
  | .identifier, tok => tok.kind = .identifier
  | .number, tok => IsNumber tok
  | .operatorChar, tok => IsOperator tok
  | .lParen, tok => tok.kind = .lParen
  | .rParen, tok => tok.kind = .rParen
  | .comma, tok => tok.kind = .comma
  | .equal, tok => tok.kind = .equal
  | .kwVar, tok => tok.kind = .kwVar
  | .kwIn, tok => tok.kind = .kwIn
  | .kwIf, tok => tok.kind = .kwIf
  | .kwThen, tok => tok.kind = .kwThen
  | .kwElse, tok => tok.kind = .kwElse
  | .kwFor, tok => tok.kind = .kwFor

namespace Readme

open Symbol Terminal Nonterminal

def productions : Nonterminal → List (List (Symbol Terminal Nonterminal))
  | expression => [[nonterminal varExpr], [nonterminal ifExpr], [nonterminal forExpr],
      [nonterminal binaryExpr]]
  | varExpr => [[terminal kwVar, nonterminal varBindingList, terminal kwIn, nonterminal expression]]
  | varBindingList => [[nonterminal varBinding, nonterminal varBindingListTail]]
  | varBindingListTail =>
      [[terminal comma, nonterminal varBinding, nonterminal varBindingListTail], []]
  | varBinding => [[terminal identifier, nonterminal optionalInit]]
  | optionalInit => [[terminal equal, nonterminal expression], []]
  | ifExpr => [[terminal kwIf, nonterminal expression, terminal kwThen, nonterminal expression,
      terminal kwElse, nonterminal expression]]
  | forExpr => [[terminal kwFor, terminal identifier, terminal equal, nonterminal expression,
      terminal comma, nonterminal expression, nonterminal optionalForStep, terminal kwIn,
      nonterminal expression]]
  | optionalForStep => [[terminal comma, nonterminal expression], []]
  | binaryExpr => [[nonterminal unaryExpr, nonterminal binaryExprTail]]
  | binaryExprTail =>
      [[terminal operatorChar, nonterminal unaryExpr, nonterminal binaryExprTail], []]
  | unaryExpr => [[nonterminal unaryPrefix], [nonterminal primaryExpr]]
  | unaryPrefix => [[terminal operatorChar, nonterminal unaryExpr]]
  | primaryExpr => [[terminal number], [nonterminal parenExpr], [nonterminal idOrFuncCallExpr]]
  | parenExpr => [[terminal lParen, nonterminal expression, terminal rParen]]
  | idOrFuncCallExpr => [[terminal identifier, nonterminal idOrFuncCallSuffix]]
  | idOrFuncCallSuffix => [[terminal lParen, nonterminal argumentList, terminal rParen], []]
  | argumentList => [[nonterminal expression, nonterminal argumentListTail], []]
  | argumentListTail =>
      [[terminal comma, nonterminal expression, nonterminal argumentListTail], []]

/-- With `var`, `if` and `for` among the operands. -/
def withOpenOperands : Nonterminal → List (List (Symbol Terminal Nonterminal))
  | unaryExpr => productions unaryExpr ++
      [[nonterminal varExpr], [nonterminal ifExpr], [nonterminal forExpr]]
  | n => productions n

end Readme

/-- The tokens are an `expression` of the README. -/
def ReadmeExpression (ts : List (Token D)) : Prop :=
  Generates Readme.productions IsTerminal .expression ts

/-- The tokens are an `expression` in which an operand may be open to the right. -/
def OpenExpression (ts : List (Token D)) : Prop :=
  Generates Readme.withOpenOperands IsTerminal .expression ts

theorem ReadmeExpression.open_ {ts : List (Token D)} (h : ReadmeExpression ts) :
    OpenExpression ts := by
  refine Derives.mono (fun n => ?_) h
  cases n <;> simp [Readme.withOpenOperands]

/-! ## Chains -/

mutual

/-- What needs nothing behind it. -/
inductive Atom : List (Token D) → Prop where
  | number {tok : Token D} : IsNumber tok → Atom [tok]
  | identifier {tok : Token D} : tok.kind = .identifier → Atom [tok]
  | paren {opening closing : Token D} {ts : List (Token D)} : opening.kind = .lParen → Chain ts →
      closing.kind = .rParen → Atom (opening :: (ts ++ [closing]))
  | callNone {tok opening closing : Token D} : tok.kind = .identifier → opening.kind = .lParen →
      closing.kind = .rParen → Atom [tok, opening, closing]
  | call {tok opening closing : Token D} {ts : List (Token D)} : tok.kind = .identifier →
      opening.kind = .lParen → ChainArgs ts → closing.kind = .rParen →
      Atom (tok :: opening :: (ts ++ [closing]))

/-- What goes on with an expression. -/
inductive Opener : List (Token D) → Prop where
  | prefix_ {tok : Token D} : IsOperator tok → Opener [tok]
  | if_ {kwIf kwThen kwElse : Token D} {c t : List (Token D)} : kwIf.kind = .kwIf → Chain c →
      kwThen.kind = .kwThen → Chain t → kwElse.kind = .kwElse →
      Opener (kwIf :: (c ++ kwThen :: (t ++ [kwElse])))
  | for_ {kwFor name equal comma kwIn : Token D} {s e st : List (Token D)} : kwFor.kind = .kwFor →
      name.kind = .identifier → equal.kind = .equal → Chain s → comma.kind = .comma → Chain e →
      ChainOptional .comma st → kwIn.kind = .kwIn →
      Opener (kwFor :: name :: equal :: (s ++ comma :: (e ++ (st ++ [kwIn]))))
  | var_ {kwVar kwIn : Token D} {bs : List (Token D)} : kwVar.kind = .kwVar → ChainBindings bs →
      kwIn.kind = .kwIn → Opener (kwVar :: (bs ++ [kwIn]))

inductive Chain : List (Token D) → Prop where
  | atom {ts : List (Token D)} : Atom ts → Chain ts
  | infix_ {ts us : List (Token D)} {tok : Token D} : Atom ts → IsOperator tok → Chain us →
      Chain (ts ++ tok :: us)
  | opener {ts us : List (Token D)} : Opener ts → Chain us → Chain (ts ++ us)

inductive ChainArgs : List (Token D) → Prop where
  | lastArg {ts : List (Token D)} : Chain ts → ChainArgs ts
  | moreArgs {ts us : List (Token D)} {comma : Token D} : Chain ts → comma.kind = .comma →
      ChainArgs us → ChainArgs (ts ++ comma :: us)

inductive ChainOptional : TokenKind → List (Token D) → Prop where
  | absent {kind : TokenKind} : ChainOptional kind []
  | present {tok : Token D} {ts : List (Token D)} : Chain ts → ChainOptional tok.kind (tok :: ts)

inductive ChainBindings : List (Token D) → Prop where
  | lastBinding {name : Token D} {ts : List (Token D)} : name.kind = .identifier →
      ChainOptional .equal ts →
      ChainBindings (name :: ts)
  | moreBindings {name comma : Token D} {ts us : List (Token D)} : name.kind = .identifier →
      ChainOptional .equal ts → comma.kind = .comma → ChainBindings us →
      ChainBindings (name :: (ts ++ comma :: us))

end

/-- An operator between two chains. The induction follows the first to its end. -/
theorem Chain.binary {l r : List (Token D)} {tok : Token D} (hl : Chain l) (hop : IsOperator tok)
    (hr : Chain r) : Chain (l ++ tok :: r) := by
  induction hl using Chain.rec
    (motive_1 := fun _ _ => True) (motive_2 := fun _ _ => True) (motive_4 := fun _ _ => True)
    (motive_5 := fun _ _ _ => True) (motive_6 := fun _ _ => True) with
  | atom hatom => exact .infix_ hatom hop hr
  | infix_ hatom hop' _ _ ih =>
    rw [List.append_assoc, List.cons_append]
    exact .infix_ hatom hop' ih
  | opener hopener _ _ ih =>
    rw [List.append_assoc]
    exact .opener hopener ih
  | _ => trivial

/-! ## Derivations and chains -/

/-- What the nonterminals mean in terms of chains. -/
def ChainMeaning : Nonterminal → List (Token D) → Prop
  | .varBindingList, ts => ChainBindings ts
  | .varBindingListTail, ts => ts = [] ∨ ∃ comma us, ts = comma :: us ∧ comma.kind = .comma ∧
      ChainBindings us
  | .varBinding, ts => ∃ name us, ts = name :: us ∧ name.kind = .identifier ∧
      ChainOptional .equal us
  | .optionalInit, ts => ChainOptional .equal ts
  | .optionalForStep, ts => ChainOptional .comma ts
  | .binaryExprTail, ts => ts = [] ∨ ∃ tok us, ts = tok :: us ∧ IsOperator tok ∧ Chain us
  | .primaryExpr, ts => Atom ts
  | .parenExpr, ts => Atom ts
  | .idOrFuncCallExpr, ts => Atom ts
  | .idOrFuncCallSuffix, ts => ts = [] ∨ ∃ opening us closing, ts = opening :: (us ++ [closing]) ∧
      opening.kind = .lParen ∧ closing.kind = .rParen ∧ (us = [] ∨ ChainArgs us)
  | .argumentList, ts => ts = [] ∨ ChainArgs ts
  | .argumentListTail, ts => ts = [] ∨ ∃ comma us, ts = comma :: us ∧ comma.kind = .comma ∧
      ChainArgs us
  | _, ts => Chain ts

/-- Chains are closed under the productions. -/
theorem chainMeaning_closed (n : Nonterminal) (rhs : List (Symbol Terminal Nonterminal))
    (ts : List (Token D)) (hrhs : rhs ∈ Readme.withOpenOperands n)
    (h : Matches IsTerminal ChainMeaning rhs ts) : ChainMeaning n ts := by
  cases n <;> simp only [Readme.withOpenOperands, Readme.productions, List.mem_cons,
    List.mem_append, List.not_mem_nil, or_false] at hrhs
  case expression =>
    rcases hrhs with rfl | rfl | rfl | rfl <;> exact matches_nonterminal.mp h
  case varExpr =>
    subst hrhs
    obtain ⟨kwVar, _, rfl, hvar, bs, _, rfl, hbs, kwIn, _, rfl, hin, hbody⟩ := h
    show Chain _
    have hopener := Chain.opener (.var_ hvar hbs hin) (matches_nonterminal.mp hbody)
    simpa using hopener
  case varBindingList =>
    subst hrhs
    obtain ⟨_, us, rfl, ⟨name, st, rfl, hname, hst⟩, htail⟩ := h
    rcases matches_nonterminal.mp htail with rfl | ⟨comma, bs, rfl, hcomma, hbs⟩
    · rw [List.append_nil]
      exact .lastBinding hname hst
    · exact .moreBindings hname hst hcomma hbs
  case varBindingListTail =>
    rcases hrhs with rfl | rfl
    · obtain ⟨comma, _, rfl, hcomma, _, us, rfl, ⟨name, st, rfl, hname, hst⟩, htail⟩ := h
      refine .inr ⟨comma, _, rfl, hcomma, ?_⟩
      rcases matches_nonterminal.mp htail with rfl | ⟨comma, bs, rfl, hcomma, hbs⟩
      · rw [List.append_nil]
        exact .lastBinding hname hst
      · exact .moreBindings hname hst hcomma hbs
    · exact .inl h
  case varBinding =>
    subst hrhs
    obtain ⟨name, st, rfl, hname, hst⟩ := h
    have hinit : ChainMeaning .optionalInit st := matches_nonterminal.mp hst
    exact ⟨name, st, rfl, hname, hinit⟩
  case optionalInit =>
    rcases hrhs with rfl | rfl
    · obtain ⟨equal, ts, rfl, hequal, hts⟩ := h
      have hpresent : ChainOptional equal.kind (equal :: ts) :=
        .present (matches_nonterminal.mp hts)
      rwa [show equal.kind = .equal from hequal] at hpresent
    · obtain rfl : ts = [] := h
      exact .absent
  case ifExpr =>
    subst hrhs
    obtain ⟨kwIf, _, rfl, hif, c, _, rfl, hc, kwThen, _, rfl, hthen, t, _, rfl, ht, kwElse, _, rfl,
      helse, hrest⟩ := h
    show Chain _
    have hopener := Chain.opener (.if_ hif hc hthen ht helse) (matches_nonterminal.mp hrest)
    simpa using hopener
  case forExpr =>
    subst hrhs
    obtain ⟨kwFor, _, rfl, hfor, name, _, rfl, hname, equal, _, rfl, hequal, s, _, rfl, hs,
      comma, _, rfl, hcomma, e, _, rfl, he, st, _, rfl, hst, kwIn, _, rfl, hin, hbody⟩ := h
    show Chain _
    have hopener := Chain.opener (.for_ hfor hname hequal hs hcomma he hst hin)
      (matches_nonterminal.mp hbody)
    simpa using hopener
  case optionalForStep =>
    rcases hrhs with rfl | rfl
    · obtain ⟨comma, ts, rfl, hcomma, hts⟩ := h
      have hpresent : ChainOptional comma.kind (comma :: ts) :=
        .present (matches_nonterminal.mp hts)
      rwa [show comma.kind = .comma from hcomma] at hpresent
    · obtain rfl : ts = [] := h
      exact .absent
  case binaryExpr =>
    subst hrhs
    obtain ⟨us, vs, rfl, hunary, htail⟩ := h
    rcases matches_nonterminal.mp htail with rfl | ⟨tok, us', rfl, hop, hus⟩
    · rw [List.append_nil]
      exact hunary
    · exact Chain.binary hunary hop hus
  case binaryExprTail =>
    rcases hrhs with rfl | rfl
    · obtain ⟨tok, _, rfl, hop, us, vs, rfl, hunary, htail⟩ := h
      refine .inr ⟨tok, _, rfl, hop, ?_⟩
      rcases matches_nonterminal.mp htail with rfl | ⟨tok', us', rfl, hop', hus⟩
      · rw [List.append_nil]
        exact hunary
      · exact Chain.binary hunary hop' hus
    · exact .inl h
  case unaryExpr =>
    rcases hrhs with (rfl | rfl) | rfl | rfl | rfl
    · exact matches_nonterminal.mp h
    · exact .atom (matches_nonterminal.mp h)
    all_goals exact matches_nonterminal.mp h
  case unaryPrefix =>
    subst hrhs
    obtain ⟨tok, us, rfl, hop, hus⟩ := h
    exact .opener (.prefix_ hop) (matches_nonterminal.mp hus)
  case primaryExpr =>
    rcases hrhs with rfl | rfl | rfl
    · obtain ⟨tok, us, rfl, hnumber, rfl⟩ := h
      exact .number hnumber
    all_goals exact matches_nonterminal.mp h
  case parenExpr =>
    subst hrhs
    obtain ⟨opening, _, rfl, hopen, ts, _, rfl, hts, closing, _, rfl, hclose, rfl⟩ := h
    exact .paren hopen hts hclose
  case idOrFuncCallExpr =>
    subst hrhs
    obtain ⟨tok, _, rfl, hname, hsuffix⟩ := h
    rcases matches_nonterminal.mp hsuffix with
      rfl | ⟨opening, us, closing, rfl, hopen, hclose, hargs⟩
    · exact .identifier hname
    · rcases hargs with rfl | hargs
      · exact .callNone hname hopen hclose
      · exact .call hname hopen hargs hclose
  case idOrFuncCallSuffix =>
    rcases hrhs with rfl | rfl
    · obtain ⟨opening, _, rfl, hopen, us, _, rfl, hargs, closing, _, rfl, hclose, rfl⟩ := h
      exact .inr ⟨opening, us, closing, rfl, hopen, hclose, hargs⟩
    · exact .inl h
  case argumentList =>
    rcases hrhs with rfl | rfl
    · obtain ⟨us, vs, rfl, hus, htail⟩ := h
      rcases matches_nonterminal.mp htail with rfl | ⟨comma, us', rfl, hcomma, hargs⟩
      · rw [List.append_nil]
        exact .inr (.lastArg hus)
      · exact .inr (.moreArgs hus hcomma hargs)
    · exact .inl h
  case argumentListTail =>
    rcases hrhs with rfl | rfl
    · obtain ⟨comma, _, rfl, hcomma, us, vs, rfl, hus, htail⟩ := h
      refine .inr ⟨comma, _, rfl, hcomma, ?_⟩
      rcases matches_nonterminal.mp htail with rfl | ⟨comma', us', rfl, hcomma', hargs⟩
      · rw [List.append_nil]
        exact .lastArg hus
      · exact .moreArgs hus hcomma' hargs
    · exact .inl h

theorem OpenExpression.chain {ts : List (Token D)} (h : OpenExpression ts) : Chain ts :=
  Generates.least chainMeaning_closed h

section
variable {ts us vs c t s e st bs : List (Token D)} {n m : Nonterminal}
  {tok opening closing comma equal name kwIf kwThen kwElse kwFor kwVar kwIn : Token D}

/-- The words of a nonterminal in the grammar of the parser. -/
abbrev Open (n : Nonterminal) (ts : List (Token D)) : Prop :=
  Generates Readme.withOpenOperands IsTerminal n ts

theorem open_alternative (hrhs : [Symbol.nonterminal m] ∈ Readme.withOpenOperands n)
    (h : Open m ts) : Open n ts :=
  generates_of_matches hrhs (matches_nonterminal.mpr h)

theorem open_empty (hrhs : [] ∈ Readme.withOpenOperands n) : Open n ([] : List (Token D)) :=
  generates_of_matches hrhs rfl

theorem open_pair {n' : Nonterminal}
    (hrhs : [.nonterminal m, .nonterminal n'] ∈ Readme.withOpenOperands n) (h : Open m us)
    (h' : Open n' vs) : Open n (us ++ vs) :=
  generates_of_matches hrhs ⟨us, vs, rfl, h, matches_nonterminal.mpr h'⟩

/-- A nonterminal with one token in front of it. -/
theorem open_behind {t : Terminal}
    (hrhs : [.terminal t, .nonterminal m] ∈ Readme.withOpenOperands n)
    (htok : IsTerminal t tok) (h : Open m ts) : Open n (tok :: ts) :=
  generates_of_matches hrhs ⟨tok, ts, rfl, htok, matches_nonterminal.mpr h⟩

/-- A separator, an element and the rest of a list. -/
theorem open_more {n' : Nonterminal}
    (hrhs : [.terminal .comma, .nonterminal m, .nonterminal n'] ∈ Readme.withOpenOperands n)
    (hcomma : comma.kind = .comma) (h : Open m us) (h' : Open n' vs) :
    Open n (comma :: (us ++ vs)) :=
  generates_of_matches hrhs ⟨comma, _, rfl, hcomma, us, vs, rfl, h, matches_nonterminal.mpr h'⟩

/-- Every expression is an operand and a tail, which may be empty. -/
theorem open_operand (h : Open .expression ts) :
    ∃ us vs, ts = us ++ vs ∧ Open .unaryExpr us ∧ Open .binaryExprTail vs := by
  have hopen : Open .unaryExpr ts →
      ∃ us vs, ts = us ++ vs ∧ Open .unaryExpr us ∧ Open .binaryExprTail vs :=
    fun h => ⟨ts, [], by simp, h, open_empty (by decide)⟩
  obtain ⟨rhs, hrhs, h⟩ := generates_iff.mp h
  simp only [Readme.withOpenOperands, Readme.productions, List.mem_cons, List.not_mem_nil,
    or_false] at hrhs
  rcases hrhs with rfl | rfl | rfl | rfl
  · exact hopen (open_alternative (by decide) (matches_nonterminal.mp h))
  · exact hopen (open_alternative (by decide) (matches_nonterminal.mp h))
  · exact hopen (open_alternative (by decide) (matches_nonterminal.mp h))
  · obtain ⟨rhs, hrhs, h⟩ := generates_iff.mp (matches_nonterminal.mp h)
    obtain rfl : rhs = _ := List.mem_singleton.mp hrhs
    obtain ⟨us, vs, rfl, hunary, htail⟩ := h
    exact ⟨us, vs, rfl, hunary, matches_nonterminal.mp htail⟩

theorem open_binary (h : Open .unaryExpr us) (h' : Open .binaryExprTail vs) :
    Open .expression (us ++ vs) := by
  have hbinary : Open .binaryExpr (us ++ vs) := open_pair (by decide) h h'
  exact open_alternative (by decide) hbinary

theorem open_atom (h : Open .primaryExpr ts) : Open .expression ts := by
  have hbinary := open_binary (open_alternative (by decide) h) (open_empty (by decide))
  rwa [List.append_nil] at hbinary

theorem open_number (h : IsNumber tok) : Open .primaryExpr [tok] :=
  generates_of_matches (List.mem_cons_self ..) ⟨tok, [], rfl, h, rfl⟩

theorem open_paren (hopen : opening.kind = .lParen) (h : Open .expression ts)
    (hclose : closing.kind = .rParen) : Open .primaryExpr (opening :: (ts ++ [closing])) := by
  have hparen : Open .parenExpr (opening :: (ts ++ [closing])) :=
    generates_of_matches (List.mem_singleton.mpr rfl) ⟨opening, _, rfl, hopen, ts, _, rfl, h,
      closing, [], rfl, hclose, rfl⟩
  exact open_alternative (by decide) hparen

theorem open_idOrFuncCall (hname : tok.kind = .identifier) (h : Open .idOrFuncCallSuffix ts) :
    Open .primaryExpr (tok :: ts) := by
  have hid : Open .idOrFuncCallExpr (tok :: ts) :=
    open_behind (t := .identifier) (by decide) hname h
  exact open_alternative (by decide) hid

theorem open_call (hname : tok.kind = .identifier) (hopen : opening.kind = .lParen)
    (h : Open .argumentList ts) (hclose : closing.kind = .rParen) :
    Open .primaryExpr (tok :: opening :: (ts ++ [closing])) := by
  refine open_idOrFuncCall hname ?_
  exact generates_of_matches (List.mem_cons_self ..) ⟨opening, _, rfl, hopen, ts, _, rfl, h,
    closing, [], rfl, hclose, rfl⟩

theorem open_prefix (hop : IsOperator tok) (h : Open .expression ts) :
    Open .expression (tok :: ts) := by
  obtain ⟨us, vs, rfl, hunary, htail⟩ := open_operand h
  have hprefix : Open .unaryPrefix (tok :: us) :=
    open_behind (t := .operatorChar) (by decide) hop hunary
  exact open_binary (open_alternative (by decide) hprefix) htail

theorem open_infix (h : Open .primaryExpr ts) (hop : IsOperator tok) (h' : Open .expression us) :
    Open .expression (ts ++ tok :: us) := by
  obtain ⟨us, vs, rfl, hunary, htail⟩ := open_operand h'
  have htail' : Open .binaryExprTail (tok :: (us ++ vs)) :=
    generates_of_matches (List.mem_cons_self ..) ⟨tok, _, rfl, hop, us, vs, rfl, hunary,
      matches_nonterminal.mpr htail⟩
  exact open_binary (open_alternative (by decide) h) htail'

theorem open_if (hif : kwIf.kind = .kwIf) (hc : Open .expression c) (hthen : kwThen.kind = .kwThen)
    (ht : Open .expression t) (helse : kwElse.kind = .kwElse) (h : Open .expression ts) :
    Open .expression (kwIf :: (c ++ kwThen :: (t ++ kwElse :: ts))) := by
  have hexpr : Open .ifExpr (kwIf :: (c ++ kwThen :: (t ++ kwElse :: ts))) :=
    generates_of_matches (List.mem_singleton.mpr rfl)
      ⟨kwIf, _, rfl, hif, c, _, rfl, hc, kwThen, _, rfl,
      hthen, t, _, rfl, ht, kwElse, ts, rfl, helse, matches_nonterminal.mpr h⟩
  exact open_alternative (by decide) hexpr

theorem open_for (hfor : kwFor.kind = .kwFor) (hname : name.kind = .identifier)
    (hequal : equal.kind = .equal) (hs : Open .expression s) (hcomma : comma.kind = .comma)
    (he : Open .expression e) (hst : Open .optionalForStep st) (hin : kwIn.kind = .kwIn)
    (h : Open .expression ts) :
    Open .expression (kwFor :: name :: equal :: (s ++ comma :: (e ++ (st ++ kwIn :: ts)))) := by
  have hexpr :
      Open .forExpr (kwFor :: name :: equal :: (s ++ comma :: (e ++ (st ++ kwIn :: ts)))) :=
    generates_of_matches (List.mem_singleton.mpr rfl) ⟨kwFor, _, rfl, hfor, name, _, rfl, hname,
      equal, _, rfl, hequal, s, _, rfl, hs, comma, _, rfl, hcomma, e, _, rfl, he, st, _, rfl,
      hst, kwIn, ts, rfl, hin, matches_nonterminal.mpr h⟩
  exact open_alternative (by decide) hexpr

theorem open_var (hvar : kwVar.kind = .kwVar) (hbs : Open .varBindingList bs)
    (hin : kwIn.kind = .kwIn) (h : Open .expression ts) :
    Open .expression (kwVar :: (bs ++ kwIn :: ts)) := by
  have hexpr : Open .varExpr (kwVar :: (bs ++ kwIn :: ts)) :=
    generates_of_matches (List.mem_singleton.mpr rfl)
      ⟨kwVar, _, rfl, hvar, bs, _, rfl, hbs, kwIn, ts, rfl, hin, matches_nonterminal.mpr h⟩
  exact open_alternative (by decide) hexpr

theorem open_binding (hname : name.kind = .identifier) (h : Open .optionalInit ts) :
    Open .varBinding (name :: ts) :=
  open_behind (t := .identifier) (by decide) hname h

end

/-- Every chain can be derived. Induction on the chain. -/
theorem Chain.openExpression {ts : List (Token D)} (h : Chain ts) : OpenExpression ts := by
  show Open .expression ts
  induction h using Chain.rec
    (motive_1 := fun ts _ => Open .primaryExpr ts)
    (motive_2 := fun ts _ => ∀ us, Open .expression us → Open .expression (ts ++ us))
    (motive_4 := fun ts _ => ∃ us vs, ts = us ++ vs ∧ Open .expression us ∧
      Open .argumentListTail vs)
    (motive_5 := fun kind ts _ => (kind = .equal → Open .optionalInit ts) ∧
      (kind = .comma → Open .optionalForStep ts))
    (motive_6 := fun ts _ => ∃ us vs, ts = us ++ vs ∧ Open .varBinding us ∧
      Open .varBindingListTail vs) with
  | number hnumber => exact open_number hnumber
  | identifier hname => exact open_idOrFuncCall hname (open_empty (by decide))
  | paren hopen _ hclose ih => exact open_paren hopen ih hclose
  | callNone hname hopen hclose => exact open_call hname hopen (open_empty (by decide)) hclose
  | call hname hopen _ hclose ih =>
    obtain ⟨us, vs, rfl, hus, hvs⟩ := ih
    exact open_call hname hopen (open_pair (by decide) hus hvs) hclose
  | prefix_ hop =>
    rename_i hus
    exact open_prefix hop hus
  | if_ hif _ hthen _ helse ihc iht =>
    rename_i hus
    have hexpr := open_if hif ihc hthen iht helse hus
    simpa using hexpr
  | for_ hfor hname hequal _ hcomma _ _ hin ihs ihe ihst =>
    rename_i hus
    have hexpr := open_for hfor hname hequal ihs hcomma ihe (ihst.2 rfl) hin hus
    simpa using hexpr
  | var_ hvar _ hin ih =>
    rename_i hus
    obtain ⟨b, bs, rfl, hb, hbs⟩ := ih
    have hexpr := open_var hvar (open_pair (by decide) hb hbs) hin hus
    simpa using hexpr
  | atom _ ih => exact open_atom ih
  | infix_ _ hop _ ihts ihus => exact open_infix ihts hop ihus
  | opener _ _ ihts ihus => exact ihts _ ihus
  | lastArg _ ih => exact ⟨_, [], by simp, ih, open_empty (by decide)⟩
  | moreArgs _ hcomma _ ihts ihus =>
    obtain ⟨us, vs, rfl, hus, hvs⟩ := ihus
    exact ⟨_, _, rfl, ihts, open_more (by decide) hcomma hus hvs⟩
  | absent => exact ⟨fun _ => open_empty (by decide), fun _ => open_empty (by decide)⟩
  | present _ ih =>
    exact ⟨fun hequal => open_behind (t := .equal) (by decide) hequal ih,
      fun hcomma => open_behind (t := .comma) (by decide) hcomma ih⟩
  | lastBinding hname _ ih =>
    exact ⟨_, [], by simp, open_binding hname (ih.1 rfl), open_empty (by decide)⟩
  | moreBindings hname _ hcomma _ ih ihbs =>
    obtain ⟨us, vs, rfl, hus, hvs⟩ := ihbs
    exact ⟨_ :: _, _, rfl, open_binding hname (ih.1 rfl), open_more (by decide) hcomma hus hvs⟩

/-- Whatever spells an expression is a chain. -/
theorem Spells.chain {ofInt : Int → D} {ts : List (Token D)} {e : ExprAST D}
    (h : Spells ofInt ts e) : Chain ts := by
  have hoperator : ∀ {tok : Token D} {op : Byte}, isAthensOperatorToken tok.kind = true →
      tok.lexeme = [op] → IsOperator tok := fun hop hlex => ⟨hop, by rw [hlex]; rfl⟩
  induction h using Spells.rec
    (motive_2 := fun ts _ _ => ChainArgs ts)
    (motive_3 := fun kind ts _ _ => ChainOptional kind ts)
    (motive_4 := fun ts _ _ => ChainBindings ts) with
  | identifier hname => exact .atom (.identifier hname)
  | integer hkind hlit => exact .atom (.number (.integer hkind hlit))
  | float hkind hlit => exact .atom (.number (.float hkind hlit))
  | paren hopen _ hclose ih => exact .atom (.paren hopen ih hclose)
  | callNone hname hopen hclose => exact .atom (.callNone hname hopen hclose)
  | call hname hopen _ hclose ih => exact .atom (.call hname hopen ih hclose)
  | unary hop hlex _ ih => exact .opener (.prefix_ (hoperator hop hlex)) ih
  | binary hop hlex _ _ ihl ihr => exact Chain.binary ihl (hoperator hop hlex) ihr
  | ifExpr hif _ hthen _ helse _ ihc iht ihe =>
    have hopener := Chain.opener (.if_ hif ihc hthen iht helse) ihe
    simpa using hopener
  | forExpr hfor hname hequal _ hcomma _ _ hin _ ihs ihe ihst ihb =>
    have hopener := Chain.opener (.for_ hfor hname hequal ihs hcomma ihe ihst hin) ihb
    simpa using hopener
  | varExpr hvar _ hin _ ihbs ihb =>
    have hopener := Chain.opener (.var_ hvar ihbs hin) ihb
    simpa using hopener
  | lastArg _ ih => exact .lastArg ih
  | moreArgs _ hcomma _ ih ihargs => exact .moreArgs ih hcomma ihargs
  | absent => exact .absent
  | present _ ih => exact .present ih
  | lastBinding hname _ ih => exact .lastBinding hname ih
  | moreBindings hname _ hcomma _ ih ihbs => exact .moreBindings hname ih hcomma ihbs

end AroundTheWorld.Athens
