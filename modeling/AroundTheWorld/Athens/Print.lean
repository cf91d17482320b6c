import AroundTheWorld.Athens.ParseComplete
import AroundTheWorld.Parse.Takes

/-!
# Printing and parsing Athens expressions

An expression is printed as tokens with one pair of parentheses around every
node that is not a number, a variable or a call. Printed subexpressions are then
always followed by a delimiter that no expression goes on with, so that the
parser takes each of them exactly. Numbers are printed as `Float` tokens;
`kindOf` gives the token kind of an operator.
-/

namespace AroundTheWorld.Athens

open AroundTheWorld.Lex AroundTheWorld.Parse
open AthensGrammarPack AthensParseBuilder

variable {D : Type}

/-! ## Printing -/

def word (kind : TokenKind) (lexeme : String) : Token D := { kind, lexeme := text lexeme }

def identToken (name : Name) : Token D := { kind := .identifier, lexeme := name }

def numberToken (val : D) : Token D := { kind := .float, literal := .double val }

def opToken (kindOf : Byte → TokenKind) (op : Byte) : Token D :=
  { kind := kindOf op, lexeme := [op] }

def paren (ts : List (Token D)) : List (Token D) :=
  word .lParen "(" :: (ts ++ [word .rParen ")"])

/-- A null part is not printed. -/
def printOptional (kind : TokenKind) (lexeme : String) (e : ExprAST D) (printed : List (Token D)) :
    List (Token D) :=
  if e.isNull then [] else word kind lexeme :: printed

section
variable (kindOf : Byte → TokenKind)

mutual

def print : ExprAST D → List (Token D)
  | .null => []
  | .numberExpr val => [numberToken val]
  | .variableExpr name => [identToken name]
  | .unaryExpr op operand => paren (opToken kindOf op :: print operand)
  | .binaryExpr op lhs rhs => paren (print lhs ++ opToken kindOf op :: print rhs)
  | .callExpr callee args => identToken callee :: paren (printArgs args)
  | .ifExpr cond then_ else_ =>
    paren (word .kwIf "if" :: (print cond ++
      word .kwThen "then" :: (print then_ ++ word .kwElse "else" :: print else_)))
  | .forExpr varName start end_ step body =>
    paren (word .kwFor "for" :: identToken varName :: word .equal "=" :: (print start ++
      word .comma "," :: (print end_ ++ (printOptional .comma "," step (print step) ++
        word .kwIn "in" :: print body))))
  | .varExpr varNames body =>
    paren (word .kwVar "var" :: (printBindings varNames ++ word .kwIn "in" :: print body))

def printArgs : List (ExprAST D) → List (Token D)
  | [] => []
  | arg :: args => print arg ++ printMoreArgs args

def printMoreArgs : List (ExprAST D) → List (Token D)
  | [] => []
  | arg :: args => word .comma "," :: (print arg ++ printMoreArgs args)

def printBindings : List (Name × ExprAST D) → List (Token D)
  | [] => []
  | b :: bs => printBinding b ++ printMoreBindings bs

def printMoreBindings : List (Name × ExprAST D) → List (Token D)
  | [] => []
  | b :: bs => word .comma "," :: (printBinding b ++ printMoreBindings bs)

def printBinding : Name × ExprAST D → List (Token D)
  | (name, init) => identToken name :: printOptional .equal "=" init (print init)

end

end

/-- A binary operator with a precedence that a definition can give it. -/
def Active (table : BinopTable) (op : Byte) : Prop := ∃ p, table op = some p ∧ 1 ≤ p ∧ p ≤ 100

/-- No mandatory child is null, every binary operator is active, and every `var`
binds something. -/
inductive Printable (table : BinopTable) : ExprAST D → Prop where
  | numberExpr (val : D) : Printable table (.numberExpr val)
  | variableExpr (name : Name) : Printable table (.variableExpr name)
  | unaryExpr (op : Byte) {operand : ExprAST D} : Printable table operand →
      Printable table (.unaryExpr op operand)
  | binaryExpr {op : Byte} {lhs rhs : ExprAST D} : Active table op → Printable table lhs →
      Printable table rhs → Printable table (.binaryExpr op lhs rhs)
  | callExpr (callee : Name) {args : List (ExprAST D)} : (∀ a ∈ args, Printable table a) →
      Printable table (.callExpr callee args)
  | ifExpr {cond then_ else_ : ExprAST D} : Printable table cond → Printable table then_ →
      Printable table else_ → Printable table (.ifExpr cond then_ else_)
  | forExpr (varName : Name) {start end_ step body : ExprAST D} : Printable table start →
      Printable table end_ → (step ≠ .null → Printable table step) → Printable table body →
      Printable table (.forExpr varName start end_ step body)
  | varExpr {varNames : List (Name × ExprAST D)} {body : ExprAST D} : varNames ≠ [] →
      (∀ b ∈ varNames, b.2 ≠ .null → Printable table b.2) → Printable table body →
      Printable table (.varExpr varNames body)

theorem Printable.ne_null {table : BinopTable} {e : ExprAST D} (h : Printable table e) :
    e ≠ .null := by
  cases h <;> simp

/-! ## Where an expression ends -/

section
variable {ofInt : Int → D} {σ : ParseState D BinopTable} {m : Int} {rest : List (Token D)}

theorem stopsAt_of_kind (h : isAthensOperatorToken (Parser.current σ).kind = false) :
    StopsAt (athensRegistry ofInt) m σ := by
  intro entry hfind
  obtain ⟨hop, -⟩ := athensRegistry_infix hfind
  rw [h] at hop
  cases hop

/-- The next token ends an expression. -/
structure Ends (ofInt : Int → D) (m : Int) (σ : ParseState D BinopTable) : Prop where
  not_call : (Parser.current σ).kind ≠ .lParen
  stops : StopsAt (athensRegistry ofInt) m σ

/-- So do the delimiters that are printed behind one. -/
theorem ends_word {kind : TokenKind} (lexeme : String) (hop : isAthensOperatorToken kind = false)
    (hcall : kind ≠ .lParen) : Ends ofInt m (σ.on (word kind lexeme :: rest)) :=
  ⟨hcall, stopsAt_of_kind hop⟩

theorem word_kind_ne {kind kind' : TokenKind} (lexeme : String) (h : kind ≠ kind') :
    (Parser.current (σ.on (word kind lexeme :: rest))).kind ≠ kind' := h

/-! ## Reading back -/

/-- The prefix handler of the first printed token takes the rest, given an engine
that may call itself more often than there are tokens. -/
def ReadsBack (ofInt : Int → D) (kindOf : Byte → TokenKind) (σ : ParseState D BinopTable)
    (e : ExprAST D) : Prop :=
  ∃ tok ts handler, print kindOf e = tok :: ts ∧
    (athensRegistry ofInt).findPrefixHandler tok.kind = some handler ∧
    ∀ n, ts.length < n → ∀ rest, (Parser.current (σ.on rest)).kind ≠ .lParen →
      Takes σ (handler (athensEngine ofInt n) tok) (ts ++ rest) e rest

variable {kindOf : Byte → TokenKind} {e : ExprAST D} {ts inner : List (Token D)} {tok : Token D}
  {handler : PrefixExprHandler D BinopTable (ExprAST D) (ExprAST D)}

theorem ReadsBack.parse (h : ReadsBack ofInt kindOf σ e) {n : Nat}
    (hn : (print kindOf e).length < n) (hrest : Ends ofInt m (σ.on rest)) :
    Takes σ ((athensEngine ofInt n).parseExpression m) (print kindOf e ++ rest) e rest := by
  obtain ⟨tok, ts, handler, hprint, hfind, htakes⟩ := h
  rw [hprint, List.length_cons] at hn
  obtain ⟨n, rfl⟩ := Nat.exists_eq_add_of_lt hn
  rw [hprint, show ts.length + 1 + n + 1 = ts.length + n + 1 + 1 by omega]
  refine Takes.parseExpression hfind (htakes _ (by omega) rest hrest.not_call) ?_
  exact Takes.infixLoop_stop hrest.stops

/-- A handler behind an opening parenthesis. -/
theorem takes_inner (hfind : (athensRegistry ofInt).findPrefixHandler tok.kind = some handler)
    (h : ∀ n, ts.length < n → ∀ rest, Takes σ (handler (athensEngine ofInt n) tok)
      (ts ++ word .rParen ")" :: rest) e (word .rParen ")" :: rest)) {n : Nat}
    (hn : (tok :: ts).length < n) (rest : List (Token D)) :
    Takes σ ((athensEngine ofInt n).parseExpression 0) (tok :: ts ++ word .rParen ")" :: rest) e
      (word .rParen ")" :: rest) := by
  rw [List.length_cons] at hn
  obtain ⟨n, rfl⟩ := Nat.exists_eq_add_of_lt hn
  rw [show ts.length + 1 + n + 1 = ts.length + n + 1 + 1 by omega]
  refine Takes.parseExpression hfind (h _ (by omega) rest) ?_
  exact Takes.infixLoop_stop (ends_word ")" (by decide) (by decide)).stops

/-- What stands in parentheses. -/
theorem readsBack_paren (hprint : print kindOf e = paren inner)
    (h : ∀ n, inner.length < n → ∀ rest, Takes σ ((athensEngine ofInt n).parseExpression 0)
      (inner ++ word .rParen ")" :: rest) e (word .rParen ")" :: rest)) :
    ReadsBack ofInt kindOf σ e := by
  refine ⟨word .lParen "(", inner ++ [word .rParen ")"], _, hprint, rfl, ?_⟩
  intro n hn rest _
  rw [List.append_assoc]
  rw [List.length_append] at hn
  refine (h n (by omega) rest).bind (Takes.bind (Takes.expect rfl) ?_)
  exact Takes.pure

theorem readsBack_number (val : D) : ReadsBack ofInt kindOf σ (.numberExpr val) :=
  ⟨numberToken val, [], _, by rw [print], rfl, fun _ _ _ _ => Takes.pure⟩

theorem readsBack_variable (name : Name) : ReadsBack ofInt kindOf σ (.variableExpr name) := by
  refine ⟨identToken name, [], _, by rw [print], rfl, ?_⟩
  intro n _ rest hrest
  exact Takes.bind (Takes.matchKind_false hrest) Takes.pure

section
variable (hkind : ∀ op, isAthensOperatorToken (kindOf op) = true)
include hkind

theorem prefixHandler_opToken (ofInt : Int → D) (op : Byte) :
    (athensRegistry ofInt).findPrefixHandler (opToken (D := D) kindOf op).kind =
      some parseUnary := by
  have hop : isAthensOperatorToken (opToken (D := D) kindOf op).kind = true := hkind op
  cases hk : (opToken (D := D) kindOf op).kind <;> rw [hk] at hop <;> cases hop <;> rfl

theorem infixHandler_opToken (ofInt : Int → D) (op : Byte) :
    (athensRegistry ofInt).findInfixHandler (opToken (D := D) kindOf op).kind =
      some ⟨0, some athensOperatorPrecedence, infixOperator⟩ := by
  have hop : isAthensOperatorToken (opToken (D := D) kindOf op).kind = true := hkind op
  cases hk : (opToken (D := D) kindOf op).kind <;> rw [hk] at hop <;> cases hop <;> rfl

theorem readsBack_unary (op : Byte) {operand : ExprAST D} (hne : operand ≠ .null)
    (h : ReadsBack ofInt kindOf σ operand) : ReadsBack ofInt kindOf σ (.unaryExpr op operand) := by
  refine readsBack_paren (by rw [print]) fun n hn rest => ?_
  refine takes_inner (prefixHandler_opToken hkind ofInt op) (fun n hn rest => ?_) hn rest
  refine (h.parse hn (ends_word ")" (by decide) (by decide))).bind ?_
  rw [makeUnary_eq rfl hne]
  exact Takes.pure

theorem readsBack_binary {op : Byte} {lhs rhs : ExprAST D} (hop : Active σ.globals op)
    (hl : lhs ≠ .null) (hr : rhs ≠ .null) (ihl : ReadsBack ofInt kindOf σ lhs)
    (ihr : ReadsBack ofInt kindOf σ rhs) : ReadsBack ofInt kindOf σ (.binaryExpr op lhs rhs) := by
  refine readsBack_paren (by rw [print]) fun n hn rest => ?_
  obtain ⟨p, htable, hlow, hhigh⟩ := hop
  obtain ⟨tok, ts, handler, hprint, hfind, htakes⟩ := ihl
  have hprec : athensOperatorPrecedence σ.globals (opToken (D := D) kindOf op) = p := by
    simp only [athensOperatorPrecedence, opToken, htable]
    rw [if_neg (by omega)]
  rw [hprint] at hn ⊢
  simp only [List.length_append, List.length_cons] at hn
  obtain ⟨k, rfl⟩ : ∃ k, n = k + 2 := ⟨n - 2, by omega⟩
  have hcall : (Parser.current (σ.on (opToken kindOf op :: (print kindOf rhs ++
      word .rParen ")" :: rest)))).kind ≠ .lParen := by
    intro hcall
    have hkind := hkind op
    rw [show kindOf op = .lParen from hcall] at hkind
    cases hkind
  have hlhs := htakes (k + 1) (by omega) _ hcall
  simp only [List.cons_append, List.append_assoc]
  have hrhs : Takes σ ((athensEngine ofInt (k + 1)).parseExpression (p + 1))
      (print kindOf rhs ++ word .rParen ")" :: rest) rhs (word .rParen ")" :: rest) :=
    ihr.parse (by omega) (ends_word ")" (by decide) (by decide))
  have hmake : Takes σ (infixOperator (athensEngine ofInt (k + 1)) lhs (opToken kindOf op) rhs)
      (word .rParen ")" :: rest) (.binaryExpr op lhs rhs) (word .rParen ")" :: rest) := by
    unfold infixOperator
    rw [makeBinary_eq rfl hl hr]
    exact Takes.pure
  obtain ⟨k, rfl⟩ : ∃ j, k = j + 1 := ⟨k - 1, by omega⟩
  have hstop : StopsAt (athensRegistry ofInt) 0 (σ.on (word .rParen ")" :: rest)) :=
    (ends_word ")" (by decide) (by decide)).stops
  refine Takes.parseExpression hfind hlhs ?_
  refine Takes.infixLoop_step (infixHandler_opToken hkind ofInt op) ?_ ?_ hmake
    (Takes.infixLoop_stop hstop)
  · show 0 ≤ athensOperatorPrecedence σ.globals (opToken (D := D) kindOf op)
    omega
  · rw [← hprec] at hrhs
    exact hrhs

end

theorem readsBack_if {cond then_ else_ : ExprAST D} (hc : cond ≠ .null) (ht : then_ ≠ .null)
    (he : else_ ≠ .null) (ihc : ReadsBack ofInt kindOf σ cond)
    (iht : ReadsBack ofInt kindOf σ then_) (ihe : ReadsBack ofInt kindOf σ else_) :
    ReadsBack ofInt kindOf σ (.ifExpr cond then_ else_) := by
  refine readsBack_paren (by rw [print]) fun n hn rest => ?_
  refine takes_inner rfl (fun n hn rest => ?_) hn rest
  simp only [List.length_append, List.length_cons] at hn
  simp only [List.cons_append, List.append_assoc]
  refine (ihc.parse (by omega) (ends_word "then" (by decide) (by decide))).bind ?_
  refine Takes.bind (Takes.expect rfl) ?_
  refine (iht.parse (by omega) (ends_word "else" (by decide) (by decide))).bind ?_
  refine Takes.bind (Takes.expect rfl) ?_
  refine (ihe.parse (by omega) (ends_word ")" (by decide) (by decide))).bind ?_
  rw [makeIf_eq hc ht he]
  exact Takes.pure

/-- A part that may be left out, behind the word that announces it. -/
theorem takes_optional {kind : TokenKind} {lexeme : String} {n : Nat}
    (h : e ≠ .null → ReadsBack ofInt kindOf σ e)
    (hn : (printOptional kind lexeme e (print kindOf e)).length ≤ n)
    (hword : (Parser.current (σ.on rest)).kind ≠ kind) (hrest : Ends ofInt 0 (σ.on rest)) :
    Takes σ (do
      let found ← Parser.matchKind kind
      if found then (athensEngine ofInt n).parseExpression 0 else pure .null)
      (printOptional kind lexeme e (print kindOf e) ++ rest) e rest := by
  unfold printOptional at hn ⊢
  cases hnull : e.isNull with
  | true =>
    rw [e.eq_null_of_isNull hnull]
    exact Takes.bind (Takes.matchKind_false hword) Takes.pure
  | false =>
    have hne : e ≠ .null := by
      rintro rfl
      cases hnull
    rw [hnull, if_neg (by decide), List.length_cons] at hn
    rw [if_neg (by decide), List.cons_append]
    exact Takes.bind (Takes.matchKind_true rfl) ((h hne).parse (by omega) hrest)

theorem readsBack_for (varName : Name) {start end_ step body : ExprAST D} (hs : start ≠ .null)
    (he : end_ ≠ .null) (hb : body ≠ .null) (ihs : ReadsBack ofInt kindOf σ start)
    (ihe : ReadsBack ofInt kindOf σ end_) (ihst : step ≠ .null → ReadsBack ofInt kindOf σ step)
    (ihb : ReadsBack ofInt kindOf σ body) :
    ReadsBack ofInt kindOf σ (.forExpr varName start end_ step body) := by
  refine readsBack_paren (by rw [print]) fun n hn rest => ?_
  refine takes_inner rfl (fun n hn rest => ?_) hn rest
  simp only [List.length_append, List.length_cons] at hn
  simp only [List.cons_append, List.append_assoc]
  refine Takes.bind (Takes.atKind_true rfl) (Takes.bind Takes.consume ?_)
  refine Takes.bind (Takes.expect rfl) ?_
  refine (ihs.parse (by omega) (ends_word "," (by decide) (by decide))).bind ?_
  refine Takes.bind (Takes.expect rfl) ?_
  have hin : ∀ ts, Ends ofInt 0 (σ.on (word .kwIn "in" :: ts)) :=
    fun ts => ends_word "in" (by decide) (by decide)
  have hend : Ends ofInt 0 (σ.on (printOptional .comma "," step (print kindOf step) ++
      word .kwIn "in" :: (print kindOf body ++ word .rParen ")" :: rest))) := by
    unfold printOptional
    split
    · exact hin _
    · exact ends_word "," (by decide) (by decide)
  refine (ihe.parse (by omega) hend).bind ?_
  refine Takes.bind (takes_optional ihst (by omega) (word_kind_ne "in" (by decide)) (hin _)) ?_
  refine Takes.bind (Takes.expect rfl) ?_
  refine (ihb.parse (by omega) (ends_word ")" (by decide) (by decide))).bind ?_
  rw [makeFor_eq hs he hb]
  exact Takes.pure

/-! ## Lists -/

theorem length_le_printMoreArgs (kindOf : Byte → TokenKind) (args : List (ExprAST D)) :
    args.length ≤ (printMoreArgs kindOf args).length := by
  induction args with
  | nil => exact Nat.zero_le _
  | cons arg args ih =>
    rw [printMoreArgs, List.length_cons, List.length_cons, List.length_append]
    omega

theorem length_le_printMoreBindings (kindOf : Byte → TokenKind) (bs : List (Name × ExprAST D)) :
    bs.length ≤ (printMoreBindings kindOf bs).length := by
  induction bs with
  | nil => exact Nat.zero_le _
  | cons b bs ih =>
    rw [printMoreBindings, List.length_cons, List.length_cons, List.length_append]
    omega

/-- The loop over arguments, from one argument on. -/
theorem takes_arguments {args : List (ExprAST D)} {arg : ExprAST D} {n k : Nat}
    (harg : ReadsBack ofInt kindOf σ arg) (h : ∀ a ∈ args, ReadsBack ofInt kindOf σ a)
    (hn : (print kindOf arg ++ printMoreArgs kindOf args).length < n) (hk : args.length < k)
    (acc : List (ExprAST D)) :
    Takes σ (parseArguments (athensEngine ofInt n) k acc)
      (print kindOf arg ++ (printMoreArgs kindOf args ++ word .rParen ")" :: rest))
      (some (acc ++ arg :: args)) (word .rParen ")" :: rest) := by
  induction args generalizing arg acc k with
  | nil =>
    obtain ⟨k, rfl⟩ := Nat.exists_eq_add_of_lt hk
    rw [printMoreArgs, List.append_nil] at hn
    rw [printMoreArgs, List.nil_append]
    refine (harg.parse hn (ends_word ")" (by decide) (by decide))).bind ?_
    exact Takes.bind (Takes.atKind_true rfl) Takes.pure
  | cons next args ih =>
    rw [List.length_cons] at hk
    obtain ⟨k, rfl⟩ : ∃ j, k = j + 1 := ⟨k - 1, by omega⟩
    rw [printMoreArgs] at hn ⊢
    simp only [List.length_append, List.length_cons] at hn
    rw [List.cons_append, List.append_assoc]
    refine (harg.parse (by omega) (ends_word "," (by decide) (by decide))).bind ?_
    refine Takes.bind (Takes.atKind_false (word_kind_ne "," (by decide))) ?_
    refine Takes.bind (Takes.expect rfl) ?_
    have hrest := ih (h next (by simp)) (fun a ha => h a (by simp [ha]))
      (by rw [List.length_append]; omega) (show args.length < k by omega) (acc ++ [arg])
    rwa [List.append_assoc, List.singleton_append] at hrest

theorem readsBack_call (callee : Name) {args : List (ExprAST D)}
    (h : ∀ a ∈ args, ReadsBack ofInt kindOf σ a) :
    ReadsBack ofInt kindOf σ (.callExpr callee args) := by
  refine ⟨identToken callee, paren (printArgs kindOf args), _, by rw [print], rfl, ?_⟩
  intro n hn rest _
  unfold paren at hn ⊢
  simp only [List.length_append, List.length_cons, List.length_nil] at hn
  rw [List.cons_append, List.append_assoc, List.singleton_append]
  have hlist : Takes σ (parseArgumentList (athensEngine ofInt n))
      (printArgs kindOf args ++ word .rParen ")" :: rest) (some args)
      (word .rParen ")" :: rest) := by
    cases args with
    | nil =>
      rw [printArgs, List.nil_append]
      exact Takes.bind (Takes.atKind_true rfl) Takes.pure
    | cons arg args =>
      rw [printArgs] at hn ⊢
      have hlength := length_le_printMoreArgs kindOf args
      obtain ⟨tok, ts, _, hprint, hfind, _⟩ := h arg (by simp)
      have hne : tok.kind ≠ .rParen := by
        intro hkind
        rw [hkind] at hfind
        cases hfind
      rw [List.append_assoc]
      refine Takes.bind (Takes.atKind_false (by rw [hprint]; exact hne)) ?_
      simp only [List.length_append] at hn
      refine takes_arguments (h arg (by simp)) (fun a ha => h a (by simp [ha])) ?_ ?_ []
      · rw [List.length_append]
        omega
      · show args.length < (athensEngine ofInt n).fuel
        rw [athensEngine, parserEngine_fuel]
        omega
  refine Takes.bind (Takes.matchKind_true rfl) (hlist.bind ?_)
  exact Takes.bind (Takes.expect rfl) Takes.pure

/-- The loop over bindings, from one binding on. -/
theorem takes_bindings {bs : List (Name × ExprAST D)} {b : Name × ExprAST D} {n k : Nat}
    (hb : b.2 ≠ .null → ReadsBack ofInt kindOf σ b.2)
    (h : ∀ b ∈ bs, b.2 ≠ .null → ReadsBack ofInt kindOf σ b.2)
    (hn : (printBinding kindOf b ++ printMoreBindings kindOf bs).length < n) (hk : bs.length < k)
    (acc : List (Name × ExprAST D)) :
    Takes σ (parseBindings (athensEngine ofInt n) k acc)
      (printBinding kindOf b ++ (printMoreBindings kindOf bs ++ word .kwIn "in" :: rest))
      (some (acc ++ b :: bs)) (word .kwIn "in" :: rest) := by
  induction bs generalizing b acc k with
  | nil =>
    obtain ⟨k, rfl⟩ := Nat.exists_eq_add_of_lt hk
    obtain ⟨name, init⟩ := b
    rw [printBinding, printMoreBindings, List.append_nil, List.length_cons] at hn
    rw [printBinding, printMoreBindings, List.nil_append, List.cons_append]
    refine Takes.bind (Takes.atKind_true rfl) (Takes.bind Takes.consume ?_)
    refine Takes.bind (takes_optional hb (by omega) (word_kind_ne "in" (by decide))
      (ends_word "in" (by decide) (by decide))) ?_
    exact Takes.bind (Takes.matchKind_false (word_kind_ne "in" (by decide))) Takes.pure
  | cons next bs ih =>
    rw [List.length_cons] at hk
    obtain ⟨k, rfl⟩ : ∃ j, k = j + 1 := ⟨k - 1, by omega⟩
    have hrest : ∀ acc, Takes σ (parseBindings (athensEngine ofInt n) k acc)
        (printBinding kindOf next ++ (printMoreBindings kindOf bs ++ word .kwIn "in" :: rest))
        (some (acc ++ next :: bs)) (word .kwIn "in" :: rest) := by
      rw [printMoreBindings, List.length_append, List.length_cons] at hn
      exact ih (h next (by simp)) (fun b hb => h b (by simp [hb])) (by omega) (by omega)
    obtain ⟨name, init⟩ := b
    rw [printBinding, printMoreBindings] at hn ⊢
    simp only [List.length_append, List.length_cons] at hn
    simp only [List.cons_append, List.append_assoc]
    refine Takes.bind (Takes.atKind_true rfl) (Takes.bind Takes.consume ?_)
    refine Takes.bind (takes_optional hb (by omega) (word_kind_ne "," (by decide))
      (ends_word "," (by decide) (by decide))) ?_
    refine Takes.bind (Takes.matchKind_true rfl) ?_
    have hrest := hrest (acc ++ [(name, init)])
    rwa [List.append_assoc, List.singleton_append] at hrest

theorem readsBack_var {varNames : List (Name × ExprAST D)} {body : ExprAST D}
    (hne : varNames ≠ []) (hbody : body ≠ .null)
    (h : ∀ b ∈ varNames, b.2 ≠ .null → ReadsBack ofInt kindOf σ b.2)
    (ih : ReadsBack ofInt kindOf σ body) : ReadsBack ofInt kindOf σ (.varExpr varNames body) := by
  cases varNames with
  | nil => exact absurd rfl hne
  | cons b bs =>
    refine readsBack_paren (by rw [print]) fun n hn rest => ?_
    refine takes_inner rfl (fun n hn rest => ?_) hn rest
    have hlength := length_le_printMoreBindings kindOf bs
    rw [printBindings] at hn ⊢
    simp only [List.length_append, List.length_cons] at hn
    simp only [List.cons_append, List.append_assoc]
    have hfuel : bs.length < (athensEngine ofInt n).fuel := by
      rw [athensEngine, parserEngine_fuel]
      omega
    have hbindings : Takes σ (parseBindings (athensEngine ofInt n) (athensEngine ofInt n).fuel [])
        (printBinding kindOf b ++ (printMoreBindings kindOf bs ++ word .kwIn "in" ::
          (print kindOf body ++ word .rParen ")" :: rest))) (some ([] ++ b :: bs))
        (word .kwIn "in" :: (print kindOf body ++ word .rParen ")" :: rest)) :=
      takes_bindings (h b (by simp)) (fun b hb => h b (by simp [hb]))
        (by rw [List.length_append]; omega) hfuel []
    refine hbindings.bind (Takes.bind (Takes.expect rfl) ?_)
    refine (ih.parse (by omega) (ends_word ")" (by decide) (by decide))).bind ?_
    rw [List.nil_append, makeVar_eq hbody]
    exact Takes.pure

/-! ## Parse undoes print -/

theorem Printable.readsBack (hkind : ∀ op, isAthensOperatorToken (kindOf op) = true)
    (h : Printable σ.globals e) : ReadsBack ofInt kindOf σ e := by
  induction e using ExprAST.induction with
  | null => cases h
  | numberExpr val => exact readsBack_number val
  | variableExpr name => exact readsBack_variable name
  | unaryExpr op operand ih =>
    obtain _ | _ | ⟨_, h⟩ := h
    exact readsBack_unary hkind op h.ne_null (ih h)
  | binaryExpr op lhs rhs ihl ihr =>
    cases h with
    | binaryExpr hop hl hr =>
      exact readsBack_binary hkind hop hl.ne_null hr.ne_null (ihl hl) (ihr hr)
  | callExpr callee args ih =>
    cases h with
    | callExpr _ hargs => exact readsBack_call callee fun a ha => ih a ha (hargs a ha)
  | ifExpr cond then_ else_ ihc iht ihe =>
    cases h with
    | ifExpr hc ht he =>
      exact readsBack_if hc.ne_null ht.ne_null he.ne_null (ihc hc) (iht ht) (ihe he)
  | forExpr varName start end_ step body ihs ihe ihst ihb =>
    cases h with
    | forExpr _ hs he hst hb =>
      exact readsBack_for varName hs.ne_null he.ne_null hb.ne_null (ihs hs) (ihe he)
        (fun hne => ihst (hst hne)) (ihb hb)
  | varExpr varNames body ih ihb =>
    cases h with
    | varExpr hne hvars hb =>
      exact readsBack_var hne hb.ne_null (fun b hmem hinit => ih b hmem (hvars b hmem hinit))
        (ihb hb)

/-- Neither an opening parenthesis nor an active operator. -/
def EndsExpression (table : BinopTable) (tok : Token D) : Prop :=
  tok.kind ≠ .lParen ∧
    (isAthensOperatorToken tok.kind = true → athensOperatorPrecedence table tok < 0)

theorem EndsExpression.ends (h : EndsExpression σ.globals (Parser.current σ)) : Ends ofInt 0 σ := by
  refine ⟨h.1, fun entry hfind => ?_⟩
  obtain ⟨hop, rfl⟩ := athensRegistry_infix hfind
  exact h.2 hop

end

/-- Parsing the tokens of an expression, with any others behind them that it
cannot go on with, takes exactly the tokens and returns the expression. -/
theorem parse_print (ofInt : Int → D) {kindOf : Byte → TokenKind}
    (hkind : ∀ op, isAthensOperatorToken (kindOf op) = true) (σ : ParseState D BinopTable)
    {e : ExprAST D} (h : Printable σ.globals e) {rest : List (Token D)}
    (hrest : EndsExpression σ.globals (Parser.current (σ.on rest))) {fuel : Nat}
    (hfuel : (print kindOf e).length < fuel) :
    (athensEngine ofInt fuel).parseExpression 0 (σ.on (print kindOf e ++ rest)) =
      some (e, σ.on rest) :=
  (h.readsBack hkind).parse hfuel (EndsExpression.ends hrest)

/-- Nothing but the operator `+`. -/
def plusState : ParseState Int BinopTable where
  tokens := []
  globals := BinopTable.set (fun _ => none) (byte '+') (some 20)

/-- `var x = 1 in x + f(x)` -/
def letSum : ExprAST Int :=
  .varExpr [(text "x", .numberExpr 1)] (.binaryExpr (byte '+') (.variableExpr (text "x"))
    (.callExpr (text "f") [.variableExpr (text "x")]))

theorem parse_print_letSum : (athensEngine id 30).parseExpression 0
    (plusState.on (print (fun _ => .operator) letSum ++ [])) = some (letSum, plusState.on []) := by
  have hbody : Printable plusState.globals (.binaryExpr (byte '+') (.variableExpr (text "x"))
      (.callExpr (text "f") [.variableExpr (text "x")]) : ExprAST Int) := by
    refine .binaryExpr ⟨20, by decide, by decide, by decide⟩ (.variableExpr _) (.callExpr _ ?_)
    intro a ha
    obtain rfl := List.mem_singleton.mp ha
    exact .variableExpr _
  have hprintable : Printable plusState.globals letSum := by
    refine .varExpr (by simp) ?_ hbody
    intro b hb _
    obtain rfl := List.mem_singleton.mp hb
    exact .numberExpr 1
  exact parse_print id (fun _ => rfl) plusState hprintable ⟨by decide, by decide⟩ (by decide)

/-- A `var` without variables has all its children, but its tokens are refused. -/
theorem parse_refuses_empty_var :
    (ExprAST.varExpr [] (.variableExpr (text "x")) : ExprAST Int).Complete ∧
    EndsExpression plusState.globals (Parser.current (plusState.on [])) ∧
    ∃ σ', (athensEngine id 30).parseExpression 0 (plusState.on
        (print (fun _ => .operator) (.varExpr [] (.variableExpr (text "x"))) ++ [])) =
      some (.null, σ') ∧ σ'.diag ≠ [] := by
  refine ⟨.varExpr (by simp) (.variableExpr _), ⟨by decide, by decide⟩, ?_⟩
  have h : ((athensEngine id 30).parseExpression 0 (plusState.on
      (print (fun _ => .operator) (.varExpr [] (.variableExpr (text "x"))) ++ []))).map
        (fun r => r.1.isNull && decide (r.2.diag ≠ [])) = some true := by decide +kernel
  obtain ⟨⟨e, σ'⟩, hrun, h⟩ := Option.map_eq_some_iff.mp h
  obtain ⟨hnull, hdiag⟩ := Bool.and_eq_true_iff.mp h
  rw [e.eq_null_of_isNull hnull] at hrun
  exact ⟨σ', hrun, of_decide_eq_true hdiag⟩

end AroundTheWorld.Athens
