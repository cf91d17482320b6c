import AroundTheWorld.Athens.GrammarPack

/-!
# Which tokens spell which Athens AST

The relation between the tokens of an expression, a prototype or an item and
the AST that stands for it. A `for` step or a `var` initialiser is null exactly
where the tokens have none, and no other child is null.
-/

namespace AroundTheWorld.Athens

open AroundTheWorld.Lex AroundTheWorld.Parse
open AthensGrammarPack (isAthensOperatorToken)

variable {D : Type}

section
variable (ofInt : Int → D)

mutual

inductive Spells : List (Token D) → ExprAST D → Prop where
  | identifier {tok : Token D} : tok.kind = .identifier → Spells [tok] (.variableExpr tok.lexeme)
  | integer {tok : Token D} {val : Int} : tok.kind = .integer → tok.literal = .int val →
      Spells [tok] (.numberExpr (ofInt val))
  | float {tok : Token D} {val : D} : tok.kind = .float → tok.literal = .double val →
      Spells [tok] (.numberExpr val)
  | paren {opening closing : Token D} {ts : List (Token D)} {e : ExprAST D} :
      opening.kind = .lParen → Spells ts e → closing.kind = .rParen →
      Spells (opening :: (ts ++ [closing])) e
  | callNone {tok opening closing : Token D} : tok.kind = .identifier → opening.kind = .lParen →
      closing.kind = .rParen → Spells [tok, opening, closing] (.callExpr tok.lexeme [])
  | call {tok opening closing : Token D} {ts : List (Token D)} {args : List (ExprAST D)} :
      tok.kind = .identifier → opening.kind = .lParen → SpellsArgs ts args →
      closing.kind = .rParen →
      Spells (tok :: opening :: (ts ++ [closing])) (.callExpr tok.lexeme args)
  | unary {tok : Token D} {op : Byte} {ts : List (Token D)} {e : ExprAST D} :
      isAthensOperatorToken tok.kind = true → tok.lexeme = [op] → Spells ts e →
      Spells (tok :: ts) (.unaryExpr op e)
  | binary {tok : Token D} {op : Byte} {l r : List (Token D)} {lhs rhs : ExprAST D} :
      isAthensOperatorToken tok.kind = true → tok.lexeme = [op] → Spells l lhs → Spells r rhs →
      Spells (l ++ tok :: r) (.binaryExpr op lhs rhs)
  | ifExpr {kwIf kwThen kwElse : Token D} {c t e : List (Token D)} {cond then_ else_ : ExprAST D} :
      kwIf.kind = .kwIf → Spells c cond → kwThen.kind = .kwThen → Spells t then_ →
      kwElse.kind = .kwElse → Spells e else_ →
      Spells (kwIf :: (c ++ kwThen :: (t ++ kwElse :: e))) (.ifExpr cond then_ else_)
  | forExpr {kwFor name equal comma kwIn : Token D} {s e st b : List (Token D)}
      {start end_ step body : ExprAST D} :
      kwFor.kind = .kwFor → name.kind = .identifier → equal.kind = .equal → Spells s start →
      comma.kind = .comma → Spells e end_ → SpellsOptional .comma st step → kwIn.kind = .kwIn →
      Spells b body →
      Spells (kwFor :: name :: equal :: (s ++ comma :: (e ++ (st ++ kwIn :: b))))
        (.forExpr name.lexeme start end_ step body)
  | varExpr {kwVar kwIn : Token D} {bs b : List (Token D)} {varNames : List (Name × ExprAST D)}
      {body : ExprAST D} : kwVar.kind = .kwVar → SpellsBindings bs varNames → kwIn.kind = .kwIn →
      Spells b body → Spells (kwVar :: (bs ++ kwIn :: b)) (.varExpr varNames body)

/-- One or more arguments with commas between them. -/
inductive SpellsArgs : List (Token D) → List (ExprAST D) → Prop where
  | lastArg {ts : List (Token D)} {e : ExprAST D} : Spells ts e → SpellsArgs ts [e]
  | moreArgs {ts us : List (Token D)} {comma : Token D} {e : ExprAST D} {args : List (ExprAST D)} :
      Spells ts e → comma.kind = .comma → SpellsArgs us args →
      SpellsArgs (ts ++ comma :: us) (e :: args)

/-- Nothing, or an expression behind a token of the given kind. -/
inductive SpellsOptional : TokenKind → List (Token D) → ExprAST D → Prop where
  | absent {kind : TokenKind} : SpellsOptional kind [] .null
  | present {tok : Token D} {ts : List (Token D)} {e : ExprAST D} : Spells ts e →
      SpellsOptional tok.kind (tok :: ts) e

/-- One or more bindings with commas between them. -/
inductive SpellsBindings : List (Token D) → List (Name × ExprAST D) → Prop where
  | lastBinding {name : Token D} {ts : List (Token D)} {init : ExprAST D} :
      name.kind = .identifier →
      SpellsOptional .equal ts init → SpellsBindings (name :: ts) [(name.lexeme, init)]
  | moreBindings {name comma : Token D} {ts us : List (Token D)} {init : ExprAST D}
      {bs : List (Name × ExprAST D)} : name.kind = .identifier → SpellsOptional .equal ts init →
      comma.kind = .comma → SpellsBindings us bs →
      SpellsBindings (name :: (ts ++ comma :: us)) ((name.lexeme, init) :: bs)

end

/-- The optional precedence of a binary operator. -/
inductive SpellsPrecedence : List (Token D) → Nat → Prop where
  | default : SpellsPrecedence [] 30
  | given {tok : Token D} {val : Int} : tok.kind = .integer → tok.literal = .int val → 1 ≤ val →
      val ≤ 100 → SpellsPrecedence [tok] val.toNat

/-- The part of a prototype before its parameters. -/
inductive SpellsHead : List (Token D) → AthensGrammarPack.PrototypeHead → Prop where
  | function {name : Token D} : name.kind = .identifier → SpellsHead [name] ⟨name.lexeme, 0, 30⟩
  | unary {kw tok : Token D} {op : Byte} : kw.kind = .kwUnaryOp →
      isAthensOperatorToken tok.kind = true → tok.lexeme = [op] →
      SpellsHead [kw, tok] ⟨text "unary" ++ [op], 1, 30⟩
  | binary {kw tok : Token D} {op : Byte} {ps : List (Token D)} {precedence : Nat} :
      kw.kind = .kwBinaryOp → isAthensOperatorToken tok.kind = true → tok.lexeme = [op] →
      SpellsPrecedence ps precedence →
      SpellsHead (kw :: tok :: ps) ⟨text "binary" ++ [op], 2, precedence⟩

/-- An operator has as many parameters as operands, a function any number. -/
inductive SpellsPrototype : List (Token D) → PrototypeAST → Prop where
  | mk {hs params : List (Token D)} {opening closing : Token D}
      {head : AthensGrammarPack.PrototypeHead} : SpellsHead hs head → opening.kind = .lParen →
      (∀ tok ∈ params, tok.kind = .identifier) → closing.kind = .rParen →
      (head.kind ≠ 0 → params.length = head.kind) →
      SpellsPrototype (hs ++ opening :: (params ++ [closing]))
        ⟨head.name, params.map (·.lexeme), head.kind != 0, head.precedence⟩

inductive SpellsItem : List (Token D) → AthensParsedItem D → Prop where
  | definition {kw : Token D} {ps ts : List (Token D)} {proto : PrototypeAST} {body : ExprAST D} :
      kw.kind = .kwFuncDef → SpellsPrototype ps proto → Spells ofInt ts body →
      SpellsItem (kw :: (ps ++ ts)) { function := some ⟨proto, body⟩ }
  | extern_ {kw : Token D} {ps : List (Token D)} {proto : PrototypeAST} :
      kw.kind = .kwExtern → SpellsPrototype ps proto →
      SpellsItem (kw :: ps) { prototype := some proto }

end

/-- Every child that code generation dereferences unconditionally is there. -/
inductive ExprAST.Complete : ExprAST D → Prop where
  | numberExpr (val : D) : Complete (.numberExpr val)
  | variableExpr (name : Name) : Complete (.variableExpr name)
  | unaryExpr {op : Byte} {operand : ExprAST D} : Complete operand →
      Complete (.unaryExpr op operand)
  | binaryExpr {op : Byte} {lhs rhs : ExprAST D} : Complete lhs → Complete rhs →
      Complete (.binaryExpr op lhs rhs)
  | callExpr {callee : Name} {args : List (ExprAST D)} : (∀ a ∈ args, Complete a) →
      Complete (.callExpr callee args)
  | ifExpr {cond then_ else_ : ExprAST D} : Complete cond → Complete then_ → Complete else_ →
      Complete (.ifExpr cond then_ else_)
  | forExpr {varName : Name} {start end_ step body : ExprAST D} : Complete start →
      Complete end_ → (step ≠ .null → Complete step) → Complete body →
      Complete (.forExpr varName start end_ step body)
  | varExpr {varNames : List (Name × ExprAST D)} {body : ExprAST D} :
      (∀ b ∈ varNames, b.2 ≠ .null → Complete b.2) → Complete body →
      Complete (.varExpr varNames body)

theorem ExprAST.Complete.ne_null {e : ExprAST D} (h : e.Complete) : e ≠ .null := by
  rintro rfl
  cases h

variable {ofInt : Int → D}

/-- What is spelled by tokens is complete. -/
theorem Spells.complete {ts : List (Token D)} {e : ExprAST D} (h : Spells ofInt ts e) :
    e.Complete := by
  induction h using Spells.rec
    (motive_2 := fun _ args _ => ∀ a ∈ args, a.Complete)
    (motive_3 := fun _ _ e _ => e ≠ .null → e.Complete)
    (motive_4 := fun _ bs _ => ∀ b ∈ bs, b.2 ≠ .null → b.2.Complete) with
  | identifier => exact .variableExpr _
  | integer => exact .numberExpr _
  | float => exact .numberExpr _
  | paren _ _ _ ih => exact ih
  | callNone => exact .callExpr (by simp)
  | call _ _ _ _ ih => exact .callExpr ih
  | unary _ _ _ ih => exact .unaryExpr ih
  | binary _ _ _ _ ihl ihr => exact .binaryExpr ihl ihr
  | ifExpr _ _ _ _ _ _ ihc iht ihe => exact .ifExpr ihc iht ihe
  | forExpr _ _ _ _ _ _ _ _ _ ihs ihe ihst ihb => exact .forExpr ihs ihe ihst ihb
  | varExpr _ _ _ _ ihbs ihb => exact .varExpr ihbs ihb
  | lastArg _ ih =>
    rename_i ha
    exact List.mem_singleton.mp ha ▸ ih
  | moreArgs _ _ _ ih iha =>
    rename_i ha
    rcases List.mem_cons.mp ha with rfl | ha
    · exact ih
    · exact iha _ ha
  | absent => contradiction
  | present _ ih => exact ih
  | lastBinding _ _ ih =>
    rename_i hb hne
    obtain rfl := List.mem_singleton.mp hb
    exact ih hne
  | moreBindings _ _ _ _ ih ihbs =>
    rename_i hb hne
    rcases List.mem_cons.mp hb with rfl | hb
    · exact ih hne
    · exact ihbs _ hb hne

/-- Every operator token is one character long. -/
def Narrow (ts : List (Token D)) : Prop :=
  ∀ tok ∈ ts, isAthensOperatorToken tok.kind = true → tok.lexeme.length = 1

/-- Every `=` token is one character long, as the lexer makes them. -/
def NarrowEqual (ts : List (Token D)) : Prop :=
  ∀ tok ∈ ts, tok.kind = .equal → tok.lexeme.length = 1

instance (ts : List (Token D)) : Decidable (Narrow ts) :=
  inferInstanceAs (Decidable (∀ tok ∈ ts, _ → _))

instance (ts : List (Token D)) : Decidable (NarrowEqual ts) :=
  inferInstanceAs (Decidable (∀ tok ∈ ts, _ → _))

theorem narrow_nil : Narrow ([] : List (Token D)) := by simp [Narrow]

theorem narrow_cons {tok : Token D} {ts : List (Token D)} : Narrow (tok :: ts) ↔
    (isAthensOperatorToken tok.kind = true → tok.lexeme.length = 1) ∧ Narrow ts := by
  simp [Narrow]

theorem narrow_append {ts us : List (Token D)} : Narrow (ts ++ us) ↔ Narrow ts ∧ Narrow us := by
  simp only [Narrow, List.forall_mem_append]

theorem narrowEqual_cons {tok : Token D} {ts : List (Token D)} : NarrowEqual (tok :: ts) ↔
    (tok.kind = .equal → tok.lexeme.length = 1) ∧ NarrowEqual ts := by
  simp [NarrowEqual]

theorem narrowEqual_append {ts us : List (Token D)} :
    NarrowEqual (ts ++ us) ↔ NarrowEqual ts ∧ NarrowEqual us := by
  simp only [NarrowEqual, List.forall_mem_append]

/-- No operator of two characters spells anything. -/
theorem Spells.narrow {ts : List (Token D)} {e : ExprAST D} (h : Spells ofInt ts e)
    (heq : NarrowEqual ts) : Narrow ts := by
  induction h using Spells.rec
    (motive_2 := fun ts _ _ => NarrowEqual ts → Narrow ts)
    (motive_3 := fun kind ts _ _ => (kind = .equal ∨ kind = .comma) → NarrowEqual ts → Narrow ts)
    (motive_4 := fun ts _ _ => NarrowEqual ts → Narrow ts) with
  | identifier hk => simp [Narrow, hk, isAthensOperatorToken]
  | integer hk => simp [Narrow, hk, isAthensOperatorToken]
  | float hk => simp [Narrow, hk, isAthensOperatorToken]
  | paren ho _ hc ih =>
    simp only [narrowEqual_cons, narrowEqual_append] at heq
    simp [narrow_cons, narrow_append, ho, hc, isAthensOperatorToken, ih heq.2.1, narrow_nil]
  | callNone hk ho hc => simp [Narrow, hk, ho, hc, isAthensOperatorToken]
  | call hk ho _ hc ih =>
    simp only [narrowEqual_cons, narrowEqual_append] at heq
    simp [narrow_cons, narrow_append, hk, ho, hc, isAthensOperatorToken, ih heq.2.2.1, narrow_nil]
  | unary _ hlex _ ih =>
    simp only [narrowEqual_cons] at heq
    simp [narrow_cons, hlex, ih heq.2]
  | binary _ hlex _ _ ihl ihr =>
    simp only [narrowEqual_cons, narrowEqual_append] at heq
    simp [narrow_cons, narrow_append, hlex, ihl heq.1, ihr heq.2.2]
  | ifExpr h1 _ h2 _ h3 _ ihc iht ihe =>
    simp only [narrowEqual_cons, narrowEqual_append] at heq
    simp [narrow_cons, narrow_append, h1, h2, h3, isAthensOperatorToken, ihc heq.2.1,
      iht heq.2.2.2.1, ihe heq.2.2.2.2.2]
  | forExpr h1 h2 h3 _ h4 _ _ h5 _ ihs ihe ihst ihb =>
    simp only [narrowEqual_cons, narrowEqual_append] at heq
    obtain ⟨-, -, hlen, hs, -, he, hst, -, hb⟩ := heq
    simp [narrow_cons, narrow_append, h1, h2, h3, h4, h5, isAthensOperatorToken, hlen h3, ihs hs,
      ihe he, ihst (.inr rfl) hst, ihb hb]
  | varExpr h1 _ h2 _ ihbs ihb =>
    simp only [narrowEqual_cons, narrowEqual_append] at heq
    simp [narrow_cons, narrow_append, h1, h2, isAthensOperatorToken, ihbs heq.2.1, ihb heq.2.2.2]
  | lastArg _ ih => exact ih (by assumption)
  | moreArgs _ hc _ ih iha =>
    rename_i heq
    simp only [narrowEqual_cons, narrowEqual_append] at heq
    simp [narrow_cons, narrow_append, hc, isAthensOperatorToken, ih heq.1, iha heq.2.2]
  | absent => exact narrow_nil
  | present _ ih =>
    rename_i hkind heq
    simp only [narrowEqual_cons] at heq
    refine narrow_cons.mpr ⟨?_, ih heq.2⟩
    rcases hkind with hkind | hkind
    · exact fun _ => heq.1 hkind
    · simp [hkind, isAthensOperatorToken]
  | lastBinding hk _ ih =>
    rename_i heq
    simp only [narrowEqual_cons] at heq
    simp [narrow_cons, hk, isAthensOperatorToken, ih (.inl rfl) heq.2]
  | moreBindings hk _ hc _ ih ihbs =>
    rename_i heq
    simp only [narrowEqual_cons, narrowEqual_append] at heq
    simp [narrow_cons, narrow_append, hk, hc, isAthensOperatorToken, ih (.inl rfl) heq.2.1,
      ihbs heq.2.2.2]

/-- Prototypes test the length of their operator themselves. -/
theorem SpellsHead.narrow {ts : List (Token D)} {head : AthensGrammarPack.PrototypeHead}
    (h : SpellsHead ts head) : Narrow ts := by
  cases h with
  | function hk => simp [Narrow, hk, isAthensOperatorToken]
  | unary hk _ hlex => simp [narrow_cons, hk, hlex, isAthensOperatorToken, narrow_nil]
  | binary hk _ hlex hps =>
    simp only [narrow_cons, hk, hlex, isAthensOperatorToken]
    cases hps with
    | default => simp [narrow_nil]
    | given hint _ _ _ => simp [narrow_cons, hint, isAthensOperatorToken, narrow_nil]

theorem SpellsPrototype.narrow {ts : List (Token D)} {proto : PrototypeAST}
    (h : SpellsPrototype ts proto) : Narrow ts := by
  cases h with
  | @mk hs params _ _ _ hhead ho hparams hc _ =>
    have hnames : Narrow params := fun tok htok hop => by
      rw [hparams tok htok] at hop
      cases hop
    simp [narrow_cons, narrow_append, ho, hc, isAthensOperatorToken, hnames, hhead.narrow,
      narrow_nil]

theorem SpellsItem.narrow {ts : List (Token D)} {item : AthensParsedItem D}
    (h : SpellsItem ofInt ts item) (heq : NarrowEqual ts) : Narrow ts := by
  cases h with
  | definition hk hps hts =>
    simp only [narrowEqual_cons, narrowEqual_append] at heq
    simp [narrow_cons, narrow_append, hk, isAthensOperatorToken, hps.narrow, hts.narrow heq.2.2]
  | extern_ hk hps => simp [narrow_cons, hk, isAthensOperatorToken, hps.narrow]

end AroundTheWorld.Athens
