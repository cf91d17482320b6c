import AroundTheWorld.Athens.Definition

/-!
# What a turn of the driver hands on

A turn of the loop of `ParseStream` parses at most one item and hands it to one of
the three handlers, unless something was reported. Statements about sessions split
on this and look at the handlers only.
-/

namespace AroundTheWorld.Athens

open AroundTheWorld.Base AroundTheWorld.Lex AroundTheWorld.Llvm AroundTheWorld.Parse

variable {D : Type}

/-- An AST, and with it the handler that it is moved into. -/
inductive Handed (D : Type) where
  | definition (fnAST : FunctionAST D)
  | extern_ (protoAST : PrototypeAST)
  | expression (expr : ExprAST D)

/-- The function that is generated for an expression. -/
def anonymousFunction (expr : ExprAST D) : FunctionAST D :=
  ⟨⟨text "__anon_expr", [], false, 0⟩, expr⟩

def AthensParsedItem.handed (item : AthensParsedItem D) : Option (Handed D) :=
  (item.function.map .definition).or (item.prototype.map .extern_)

section
variable (ops : FloatOps D) (jit : List (FunctionIR D) → Bool) (ofInt : Int → D) (fuel : Nat)

def Handed.handle : Handed D → SessionGen D Bool
  | .definition fnAST => handleDefinition ops jit fnAST
  | .extern_ protoAST => handleExtern protoAST
  | .expression expr => handleTopLevelExpression ops jit expr

/-- What the turn hands on, and the state of the parser behind it. -/
def Stream.handed (input : Stream D) (s : Session D) :
    Option (Handed D × ParseState D BinopTable) :=
  match (Parser.current (input.context s)).kind with
  | .eof | .semicolon => none
  | .kwFuncDef | .kwExtern =>
    (athensParseItem ofInt fuel (input.context s)).bind fun (item, σ) =>
      if σ.diag = [] then item.handed.map (·, σ) else none
  | _ =>
    ((athensEngine ofInt fuel).parseExpression 0 (input.context s)).bind fun (expr, σ) =>
      if σ.diag = [] then some (.expression expr, σ) else none

end

section
variable {ops : FloatOps D} {jit : List (FunctionIR D) → Bool} {ofInt : Int → D} {fuel : Nat}

theorem handleItem_handed (item : AthensParsedItem D) : handleItem ops jit item =
    match item.handed with
    | some x => x.handle ops jit
    | none => pure false := by
  unfold handleItem AthensParsedItem.handed
  cases item.function with
  | some f => rfl
  | none => cases item.prototype <;> rfl

/-- An item is handed on, or only leaves its table behind. -/
theorem itemTurn_cases (item : AthensParsedItem D) (σ : ParseState D BinopTable) (s : Session D) :
    (∃ table, finishTurn (handleItem ops jit item) σ s =
      .ok (.return_ false) (s.withTable table)) ∨
    ∃ x, (if σ.diag = [] then item.handed.map (·, σ) else none) = some (x, σ) ∧ σ.diag = [] ∧
      finishTurn (handleItem ops jit item) σ s = finishTurn (x.handle ops jit) σ s := by
  by_cases hdiag : σ.diag = []
  · rw [handleItem_handed, if_pos hdiag]
    cases item.handed with
    | some x => exact .inr ⟨x, rfl, hdiag, rfl⟩
    | none =>
      rw [finishTurn_eq hdiag]
      exact .inl ⟨σ.globals, rfl⟩
  · exact .inl ⟨σ.globals, finishTurn_reported hdiag⟩

theorem parseStreamTurn_ofItem {input : Stream D} {s : Session D}
    (h : (Parser.current (input.context s)).kind = .kwFuncDef ∨
      (Parser.current (input.context s)).kind = .kwExtern) :
    parseStreamTurn ops jit ofInt fuel input s =
      (athensParseItem ofInt fuel (input.context s)).map fun (item, σ) =>
        finishTurn (handleItem ops jit item) σ s := by
  unfold parseStreamTurn
  rcases h with h | h <;> rw [h]

theorem parseStreamTurn_ofExpression {input : Stream D} {s : Session D}
    (heof : (Parser.current (input.context s)).kind ≠ .eof)
    (hsemicolon : (Parser.current (input.context s)).kind ≠ .semicolon)
    (hdef : (Parser.current (input.context s)).kind ≠ .kwFuncDef)
    (hexternal : (Parser.current (input.context s)).kind ≠ .kwExtern) :
    parseStreamTurn ops jit ofInt fuel input s =
      ((athensEngine ofInt fuel).parseExpression 0 (input.context s)).map fun (expr, σ) =>
        finishTurn (handleTopLevelExpression ops jit expr) σ s := by
  unfold parseStreamTurn
  split <;> first | contradiction | rfl

/-- At an item or an expression, a turn records what the parser has installed, or does
what the handler does with what it is handed. -/
theorem parseStreamTurn_at {input : Stream D} {s : Session D}
    {r : Outcome (Session D) Halt (Turn D)}
    (h : parseStreamTurn ops jit ofInt fuel input s = some r)
    (heof : (Parser.current (input.context s)).kind ≠ .eof)
    (hsemicolon : (Parser.current (input.context s)).kind ≠ .semicolon) :
    (∃ table, r = .ok (.return_ false) (s.withTable table)) ∨
    ∃ x σ, input.handed ofInt fuel s = some (x, σ) ∧ σ.diag = [] ∧
      r = finishTurn (x.handle ops jit) σ s := by
  unfold parseStreamTurn at h
  split at h
  · contradiction
  · contradiction
  · rename_i hkind
    obtain ⟨⟨item, σ⟩, hparse, rfl⟩ := Option.map_eq_some_iff.mp h
    refine (itemTurn_cases item σ s).imp_right ?_
    rintro ⟨x, hx, hdiag, hr⟩
    refine ⟨x, σ, ?_, hdiag, hr⟩
    unfold Stream.handed
    rw [hkind]
    simp only [hparse, Option.bind_some, hx]
  · rename_i hkind
    obtain ⟨⟨item, σ⟩, hparse, rfl⟩ := Option.map_eq_some_iff.mp h
    refine (itemTurn_cases item σ s).imp_right ?_
    rintro ⟨x, hx, hdiag, hr⟩
    refine ⟨x, σ, ?_, hdiag, hr⟩
    unfold Stream.handed
    rw [hkind]
    simp only [hparse, Option.bind_some, hx]
  · obtain ⟨⟨expr, σ⟩, hparse, rfl⟩ := Option.map_eq_some_iff.mp h
    by_cases hdiag : σ.diag = []
    · refine .inr ⟨.expression expr, σ, ?_, hdiag, rfl⟩
      unfold Stream.handed
      split <;> first | contradiction | simp only [hparse, Option.bind_some, if_pos hdiag]
    · exact .inl ⟨σ.globals, finishTurn_reported hdiag⟩

/-- What is handed on is what the turn handles. -/
theorem parseStreamTurn_of_handed {input : Stream D} {s : Session D} {x : Handed D}
    {σ : ParseState D BinopTable} (h : input.handed ofInt fuel s = some (x, σ)) : σ.diag = [] ∧
      parseStreamTurn ops jit ofInt fuel input s = some (finishTurn (x.handle ops jit) σ s) := by
  have hitem : ((athensParseItem ofInt fuel (input.context s)).bind fun (item, σ) =>
      if σ.diag = [] then item.handed.map (·, σ) else none) = some (x, σ) →
      σ.diag = [] ∧ ((athensParseItem ofInt fuel (input.context s)).map fun (item, σ) =>
        finishTurn (handleItem ops jit item) σ s) = some (finishTurn (x.handle ops jit) σ s) := by
    intro h
    obtain ⟨⟨item, σ₁⟩, hparse, h⟩ := Option.bind_eq_some_iff.mp h
    dsimp only at h
    split at h
    · rename_i hdiag
      obtain ⟨y, hy, heq⟩ := Option.map_eq_some_iff.mp h
      obtain ⟨rfl, rfl⟩ := Prod.mk.inj heq
      refine ⟨hdiag, ?_⟩
      simp only [hparse, Option.map_some, handleItem_handed, hy]
    · cases h
  unfold Stream.handed at h
  split at h
  · cases h
  · cases h
  · rename_i hkind
    rw [parseStreamTurn_ofItem (.inl hkind)]
    exact hitem h
  · rename_i hkind
    rw [parseStreamTurn_ofItem (.inr hkind)]
    exact hitem h
  · rename_i heof hsemicolon hdef hexternal
    obtain ⟨⟨expr, σ₁⟩, hparse, h⟩ := Option.bind_eq_some_iff.mp h
    dsimp only at h
    split at h
    · rename_i hdiag
      obtain ⟨rfl, rfl⟩ := Prod.mk.inj (Option.some.inj h)
      refine ⟨hdiag, ?_⟩
      rw [parseStreamTurn_ofExpression heof hsemicolon hdef hexternal]
      simp only [hparse, Option.map_some, Handed.handle]
    · cases h

/-- A turn leaves the session alone, or records what the parser has installed, or
does what the handler does with what it is handed. -/
theorem parseStreamTurn_cases {input : Stream D} {s : Session D}
    {r : Outcome (Session D) Halt (Turn D)}
    (h : parseStreamTurn ops jit ofInt fuel input s = some r) :
    (∃ t, r = .ok t s) ∨ (∃ table, r = .ok (.return_ false) (s.withTable table)) ∨
    ∃ x σ, input.handed ofInt fuel s = some (x, σ) ∧ σ.diag = [] ∧
      r = finishTurn (x.handle ops jit) σ s := by
  by_cases heof : (Parser.current (input.context s)).kind = .eof
  · simp only [parseStreamTurn, heof] at h
    exact .inl ⟨_, (Option.some.inj h).symm⟩
  by_cases hsemicolon : (Parser.current (input.context s)).kind = .semicolon
  · simp only [parseStreamTurn, hsemicolon] at h
    exact .inl ⟨_, (Option.some.inj h).symm⟩
  · exact .inr (parseStreamTurn_at h heof hsemicolon)

end

end AroundTheWorld.Athens
