import AroundTheWorld.Dublin.EmitterCorrect

/-!
# Which expressions are legal

`typeOf` is the typing behind the emitter, without the emission: the type of an
expression in a place where a type is expected, or none. The left operand of an
operator is typed from the place of the operator and the right one from the left
one. A literal has the type that is expected of it, or 32 bits; nothing else looks
at the expected type, so that it matters only for what begins with a literal.
-/

namespace AroundTheWorld.Dublin

open AroundTheWorld.Lex AroundTheWorld.Smt

abbrev IsArithmetic (op : Text) : Prop := op = text "+" ∨ op = text "-" ∨ op = text "*"

abbrev IsEquality (op : Text) : Prop := op = text "==" ∨ op = text "!="

abbrev IsComparison (op : Text) : Prop :=
  op = text "<" ∨ op = text "<=" ∨ op = text ">" ∨ op = text ">="

def literalType (expected : Option Ty) : Option Ty :=
  if expected.getD (.bv 32) = .bool then none else some (expected.getD (.bv 32))

def unaryType (op : Text) (operand : Ty) : Option Ty :=
  if op = text "!" then if operand = .bool then some .bool else none
  else if op = text "-" then if operand = .bool then none else some operand
  else none

def comparisonType (l r : Ty) : Option Ty := if l = r ∧ l ≠ .bool then some .bool else none

def binaryType (op : Text) (l r : Ty) : Option Ty :=
  if IsArithmetic op then if l = r ∧ l ≠ .bool then some l else none
  else if IsEquality op then if l = r then some .bool else none
  else if IsComparison op then comparisonType l r
  else none

/-- The types of two operands, the right one with that of the left one expected. -/
def operandTypes (lhs rhs : Option Ty → Option Ty) (expected : Option Ty) : Option (Ty × Ty) :=
  (lhs expected).bind fun l => (rhs (some l)).map fun r => (l, r)

def callType (callee : Text) : List (Option Ty → Option Ty) → Option Ty
  | [lhs, rhs] =>
    if (findPred callee).isSome then
      (operandTypes lhs rhs none).bind fun p => comparisonType p.1 p.2
    else none
  | _ => none

/-- The type that is expected of the operand. -/
def operandExpected (op : Text) (expected : Option Ty) : Option Ty :=
  if op = text "!" then some .bool else expected

mutual

def typeOf (Γ : ArgTypes) : Expr → Option Ty → Option Ty
  | .null, _ => none
  | .integer _, expected => literalType expected
  | .bool _, _ => some .bool
  | .variable_ name, _ => Γ name
  | .unary op operand, expected =>
    (typeOf Γ operand (operandExpected op expected)).bind (unaryType op)
  | .binary op lhs rhs, expected =>
    (operandTypes (typeOf Γ lhs) (typeOf Γ rhs) expected).bind fun p => binaryType op p.1 p.2
  | .call callee args, _ => callType callee (typesOf Γ args)

def typesOf (Γ : ArgTypes) : List Expr → List (Option Ty → Option Ty)
  | [] => []
  | arg :: args => typeOf Γ arg :: typesOf Γ args

end

/-! ## What a legal expression is made of -/

section
variable {Γ : ArgTypes} {op callee : Text} {e lhs rhs : Expr} {expected : Option Ty} {τ l r : Ty}

theorem literalType_some (h : literalType expected = some τ) :
    expected.getD (.bv 32) = τ ∧ τ ≠ .bool := by
  unfold literalType at h
  split at h
  · cases h
  · rename_i hne
    cases h
    exact ⟨rfl, hne⟩

/-- `!` takes and gives a truth value, `-` a bitvector. -/
theorem unaryType_some {operand : Ty} (h : unaryType op operand = some τ) :
    operand = τ ∧ (op = text "!" ∧ τ = .bool ∨ op = text "-" ∧ τ ≠ .bool) := by
  unfold unaryType at h
  split at h
  · rename_i hnot
    split at h
    · rename_i hbool
      cases h
      exact ⟨hbool, .inl ⟨hnot, rfl⟩⟩
    · cases h
  split at h
  · rename_i hneg
    split at h
    · cases h
    · rename_i hbv
      cases h
      exact ⟨rfl, .inr ⟨hneg, hbv⟩⟩
  · cases h

theorem comparisonType_some (h : comparisonType l r = some τ) :
    l = r ∧ l ≠ .bool ∧ τ = .bool := by
  unfold comparisonType at h
  split at h
  · rename_i hlr
    cases h
    exact ⟨hlr.1, hlr.2, rfl⟩
  · cases h

/-- The operands of an operator have one type. -/
theorem binaryType_some (h : binaryType op l r = some τ) :
    l = r ∧ (IsArithmetic op ∧ τ = l ∧ l ≠ .bool ∨
      ¬ IsArithmetic op ∧ τ = .bool ∧ (IsEquality op ∨ IsComparison op ∧ l ≠ .bool)) := by
  unfold binaryType at h
  by_cases harith : IsArithmetic op
  · rw [if_pos harith] at h
    split at h
    · rename_i hlr
      cases h
      exact ⟨hlr.1, .inl ⟨harith, rfl, hlr.2⟩⟩
    · cases h
  rw [if_neg harith] at h
  by_cases hequal : IsEquality op
  · rw [if_pos hequal] at h
    split at h
    · rename_i hlr
      cases h
      exact ⟨hlr, .inr ⟨harith, rfl, .inl hequal⟩⟩
    · cases h
  rw [if_neg hequal] at h
  by_cases hcompare : IsComparison op
  · rw [if_pos hcompare] at h
    obtain ⟨hlr, hbv, hτ⟩ := comparisonType_some h
    exact ⟨hlr, .inr ⟨harith, hτ, .inr ⟨hcompare, hbv⟩⟩⟩
  · rw [if_neg hcompare] at h
    cases h

theorem operandTypes_some {left right : Option Ty → Option Ty}
    (h : operandTypes left right expected = some (l, r)) :
    left expected = some l ∧ right (some l) = some r := by
  obtain ⟨l', hl, h⟩ := Option.bind_eq_some_iff.mp h
  obtain ⟨r', hr, h⟩ := Option.map_eq_some_iff.mp h
  cases h
  exact ⟨hl, hr⟩

theorem typeOf_unary_some (h : typeOf Γ (.unary op e) expected = some τ) :
    typeOf Γ e (operandExpected op expected) = some τ ∧
      (op = text "!" ∧ τ = .bool ∨ op = text "-" ∧ τ ≠ .bool) := by
  rw [typeOf] at h
  obtain ⟨operand, hoperand, h⟩ := Option.bind_eq_some_iff.mp h
  obtain ⟨rfl, hop⟩ := unaryType_some h
  exact ⟨hoperand, hop⟩

theorem typeOf_binary_some (h : typeOf Γ (.binary op lhs rhs) expected = some τ) :
    ∃ l, typeOf Γ lhs expected = some l ∧ typeOf Γ rhs (some l) = some l ∧
      (IsArithmetic op ∧ τ = l ∧ l ≠ .bool ∨
        ¬ IsArithmetic op ∧ τ = .bool ∧ (IsEquality op ∨ IsComparison op ∧ l ≠ .bool)) := by
  rw [typeOf] at h
  obtain ⟨⟨l, r⟩, hoperands, h⟩ := Option.bind_eq_some_iff.mp h
  obtain ⟨hl, hr⟩ := operandTypes_some hoperands
  obtain ⟨hlr, hop⟩ : l = r ∧ _ := binaryType_some h
  subst hlr
  exact ⟨l, hl, hr, hop⟩

theorem typeOf_call_some {args : List Expr} (h : typeOf Γ (.call callee args) expected = some τ) :
    ∃ lhs rhs l, args = [lhs, rhs] ∧ (∃ pred, findPred callee = some pred) ∧
      typeOf Γ lhs none = some l ∧ typeOf Γ rhs (some l) = some l ∧ l ≠ .bool ∧ τ = .bool := by
  rw [typeOf] at h
  match args with
  | [] => cases h
  | [_] => cases h
  | _ :: _ :: _ :: _ => cases h
  | [lhs, rhs] =>
    simp only [typesOf, callType] at h
    split at h
    · rename_i hpred
      obtain ⟨⟨l, r⟩, hoperands, h⟩ := Option.bind_eq_some_iff.mp h
      obtain ⟨hl, hr⟩ := operandTypes_some hoperands
      obtain ⟨hlr, hbv, hτ⟩ : l = r ∧ _ := comparisonType_some h
      subst hlr
      exact ⟨lhs, rhs, l, rfl, Option.isSome_iff_exists.mp hpred, hl, hr, hbv, hτ⟩
    · cases h

/-! ## What begins with a literal -/

/-- The first operand, and its first operand in turn, is a literal, possibly
behind a minus. -/
def Expr.beginsWithLiteral : Expr → Bool
  | .integer _ => true
  | .unary op operand => op != text "!" && operand.beginsWithLiteral
  | .binary _ lhs _ => lhs.beginsWithLiteral
  | _ => false

/-- Where no type is expected, 32 bits are. -/
theorem typeOf_default (Γ : ArgTypes) (e : Expr) (expected : Option Ty) :
    typeOf Γ e expected = typeOf Γ e (some (expected.getD (.bv 32))) := by
  induction e using Expr.induction generalizing expected with
  | null => rfl
  | integer value => rfl
  | bool value => rfl
  | variable_ name => rfl
  | call callee args ih => rfl
  | unary op operand ih =>
    rw [typeOf, typeOf]
    unfold operandExpected
    split
    · rfl
    · rw [ih]
  | binary op lhs rhs ihl ihr =>
    rw [typeOf, typeOf]
    unfold operandTypes
    rw [ihl]

/-- The expected type does not matter for what begins with anything else. -/
theorem typeOf_of_not_literal (h : e.beginsWithLiteral = false) (expected expected' : Option Ty) :
    typeOf Γ e expected = typeOf Γ e expected' := by
  induction e using Expr.induction generalizing expected expected' with
  | null => rfl
  | integer value => cases h
  | bool value => rfl
  | variable_ name => rfl
  | call callee args ih => rfl
  | unary op operand ih =>
    rw [typeOf, typeOf]
    unfold operandExpected
    by_cases hnot : op = text "!"
    · rw [if_pos hnot, if_pos hnot]
    · rw [Expr.beginsWithLiteral, bne_iff_ne.mpr hnot, Bool.true_and] at h
      rw [if_neg hnot, if_neg hnot, ih h expected expected']
  | binary op lhs rhs ihl ihr =>
    rw [Expr.beginsWithLiteral] at h
    rw [typeOf, typeOf]
    unfold operandTypes
    rw [ihl h expected expected']

/-- What begins with a literal is legal only where bitvectors are expected, and
then of the expected type, or has a truth value. -/
theorem typeOf_literal (h : e.beginsWithLiteral = true) (hτ : typeOf Γ e expected = some τ) :
    expected.getD (.bv 32) ≠ .bool ∧ (τ = expected.getD (.bv 32) ∨ τ = .bool) := by
  induction e using Expr.induction generalizing expected τ with
  | null => cases h
  | integer value =>
    obtain ⟨hexpected, hbv⟩ := literalType_some hτ
    exact ⟨hexpected ▸ hbv, .inl hexpected.symm⟩
  | bool value => cases h
  | variable_ name => cases h
  | call callee args ih => cases h
  | unary op operand ih =>
    rw [Expr.beginsWithLiteral, Bool.and_eq_true, bne_iff_ne] at h
    have hoperand := (typeOf_unary_some hτ).1
    rw [operandExpected, if_neg h.1] at hoperand
    exact ih h.2 hoperand
  | binary op lhs rhs ihl ihr =>
    rw [Expr.beginsWithLiteral] at h
    obtain ⟨l, hl, -, hop⟩ := typeOf_binary_some hτ
    obtain ⟨hexpected, hl⟩ := ihl h hl
    refine ⟨hexpected, ?_⟩
    rcases hop with ⟨-, rfl, -⟩ | ⟨-, hbool, -⟩
    · exact hl
    · exact .inr hbool

/-- Where a truth value is expected, nothing that begins with a literal is legal. -/
theorem typeOf_literal_bool (h : e.beginsWithLiteral = true) :
    typeOf Γ e (some .bool) = none := by
  rw [Option.eq_none_iff_forall_not_mem]
  intro τ hτ
  exact (typeOf_literal h hτ).1 rfl

/-! ## Legal expressions have values -/

theorem compareAt_some {f : {w : Nat} → BitVec w → BitVec w → Option Bool} {left right : Meaning}
    (hbv : τ ≠ .bool) (hf : ∀ w (x y : BitVec w), ∃ b, f x y = some b)
    (hl : ∃ x, left τ = some x) (hr : ∃ y, right τ = some y) :
    ∃ b, compareAt f left right τ = some b := by
  cases τ with
  | bool => exact absurd rfl hbv
  | bv w =>
    obtain ⟨x, hx⟩ := hl
    obtain ⟨y, hy⟩ := hr
    obtain ⟨b, hb⟩ := hf w x y
    exact ⟨b, by rw [compareAt, hx, hy]; exact hb⟩

theorem evalRelation_some {left right : Meaning} (hop : IsEquality op ∨ IsComparison op ∧ τ ≠ .bool)
    (hl : ∃ x, left τ = some x) (hr : ∃ y, right τ = some y) :
    ∃ b, evalRelation op left right τ = some b := by
  rcases hop with hequal | ⟨hcompare, hbv⟩
  · obtain ⟨x, hx⟩ := hl
    obtain ⟨y, hy⟩ := hr
    rcases hequal with rfl | rfl
    · exact ⟨decide (x = y), by rw [evalRelation, if_pos rfl, equalAt, hx, hy]; rfl⟩
    · exact ⟨!decide (x = y), by
        rw [evalRelation, if_neg (by decide), if_pos rfl, equalAt, hx, hy]; rfl⟩
  · have hcomparison := compareAt_some (f := compare op) hbv (fun w x y => by
      rcases hcompare with rfl | rfl | rfl | rfl <;> exact ⟨_, rfl⟩) hl hr
    obtain ⟨b, hb⟩ := hcomparison
    refine ⟨b, ?_⟩
    rw [evalRelation, if_neg (by rcases hcompare with rfl | rfl | rfl | rfl <;> decide),
      if_neg (by rcases hcompare with rfl | rfl | rfl | rfl <;> decide)]
    exact hb

end

/-- A legal expression has the type of its own, or for literals the expected one,
and a value at this type under every valuation. -/
theorem typeOf_sound {Γ : ArgTypes} {e : Expr} {expected : Option Ty} {τ : Ty}
    (h : typeOf Γ e expected = some τ) (hfits : Fits expected τ) :
    TypedAs (ownType Γ e) expected τ ∧ ∀ ρ, ∃ x, eval Γ ρ e τ = some x := by
  induction e using Expr.induction generalizing expected τ with
  | null => cases h
  | integer value =>
    obtain ⟨hexpected, hbv⟩ := literalType_some h
    refine ⟨.inr ⟨rfl, hexpected, hbv⟩, fun ρ => ?_⟩
    cases τ with
    | bool => exact absurd rfl hbv
    | bv w => exact ⟨_, rfl⟩
  | bool value =>
    cases h
    exact ⟨.inl rfl, fun ρ => ⟨_, rfl⟩⟩
  | variable_ name =>
    refine ⟨.inl h, fun ρ => ⟨ρ name τ, ?_⟩⟩
    rw [eval]
    exact if_pos h
  | call callee args ih =>
    obtain ⟨lhs, rhs, l, rfl, ⟨pred, hpred⟩, hl, hr, hbv, rfl⟩ := typeOf_call_some h
    obtain ⟨htl, hvl⟩ := ih lhs (by simp) hl (.inl rfl)
    obtain ⟨htr, hvr⟩ := ih rhs (by simp) hr (fits_some l)
    refine ⟨.inl rfl, fun ρ => ?_⟩
    have hcomparison := compareAt_some (f := compareUnsigned callee) hbv
      (fun w x y => ⟨_, findPred_some hpred x y⟩) (hvl ρ) (hvr ρ)
    rw [← htl.commonType htr (.inl rfl)] at hcomparison
    exact hcomparison
  | unary op operand ih =>
    obtain ⟨hoperand, hop⟩ := typeOf_unary_some h
    rcases hop with ⟨rfl, rfl⟩ | ⟨rfl, hbv⟩
    · obtain ⟨-, hv⟩ := ih hoperand (fits_some _)
      refine ⟨.inl rfl, fun ρ => ?_⟩
      obtain ⟨b, hb⟩ := hv ρ
      exact ⟨!b, by rw [eval, if_pos rfl, hb]; rfl⟩
    · obtain ⟨ht, hv⟩ := ih hoperand hfits
      refine ⟨by rw [ownType, if_pos rfl]; exact ht, fun ρ => ?_⟩
      obtain ⟨x, hx⟩ := hv ρ
      cases τ with
      | bool => exact absurd rfl hbv
      | bv w => exact ⟨-x, by rw [eval, if_pos rfl, hx]; rfl⟩
  | binary op lhs rhs ihl ihr =>
    obtain ⟨l, hl, hr, hop⟩ := typeOf_binary_some h
    obtain ⟨htr, hvr⟩ := ihr hr (fits_some l)
    rcases hop with ⟨harith, rfl, hbv⟩ | ⟨harith, rfl, hop⟩
    · obtain ⟨htl, hvl⟩ := ihl hl hfits
      refine ⟨by rw [ownType, if_pos harith]; exact htl.or htr, fun ρ => ?_⟩
      obtain ⟨x, hx⟩ := hvl ρ
      obtain ⟨y, hy⟩ := hvr ρ
      cases τ with
      | bool => exact absurd rfl hbv
      | bv w =>
        rw [eval, hx, hy]
        rcases harith with rfl | rfl | rfl
        all_goals exact ⟨_, rfl⟩
    · obtain ⟨htl, hvl⟩ := ihl hl (hfits.of_bool l)
      refine ⟨.inl (ownType_relation harith), fun ρ => ?_⟩
      rw [eval, htl.commonType htr hfits]
      exact evalRelation_some hop (hvl ρ) (hvr ρ)

end AroundTheWorld.Dublin
