import AroundTheWorld.Dublin.Places
import AroundTheWorld.Dublin.Widths

/-!
# Negation and what is legal

The operand of `!`, and the right operand of an equality of truth values, are
emitted with a truth value expected. `emitBinary` hands this on to the left
operand of a comparison, where a literal then has no type; `emitCall` does not.
A comparison may be negated, or stand there, exactly when it does not begin with
a literal.
-/

namespace AroundTheWorld.Dublin

open AroundTheWorld.Lex AroundTheWorld.Smt

def Expr.not (e : Expr) : Expr := .unary (text "!") e

/-- The top, the operand of `!`, the right operand of `==` and `!=`, and such a
place in such a place. -/
def Place.Logical : Place → Prop
  | .here => True
  | .unary op inner => op = text "!" ∧ inner.Logical
  | .right op _ inner => IsEquality op ∧ inner.Logical
  | _ => False

/-- A comparison or an equality. -/
def Expr.IsRelation : Expr → Prop
  | .binary op _ _ => IsEquality op ∨ IsComparison op
  | _ => False

/-- Negation keeps an assertion legal and denotes its negation. A relation is as
legal in a logical place as at the top, where the rest is legal, and its literals
have the same widths. -/
structure Negatable (name : Text) (args : List Argument) (e : Expr) : Prop where
  accepted : (emitted (asserting name args e.not) 0).isSome ↔
    (emitted (asserting name args e) 0).isSome
  denotes : ∀ lines lines', emitted (asserting name args e) 0 = some lines →
    emitted (asserting name args e.not) 0 = some lines' → lines.names.Nodup →
    lines'.names.Nodup → ∀ ρ, lines'.Holds ρ ↔ ¬ lines.Holds ρ
  places : e.IsRelation → ∀ place : Place, place.Logical →
    (emitted (asserting name args (place.put (.bool true))) 0).isSome →
    ((emitted (asserting name args (place.put e)) 0).isSome ↔
      (emitted (asserting name args e) 0).isSome)
  widths : e.IsRelation → ∀ place : Place, place.Logical → ∀ lines lines' lines'',
    emitted (asserting name args (place.put (.bool true))) 0 = some lines →
    emitted (asserting name args e) 0 = some lines' →
    emitted (asserting name args (place.put e)) 0 = some lines'' →
    lines''.constants = lines.constants ++ lines'.constants

section
variable {Γ : ArgTypes} {e : Expr} {outer : Option Ty} {place : Place}

theorem typeOf_not (h : typeOf Γ e.not outer = some .bool) : typeOf Γ e (some .bool) = some .bool :=
  (typeOf_unary_some h).1

/-- What is legal where a truth value is expected is legal anywhere. -/
theorem typeOf_of_bool {τ : Ty} (h : typeOf Γ e (some .bool) = some τ) (outer : Option Ty) :
    e.beginsWithLiteral = false ∧ typeOf Γ e outer = some τ := by
  have hbegins : e.beginsWithLiteral = false := by
    cases hlit : e.beginsWithLiteral with
    | false => rfl
    | true =>
      rw [typeOf_literal_bool hlit] at h
      cases h
  exact ⟨hbegins, (typeOf_of_not_literal hbegins _ _).trans h⟩

theorem typeOf_not_of_bool (h : typeOf Γ e (some .bool) = some .bool) :
    typeOf Γ e.not outer = some .bool := by
  rw [Expr.not, typeOf, operandExpected, if_pos rfl, h]
  rfl

/-- A relation has a truth value. -/
theorem Expr.IsRelation.type (h : e.IsRelation) {τ : Ty} (hτ : typeOf Γ e outer = some τ) :
    τ = .bool := by
  cases e with
  | binary op lhs rhs =>
    obtain ⟨l, -, -, hop⟩ := typeOf_binary_some hτ
    rcases hop with ⟨harith, -⟩ | ⟨-, hbool, -⟩
    · exfalso
      rcases h with (rfl | rfl) | (rfl | rfl | rfl | rfl) <;> exact absurd harith (by decide)
    · exact hbool
  | _ => cases h

theorem isRelation_of_equality {op : Text} {lhs rhs : Expr} (hop : IsEquality op) :
    (Expr.binary op lhs rhs).IsRelation := .inl hop

theorem Expr.IsRelation.ownType (h : e.IsRelation) : ownType Γ e = some .bool := by
  cases e with
  | binary op lhs rhs =>
    apply ownType_relation
    rcases h with (rfl | rfl) | (rfl | rfl | rfl | rfl) <;> decide
  | _ => cases h

/-- An operand of a truth value's type, beside one in a logical place. -/
theorem Place.Logical.left_type {op : Text} {lhs : Expr} (hplace : place.Logical)
    (h : typeOf Γ (.binary op lhs (place.put (.bool true))) outer = some .bool) :
    typeOf Γ lhs outer = some .bool ∧
    typeOf Γ (place.put (.bool true)) (some .bool) = some .bool := by
  obtain ⟨l, hl, hr, -⟩ := typeOf_binary_some h
  have hbool : l = .bool := by
    cases place with
    | here =>
      cases hr
      rfl
    | unary op inner =>
      rcases (typeOf_unary_some hr).2 with ⟨-, hbool⟩ | ⟨hneg, -⟩
      · exact hbool
      · rw [hplace.1] at hneg
        exact absurd hneg (by decide)
    | right op lhs inner => exact (isRelation_of_equality hplace.1).type hr
    | left op inner rhs => cases hplace
    | argument callee before inner after => cases hplace
  subst hbool
  exact ⟨hl, hr⟩

/-- At the top nothing is expected, in every other logical place a truth value. -/
theorem Place.Logical.expected (hplace : place.Logical)
    (h : typeOf Γ (place.put (.bool true)) outer = some .bool) :
    place.expected Γ outer = outer ∨ place.expected Γ outer = some .bool := by
  induction place generalizing outer with
  | here => exact .inl rfl
  | unary op inner ih =>
    obtain ⟨rfl, hinner⟩ := hplace
    right
    exact (ih hinner (typeOf_not h)).elim id id
  | right op lhs inner ih =>
    obtain ⟨hlhs, hrhs⟩ := hplace.2.left_type h
    right
    rw [Place.expected, hlhs]
    exact (ih hplace.2 hrhs).elim id id
  | left op inner rhs ih => cases hplace
  | argument callee before inner after ih => cases hplace

theorem Place.Logical.ownType (hplace : place.Logical) (h : ownType Γ e = some .bool) :
    ownType Γ (place.put e) = some .bool := by
  cases place with
  | here => exact h
  | unary op inner =>
    rw [hplace.1]
    rfl
  | right op lhs inner => exact (isRelation_of_equality hplace.1).ownType
  | left op inner rhs => cases hplace
  | argument callee before inner after => cases hplace

/-- The literals of a relation in a logical place come last. -/
theorem Place.Logical.literalsAt (hplace : place.Logical) (hown : Dublin.ownType Γ e = some .bool)
    (hfits : Fits outer .bool) (h : typeOf Γ (place.put (.bool true)) outer = some .bool) :
    (place.put e).literalsAt Γ .bool =
      (place.put (.bool true)).literalsAt Γ .bool ++ e.literalsAt Γ .bool := by
  induction place generalizing outer with
  | here => rfl
  | unary op inner ih =>
    obtain ⟨rfl, hinner⟩ := hplace
    exact ih hinner (fits_some _) (typeOf_not h)
  | right op lhs inner ih =>
    obtain ⟨hlhs, hrhs⟩ := hplace.2.left_type h
    have hcommon : ∀ e', Dublin.ownType Γ e' = some .bool →
        commonType (Dublin.ownType Γ lhs) (Dublin.ownType Γ (inner.put e')) = .bool := by
      intro e' he'
      refine (typeOf_sound hlhs hfits).1.commonType (.inl ?_) hfits
      exact hplace.2.ownType he'
    rw [Place.put, Place.put, Expr.literalsAt, Expr.literalsAt, hcommon e hown,
      hcommon (.bool true) rfl, ih hplace.2 (fits_some _) hrhs, List.append_assoc]
  | left op inner rhs ih => cases hplace
  | argument callee before inner after ih => cases hplace

end

/-- Negation is harmless exactly for what is not legal anyway or does not begin
with a literal. -/
theorem negatable_iff (name : Text) (args : List Argument) (e : Expr) :
    Negatable name args e ↔
      ((asserting name args e).Legal 0 → e.beginsWithLiteral = false) := by
  constructor
  · intro h hlegal
    have hnot := h.accepted.mpr ((emitted_isSome_iff _ _).mpr hlegal)
    exact (typeOf_of_bool (typeOf_not (asserting_accepted_iff.mp hnot).2) none).1
  intro h
  have hbool : (asserting name args e).Legal 0 →
      typeOf (typesOfArgs args) e (some .bool) = some .bool := by
    intro hlegal
    rw [typeOf_of_not_literal (h hlegal) (some .bool) none]
    exact (asserting_legal_iff.mp hlegal).2
  constructor
  · rw [asserting_accepted_iff, emitted_isSome_iff]
    constructor
    · rintro ⟨hnodup, hnot⟩
      exact asserting_legal_iff.mpr ⟨hnodup, (typeOf_of_bool (typeOf_not hnot) none).2⟩
    · intro hlegal
      exact ⟨hlegal.arguments, typeOf_not_of_bool (hbool hlegal)⟩
  · intro lines lines' hemit hemit' hdistinct hdistinct' ρ
    obtain ⟨b, hb, hholds⟩ := asserting_holds hemit hdistinct ρ
    obtain ⟨b', hb', hholds'⟩ := asserting_holds hemit' hdistinct' ρ
    have heq : b' = !b := by
      rw [Expr.not, eval, if_pos rfl, hb] at hb'
      exact (Option.some.inj hb').symm
    rw [hholds, hholds', heq]
    cases b <;> simp
  · intro hrelation place hplace hrest
    rw [asserting_accepted_iff] at hrest
    rw [asserting_accepted_iff, emitted_isSome_iff]
    have hexpected := hplace.expected hrest.2
    constructor
    · rintro ⟨hnodup, hput⟩
      obtain ⟨σ, hσ, -⟩ := typeOf_put_some hput (.inl rfl)
      obtain rfl := hrelation.type hσ
      refine asserting_legal_iff.mpr ⟨hnodup, ?_⟩
      rcases hexpected with hnone | hbool
      · rwa [hnone] at hσ
      · rw [hbool] at hσ
        exact (typeOf_of_bool hσ none).2
    · intro hlegal
      refine ⟨hlegal.arguments, ?_⟩
      rw [← hrest.2]
      apply typeOf_put_congr
      rw [typeOf]
      rcases hexpected with hnone | hexpected
      · rw [hnone]
        exact (asserting_legal_iff.mp hlegal).2
      · rw [hexpected]
        exact hbool hlegal
  · intro hrelation place hplace lines lines' lines'' hrest hemit hput
    have hlegal := (asserting_accepted_iff.mp (Option.isSome_of_eq_some hrest)).2
    have hliterals := hplace.literalsAt hrelation.ownType (.inl rfl) hlegal
    rwa [asserting_constants hrest, asserting_constants hemit, asserting_constants hput]

/-- `1 < x` -/
def literalFirst : Expr := .binary (text "<") (.integer 1) (.variable_ (text "x"))

/-- `verify f(x i32) assert 1 < x;` is a program, `assert !(1 < x);` is not. -/
theorem negation_rejected :
    (emitted (asserting (text "f") [⟨text "x", .bv 32⟩] literalFirst) 0).isSome ∧
      ¬ (emitted (asserting (text "f") [⟨text "x", .bv 32⟩] literalFirst.not) 0).isSome := by
  decide +kernel

end AroundTheWorld.Dublin
