import Mathlib.Algebra.Group.Int.Defs
import AroundTheWorld.Dublin.Accepts

/-!
# The widths of literals

The widths that the hints of the emitter lead to are those of the meaning: a
literal has the type at which `eval` evaluates it. The lexer reads literals of up
to 63 bits and no one compares them with their width later.
-/

namespace AroundTheWorld.Dublin

open AroundTheWorld.Lex AroundTheWorld.Smt

/-- The type at which the two arguments of a call are compared. -/
def argsType (Γ : ArgTypes) : List Expr → Ty
  | [lhs, rhs] => commonType (ownType Γ lhs) (ownType Γ rhs)
  | _ => .bool

mutual

/-- The literals of an expression of this type, each at the width at which it is
evaluated. -/
def Expr.literalsAt (Γ : ArgTypes) : Expr → Ty → List (Int × Nat)
  | .integer value, .bv w => [(value, w)]
  | .unary _ operand, τ => operand.literalsAt Γ τ
  | .binary _ lhs rhs, .bv w => lhs.literalsAt Γ (.bv w) ++ rhs.literalsAt Γ (.bv w)
  | .binary _ lhs rhs, .bool =>
    lhs.literalsAt Γ (commonType (ownType Γ lhs) (ownType Γ rhs)) ++
      rhs.literalsAt Γ (commonType (ownType Γ lhs) (ownType Γ rhs))
  | .call _ args, _ => argsLiteralsAt Γ args (argsType Γ args)
  | _, _ => []

def argsLiteralsAt (Γ : ArgTypes) : List Expr → Ty → List (Int × Nat)
  | [], _ => []
  | arg :: args, τ => arg.literalsAt Γ τ ++ argsLiteralsAt Γ args τ

end

/-- A legal expression has its literals at the widths of its meaning. -/
theorem literals_eq_literalsAt {Γ : ArgTypes} {e : Expr} {expected : Option Ty} {τ : Ty}
    (h : typeOf Γ e expected = some τ) (hfits : Fits expected τ) :
    literals Γ e expected = e.literalsAt Γ τ := by
  induction e using Expr.induction generalizing expected τ with
  | null => cases h
  | integer value =>
    obtain ⟨hexpected, hbv⟩ := literalType_some h
    rw [literals, hexpected]
    cases τ with
    | bool => exact absurd rfl hbv
    | bv w => rfl
  | bool value =>
    cases h
    rfl
  | variable_ name => cases τ <;> rfl
  | call callee args ih =>
    obtain ⟨lhs, rhs, l, rfl, -, hl, hr, -, rfl⟩ := typeOf_call_some h
    have htl := (typeOf_sound hl (.inl rfl)).1
    have htr := (typeOf_sound hr (fits_some l)).1
    simp only [literals, argsLiterals, Expr.literalsAt, argsLiteralsAt, argsType,
      htl.commonType htr (.inl rfl), hl]
    rw [ih lhs (by simp) hl (.inl rfl), ih rhs (by simp) hr (fits_some l)]
  | unary op operand ih =>
    obtain ⟨hoperand, hop⟩ := typeOf_unary_some h
    have hoperands : literals Γ operand (operandExpected op expected) = operand.literalsAt Γ τ := by
      apply ih hoperand
      rcases hop with ⟨rfl, rfl⟩ | ⟨rfl, -⟩
      · exact fits_some _
      · exact hfits
    cases τ <;> exact hoperands
  | binary op lhs rhs ihl ihr =>
    obtain ⟨l, hl, hr, hop⟩ := typeOf_binary_some h
    rw [literals, hl, ihr hr (fits_some l)]
    rcases hop with ⟨-, rfl, hbv⟩ | ⟨-, rfl, -⟩
    · rw [ihl hl hfits]
      cases τ with
      | bool => exact absurd rfl hbv
      | bv w => rfl
    · have htl := (typeOf_sound hl (hfits.of_bool l)).1
      have htr := (typeOf_sound hr (fits_some l)).1
      rw [ihl hl (hfits.of_bool l), Expr.literalsAt, htl.commonType htr hfits]

/-! ## Constants that fit -/

/-- A constant that its type has. -/
def InRange (constant : Int × Nat) : Prop := 0 ≤ constant.1 ∧ constant.1 < 2 ^ constant.2

instance (constant : Int × Nat) : Decidable (InRange constant) :=
  inferInstanceAs (Decidable (_ ∧ _))

/-- The literals of the assertions up to this one, at the widths of their meaning. -/
def VerifyBlock.literals (block : VerifyBlock) (assertionIndex : Nat) : List (Int × Nat) :=
  (block.assertions.take (assertionIndex + 1)).flatMap fun e => e.literalsAt block.argTypes .bool

theorem emitted_constants_eq_literals {block : VerifyBlock} {i : Nat} {lines : Program Text}
    (hemit : emitted block i = some lines) : lines.constants = block.literals i := by
  have hlegal : block.Legal i := (emitted_isSome_iff block i).mp (by rw [hemit]; rfl)
  rw [emitted_constants hemit]
  unfold VerifyBlock.literals
  rw [List.flatMap_def, List.flatMap_def, List.map_congr_left]
  intro e he
  exact literals_eq_literalsAt (hlegal.conditions e he) (.inl rfl)

theorem asserting_constants {name : Text} {args : List Argument} {e : Expr} {lines : Program Text}
    (hemit : emitted (asserting name args e) 0 = some lines) :
    lines.constants = e.literalsAt (typesOfArgs args) .bool := by
  rw [emitted_constants_eq_literals hemit]
  exact List.flatMap_singleton _ _

/-- The constants of a query are in range, and a literal out of range is rejected,
exactly when the literals of a legal program are in range anyway. -/
theorem constants_inRange_iff (block : VerifyBlock) (i : Nat) :
    ((∀ lines, emitted block i = some lines → ∀ c ∈ lines.constants, InRange c) ∧
      ((∃ c ∈ block.literals i, ¬ InRange c) → emitted block i = none)) ↔
    (block.Legal i → ∀ c ∈ block.literals i, InRange c) := by
  constructor
  · rintro ⟨hrange, -⟩ hlegal
    obtain ⟨lines, hemit⟩ := Option.isSome_iff_exists.mp ((emitted_isSome_iff block i).mpr hlegal)
    rw [← emitted_constants_eq_literals hemit]
    exact hrange lines hemit
  · intro h
    constructor
    · intro lines hemit
      rw [emitted_constants_eq_literals hemit]
      exact h ((emitted_isSome_iff block i).mp (by rw [hemit]; rfl))
    · rintro ⟨c, hc, hout⟩
      rw [← Option.not_isSome_iff_eq_none, emitted_isSome_iff]
      exact fun hlegal => hout (h hlegal c hc)

/-- `verify f(x i8) assert x == 300;` -/
def wideBlock : VerifyBlock where
  name := text "f"
  args := [⟨text "x", .bv 8⟩]
  assertions := [.binary (text "==") (.variable_ (text "x")) (.integer 300)]

/-- The constant 300 at 8 bits. -/
theorem constants_out_of_range : ∃ lines, emitted wideBlock 0 = some lines ∧
    (300, 8) ∈ lines.constants ∧ ¬ InRange (300, 8) := by
  have h : (emitted wideBlock 0).map (fun lines => decide ((300, 8) ∈ lines.constants)) =
      some true := by decide +kernel
  obtain ⟨lines, hemit, hmem⟩ := Option.map_eq_some_iff.mp h
  exact ⟨lines, hemit, of_decide_eq_true hmem, by decide⟩

end AroundTheWorld.Dublin
