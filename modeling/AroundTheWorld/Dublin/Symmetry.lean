import AroundTheWorld.Dublin.Accepts
import AroundTheWorld.Dublin.Places

/-!
# Operands in the other order

Types are inferred from left to right, so that a literal on the left has the type
that its place expects, and a literal on the right that of the left operand. Where
these agree, an operator and its mirror image are equally legal with the operands
in the other order. Where both orders are legal, they mean the same.
-/

namespace AroundTheWorld.Dublin

open AroundTheWorld.Lex AroundTheWorld.Smt

/-- Operators that say the same with the operands in the other order. -/
inductive Mirrored : Text → Text → Prop where
  | equal : Mirrored (text "==") (text "==")
  | unequal : Mirrored (text "!=") (text "!=")
  | add : Mirrored (text "+") (text "+")
  | mul : Mirrored (text "*") (text "*")
  | less : Mirrored (text "<") (text ">")
  | atMost : Mirrored (text "<=") (text ">=")

/-- If only one of two operands begins with a literal, the other one has the type
that the place expects of a literal. -/
def Balanced (Γ : ArgTypes) (a b : Expr) (expected : Option Ty) : Prop :=
  a.beginsWithLiteral ≠ b.beginsWithLiteral → ∀ e, e = a ∨ e = b → e.beginsWithLiteral = false →
    ∀ τ, typeOf Γ e none = some τ → τ = expected.getD (.bv 32)

theorem Balanced.symm {Γ : ArgTypes} {a b : Expr} {expected : Option Ty}
    (h : Balanced Γ a b expected) : Balanced Γ b a expected :=
  fun hne e he => h hne.symm e he.symm

section
variable {Γ : ArgTypes} {ρ : Valuation Text} {a b e : Expr} {op op' : Text} {expected : Option Ty}
  {l τ : Ty}

/-- In the place of the other operand an expression has the type that it has in its own. -/
theorem typeOf_elsewhere (h : e.beginsWithLiteral = false ∨ l = expected.getD (.bv 32)) :
    typeOf Γ e expected = typeOf Γ e (some l) := by
  rcases h with hbegins | rfl
  · exact typeOf_of_not_literal hbegins _ _
  · exact typeOf_default Γ e expected

/-- Of balanced operands either none begins with a literal, or they have the type
that the place expects of a literal. -/
theorem Balanced.type (h : Balanced Γ a b expected) (hl : typeOf Γ a expected = some l)
    (hr : typeOf Γ b (some l) = some l) :
    a.beginsWithLiteral = false ∧ b.beginsWithLiteral = false ∨ l = expected.getD (.bv 32) := by
  cases hbegins : a.beginsWithLiteral with
  | false =>
    cases hbegins' : b.beginsWithLiteral with
    | false => exact .inl ⟨rfl, rfl⟩
    | true =>
      right
      apply h (by rw [hbegins, hbegins']; decide) a (.inl rfl) hbegins
      rw [typeOf_of_not_literal hbegins none expected]
      exact hl
  | true =>
    right
    cases hbegins' : b.beginsWithLiteral with
    | false =>
      apply h (by rw [hbegins, hbegins']; decide) b (.inr rfl) hbegins'
      rw [typeOf_of_not_literal hbegins' none (some l)]
      exact hr
    | true =>
      -- a truth value is not expected of a literal on the right
      have hbv : l ≠ .bool := (typeOf_literal hbegins' hr).1
      exact (typeOf_literal hbegins hl).2.resolve_right hbv

theorem typeOf_swap_some (hop : ∀ l, binaryType op l l = binaryType op' l l)
    (hbalanced : Balanced Γ a b expected) (h : typeOf Γ (.binary op a b) expected = some τ) :
    typeOf Γ (.binary op' b a) expected = some τ := by
  rw [typeOf] at h ⊢
  obtain ⟨⟨l, r⟩, hoperands, h⟩ := Option.bind_eq_some_iff.mp h
  obtain ⟨hl, hr⟩ := operandTypes_some hoperands
  obtain ⟨hlr, -⟩ : l = r ∧ _ := binaryType_some h
  subst hlr
  have hsame : ∀ e, e = a ∨ e = b → typeOf Γ e expected = typeOf Γ e (some l) := by
    intro e he
    apply typeOf_elsewhere
    rcases hbalanced.type hl hr with ⟨ha, hb⟩ | hl
    · rcases he with rfl | rfl
      · exact .inl ha
      · exact .inl hb
    · exact .inr hl
  have hswapped : operandTypes (typeOf Γ b) (typeOf Γ a) expected = some (l, l) := by
    unfold operandTypes
    rw [hsame b (.inr rfl), hr, Option.bind_some, ← hsame a (.inl rfl), hl]
    rfl
  rw [hswapped, Option.bind_some, ← hop]
  exact h

theorem Mirrored.binaryType (h : Mirrored op op') (l : Ty) :
    binaryType op l l = Dublin.binaryType op' l l := by
  cases h <;> rfl

/-- Balanced operands may change places. -/
theorem typeOf_swap (hop : Mirrored op op') (hbalanced : Balanced Γ a b expected) :
    typeOf Γ (.binary op a b) expected = typeOf Γ (.binary op' b a) expected := by
  ext τ
  constructor
  · exact typeOf_swap_some hop.binaryType hbalanced
  · exact typeOf_swap_some (fun l => (hop.binaryType l).symm) hbalanced.symm

/-! ## The meaning of the other order -/

theorem Mirrored.arithmetic (h : Mirrored op op') {w : Nat} (x y : BitVec w) :
    arithmetic op x y = Dublin.arithmetic op' y x := by
  cases h with
  | add => exact congrArg some (BitVec.add_comm x y)
  | mul => exact congrArg some (BitVec.mul_comm x y)
  | _ => rfl

theorem Mirrored.compare (h : Mirrored op op') {w : Nat} (x y : BitVec w) :
    compare op x y = Dublin.compare op' y x := by
  cases h <;> rfl

theorem equalAt_comm (left right : Meaning) (τ : Ty) :
    equalAt left right τ = equalAt right left τ := by
  unfold equalAt
  cases left τ with
  | none => cases right τ <;> rfl
  | some x =>
    cases right τ with
    | none => rfl
    | some y => simp [eq_comm]

theorem compareAt_comm (h : Mirrored op op') (left right : Meaning) (τ : Ty) :
    compareAt (compare op) left right τ = compareAt (compare op') right left τ := by
  cases τ with
  | bool => rfl
  | bv w =>
    rw [compareAt, compareAt, Option.bind_comm]
    simp only [h.compare]

theorem evalRelation_comm (h : Mirrored op op') (left right : Meaning) (τ : Ty) :
    evalRelation op left right τ = evalRelation op' right left τ := by
  have hcompare := compareAt_comm h left right τ
  unfold evalRelation
  cases h with
  | equal => exact equalAt_comm left right τ
  | unequal => exact congrArg (Option.map (!·)) (equalAt_comm left right τ)
  | _ => exact hcompare

/-- Operands of one type have this type in common in either order. -/
theorem TypedAs.or_comm {own own' expected' : Option Ty} (h : TypedAs own expected l)
    (h' : TypedAs own' expected' l) : own.or own' = own'.or own := by
  rcases h with rfl | ⟨rfl, -, -⟩
  · rcases h' with rfl | ⟨rfl, -, -⟩
    · rfl
    · rfl
  · rw [Option.or_none, Option.none_or]

/-- What is legal means the same with the operands in the other order. -/
theorem eval_swap (hop : Mirrored op op') (h : typeOf Γ (.binary op a b) expected = some τ)
    (hfits : Fits expected τ) :
    ownType Γ (.binary op a b) = ownType Γ (.binary op' b a) ∧
      eval Γ ρ (.binary op a b) = eval Γ ρ (.binary op' b a) := by
  obtain ⟨l, hl, hr, htype⟩ := typeOf_binary_some h
  have hfitsl : Fits expected l := by
    rcases htype with ⟨-, rfl, -⟩ | ⟨-, rfl, -⟩
    · exact hfits
    · exact hfits.of_bool l
  have hown := (typeOf_sound hl hfitsl).1.or_comm (typeOf_sound hr (fits_some l)).1
  constructor
  · rw [ownType, ownType, hown]
    cases hop <;> rfl
  · funext τ'
    cases τ' with
    | bool =>
      rw [eval, eval, evalRelation_comm hop]
      unfold commonType
      rw [hown]
    | bv w =>
      rw [eval, eval, Option.bind_comm]
      simp only [hop.arithmetic]

end

/-- An assertion with balanced operands in it is accepted with the operands in one
order exactly when it is accepted with them in the other. Whatever the operands
are, accepted assertions that differ only in the order hold under the same
valuations. -/
theorem swap_operands {op op' : Text} (hop : Mirrored op op') (name : Text) (args : List Argument)
    (place : Place) (a b : Expr) :
    (Balanced (typesOfArgs args) a b (place.expected (typesOfArgs args) none) →
      ((emitted (asserting name args (place.put (.binary op a b))) 0).isSome ↔
        (emitted (asserting name args (place.put (.binary op' b a))) 0).isSome)) ∧
    ∀ lines lines', emitted (asserting name args (place.put (.binary op a b))) 0 = some lines →
      emitted (asserting name args (place.put (.binary op' b a))) 0 = some lines' →
      lines.names.Nodup → lines'.names.Nodup → ∀ ρ, lines.Holds ρ ↔ lines'.Holds ρ := by
  constructor
  · intro hbalanced
    rw [asserting_accepted_iff, asserting_accepted_iff,
      typeOf_put_congr (typeOf_swap hop hbalanced)]
  · intro lines lines' hemit hemit' hdistinct hdistinct' ρ
    obtain ⟨-, hlegal⟩ := asserting_accepted_iff.mp (Option.isSome_of_eq_some hemit)
    obtain ⟨σ, hσ, hfits⟩ := typeOf_put_some hlegal (.inl rfl)
    obtain ⟨hown, heval⟩ := eval_swap (ρ := ρ) hop hσ hfits
    obtain ⟨v, hv, hholds⟩ := asserting_holds hemit hdistinct ρ
    obtain ⟨v', hv', hholds'⟩ := asserting_holds hemit' hdistinct' ρ
    rw [eval_put_congr hown heval, hv', Option.some.injEq] at hv
    rw [hholds, hholds', hv]

/-- `_ == x` for an `x` of 32 bits. -/
def equalsX : Place := .left (text "==") .here (.variable_ (text "x"))

/-- `assert 0 + x == x;` and `assert x + 0 == x;` -/
theorem swap_operands_zero :
    let block := fun sum => asserting (text "f") [⟨text "x", .bv 32⟩] (equalsX.put sum)
    let first := block (.binary (text "+") (.integer 0) (.variable_ (text "x")))
    let last := block (.binary (text "+") (.variable_ (text "x")) (.integer 0))
    ((emitted first 0).isSome ↔ (emitted last 0).isSome) ∧
      ∃ lines lines', emitted first 0 = some lines ∧ emitted last 0 = some lines' ∧
        ∀ ρ, lines.Holds ρ ↔ lines'.Holds ρ := by
  intro block first last
  obtain ⟨haccepted, hholds⟩ := swap_operands .add (text "f") [⟨text "x", .bv 32⟩] equalsX
    (.integer 0) (.variable_ (text "x"))
  have hfirst : (emitted first 0).map (fun lines => decide lines.names.Nodup) = some true := by
    decide +kernel
  have hlast : (emitted last 0).map (fun lines => decide lines.names.Nodup) = some true := by
    decide +kernel
  obtain ⟨lines, hemit, hdistinct⟩ := Option.map_eq_some_iff.mp hfirst
  obtain ⟨lines', hemit', hdistinct'⟩ := Option.map_eq_some_iff.mp hlast
  refine ⟨haccepted ?_, lines, lines', hemit, hemit', hholds lines lines' hemit hemit'
    (of_decide_eq_true hdistinct) (of_decide_eq_true hdistinct')⟩
  rintro - e (rfl | rfl) hbegins τ hτ
  · cases hbegins
  · cases hτ
    rfl

/-- `verify f(x i8) assert x == 0;` is a program, `assert 0 == x;` is not. -/
theorem swap_rejected :
    (emitted (asserting (text "f") [⟨text "x", .bv 8⟩]
      (Place.here.put (.binary (text "==") (.variable_ (text "x")) (.integer 0)))) 0).isSome ∧
    ¬ (emitted (asserting (text "f") [⟨text "x", .bv 8⟩]
      (Place.here.put (.binary (text "==") (.integer 0) (.variable_ (text "x"))))) 0).isSome := by
  decide +kernel

end AroundTheWorld.Dublin
