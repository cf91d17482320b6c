import AroundTheWorld.Dublin.Typing

/-!
# Places in an expression

A `Place` is an expression with one subexpression left open. What is put there
matters only through its type in this place, and through its meaning.
-/

namespace AroundTheWorld.Dublin

open AroundTheWorld.Lex AroundTheWorld.Smt

inductive Place where
  | here
  | unary (op : Text) (inner : Place)
  | left (op : Text) (inner : Place) (rhs : Expr)
  | right (op : Text) (lhs : Expr) (inner : Place)
  | argument (callee : Text) (before : List Expr) (inner : Place) (after : List Expr)

namespace Place

def put : Place → Expr → Expr
  | .here, e => e
  | .unary op inner, e => .unary op (inner.put e)
  | .left op inner rhs, e => .binary op (inner.put e) rhs
  | .right op lhs inner, e => .binary op lhs (inner.put e)
  | .argument callee before inner after, e => .call callee (before ++ inner.put e :: after)

/-- The type that is expected there, when this one is expected of the whole. -/
def expected (Γ : ArgTypes) : Place → Option Ty → Option Ty
  | .here, outer => outer
  | .unary op inner, outer => inner.expected Γ (operandExpected op outer)
  | .left _ inner _, outer => inner.expected Γ outer
  | .right _ lhs inner, outer => inner.expected Γ (typeOf Γ lhs outer)
  | .argument _ before inner _, _ =>
      inner.expected Γ (before.head?.bind fun arg => typeOf Γ arg none)

end Place

theorem operandTypes_congr {left right left' right' : Option Ty → Option Ty} {expected : Option Ty}
    (hl : left expected = left' expected)
    (hr : ∀ l, left expected = some l → right (some l) = right' (some l)) :
    operandTypes left right expected = operandTypes left' right' expected := by
  unfold operandTypes
  rw [← hl]
  cases hleft : left expected with
  | none => rfl
  | some l => rw [Option.bind_some, Option.bind_some, hr l hleft]

theorem typesOf_eq_map (Γ : ArgTypes) (args : List Expr) :
    typesOf Γ args = args.map (typeOf Γ) := by
  induction args with
  | nil => rfl
  | cons arg args ih => rw [typesOf, ih, List.map_cons]

theorem evalArgs_eq_map (Γ : ArgTypes) (ρ : Valuation Text) (args : List Expr) :
    evalArgs Γ ρ args = args.map (eval Γ ρ) := by
  induction args with
  | nil => rfl
  | cons arg args ih => rw [evalArgs, ih, List.map_cons]

/-- A call has two arguments. -/
theorem callType_length (callee : Text) {types : List (Option Ty → Option Ty)}
    (h : types.length ≠ 2) : callType callee types = none := by
  match types with
  | [] => rfl
  | [_] => rfl
  | [_, _] => exact absurd rfl h
  | _ :: _ :: _ :: _ => rfl

section
variable {Γ : ArgTypes} {ρ : Valuation Text} {e e' : Expr} {outer : Option Ty}

/-- Expressions of one type in a place make wholes of one type. -/
theorem typeOf_put_congr {place : Place}
    (h : typeOf Γ e (place.expected Γ outer) = typeOf Γ e' (place.expected Γ outer)) :
    typeOf Γ (place.put e) outer = typeOf Γ (place.put e') outer := by
  induction place generalizing outer with
  | here => exact h
  | unary op inner ih => rw [Place.put, Place.put, typeOf, typeOf, ih h]
  | left op inner rhs ih =>
    rw [Place.put, Place.put, typeOf, typeOf, operandTypes_congr (ih h) fun _ _ => rfl]
  | right op lhs inner ih =>
    rw [Place.put, Place.put, typeOf, typeOf]
    have hoperands : operandTypes (typeOf Γ lhs) (typeOf Γ (inner.put e)) outer =
        operandTypes (typeOf Γ lhs) (typeOf Γ (inner.put e')) outer := by
      refine operandTypes_congr rfl fun l hl => ih ?_
      rw [Place.expected, hl] at h
      exact h
    rw [hoperands]
  | argument callee before inner after ih =>
    rw [Place.put, Place.put, typeOf, typeOf, typesOf_eq_map, typesOf_eq_map]
    rw [Place.expected] at h
    obtain _ | ⟨lhs, _ | ⟨_, before⟩⟩ := before
    · obtain _ | ⟨rhs, _ | _⟩ := after
      · rfl
      · rw [List.head?_nil, Option.bind_none] at h
        simp only [List.nil_append, List.map_cons, List.map_nil, callType]
        rw [operandTypes_congr (ih h) fun _ _ => rfl]
      · rfl
    · obtain _ | _ := after
      · simp only [List.cons_append, List.nil_append, List.map_cons, List.map_nil, callType]
        have hoperands : operandTypes (typeOf Γ lhs) (typeOf Γ (inner.put e)) none =
            operandTypes (typeOf Γ lhs) (typeOf Γ (inner.put e')) none := by
          refine operandTypes_congr rfl fun l hl => ih ?_
          rw [List.head?_cons, Option.bind_some, hl] at h
          exact h
        rw [hoperands]
      · rfl
    · rw [callType_length, callType_length]
      all_goals simp only [List.cons_append, List.map_cons, List.map_append, List.length_cons,
        List.length_append]; omega

/-- In a legal whole what stands in a place is legal there. -/
theorem typeOf_put_some {place : Place} {τ : Ty} (h : typeOf Γ (place.put e) outer = some τ)
    (hfits : Fits outer τ) : ∃ σ, typeOf Γ e (place.expected Γ outer) = some σ ∧
      Fits (place.expected Γ outer) σ := by
  induction place generalizing outer τ with
  | here => exact ⟨τ, h, hfits⟩
  | unary op inner ih =>
    obtain ⟨hoperand, hop⟩ := typeOf_unary_some h
    apply ih hoperand
    rcases hop with ⟨rfl, rfl⟩ | ⟨rfl, -⟩
    · exact fits_some _
    · exact hfits
  | left op inner rhs ih =>
    obtain ⟨l, hl, -, hop⟩ := typeOf_binary_some h
    apply ih hl
    rcases hop with ⟨-, rfl, -⟩ | ⟨-, rfl, -⟩
    · exact hfits
    · exact hfits.of_bool l
  | right op lhs inner ih =>
    obtain ⟨l, hl, hr, -⟩ := typeOf_binary_some h
    rw [Place.expected, hl]
    exact ih hr (fits_some l)
  | argument callee before inner after ih =>
    obtain ⟨lhs, rhs, l, hargs, -, hl, hr, -⟩ := typeOf_call_some h
    match before with
    | [] =>
      rw [List.nil_append] at hargs
      cases hargs
      exact ih hl (.inl rfl)
    | [arg] =>
      rw [List.singleton_append] at hargs
      cases hargs
      rw [Place.expected, List.head?_cons, Option.bind_some, hl]
      exact ih hr (fits_some l)
    | _ :: _ :: before =>
      have hlength := congrArg List.length hargs
      simp only [List.cons_append, List.length_cons, List.length_append, List.length_nil] at hlength
      omega

theorem ownType_put_congr {place : Place} (h : ownType Γ e = ownType Γ e') :
    ownType Γ (place.put e) = ownType Γ (place.put e') := by
  induction place with
  | here => exact h
  | unary op inner ih => rw [Place.put, Place.put, ownType, ownType, ih]
  | left op inner rhs ih => rw [Place.put, Place.put, ownType, ownType, ih]
  | right op lhs inner ih => rw [Place.put, Place.put, ownType, ownType, ih]
  | argument callee before inner after ih => rfl

/-- Expressions of one meaning in a place make wholes of one meaning. -/
theorem eval_put_congr {place : Place} (hown : ownType Γ e = ownType Γ e')
    (h : eval Γ ρ e = eval Γ ρ e') : eval Γ ρ (place.put e) = eval Γ ρ (place.put e') := by
  induction place with
  | here => exact h
  | unary op inner ih =>
    funext τ
    cases τ with
    | bool => rw [Place.put, Place.put, eval, eval, ih]
    | bv w => rw [Place.put, Place.put, eval, eval, ih]
  | left op inner rhs ih =>
    funext τ
    cases τ with
    | bool => rw [Place.put, Place.put, eval, eval, ih, ownType_put_congr hown]
    | bv w => rw [Place.put, Place.put, eval, eval, ih]
  | right op lhs inner ih =>
    funext τ
    cases τ with
    | bool => rw [Place.put, Place.put, eval, eval, ih, ownType_put_congr hown]
    | bv w => rw [Place.put, Place.put, eval, eval, ih]
  | argument callee before inner after ih =>
    funext τ
    cases τ with
    | bool =>
      rw [Place.put, Place.put, eval, eval, evalArgs_eq_map, evalArgs_eq_map]
      simp only [List.map_append, List.map_cons, ih, ownType_put_congr hown]
    | bv w => rfl

end

end AroundTheWorld.Dublin
