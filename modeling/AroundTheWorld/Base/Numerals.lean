import Mathlib.Data.List.Nodup

/-!
# Names that end in a number

A name is made of a hint and, directly behind it, a number. Without a separator
the hint may take part of the number: two names coincide when one hint is the
other with digits behind it that the other number starts with. Hints without
digits cannot.
-/

namespace AroundTheWorld.Base

/-- How numbers are written over an alphabet. -/
structure Numerals (α : Type) where
  numeral : Nat → List α
  isDigit : α → Prop
  isDigit_of_mem : ∀ {n : Nat} {c : α}, c ∈ numeral n → isDigit c
  injective : Function.Injective numeral

namespace Numerals

variable {α : Type} (N : Numerals α)

/-- One of the hints is the other followed by digits, and these digits followed by
its number are the other's number. -/
def Clash (hint : List α) (k : Nat) (hint' : List α) (k' : Nat) : Prop :=
  ∃ digits, (hint' = hint ++ digits ∧ N.numeral k = digits ++ N.numeral k') ∨
    (hint = hint' ++ digits ∧ N.numeral k' = digits ++ N.numeral k)

theorem append_eq_iff {hint hint' : List α} {k k' : Nat} :
    hint ++ N.numeral k = hint' ++ N.numeral k' ↔ N.Clash hint k hint' k' := by
  rw [List.append_eq_append_iff]
  constructor
  · intro h
    rcases h with ⟨digits, hhint, hnumeral⟩ | ⟨digits, hhint, hnumeral⟩
    · exact ⟨digits, .inl ⟨hhint, hnumeral⟩⟩
    · exact ⟨digits, .inr ⟨hhint, hnumeral⟩⟩
  · intro ⟨digits, h⟩
    rcases h with h | h
    · exact .inl ⟨digits, h⟩
    · exact .inr ⟨digits, h⟩

/-- No character of the hint could be part of a number. -/
def Plain (hint : List α) : Prop := ∀ c ∈ hint, ¬ N.isDigit c

variable {N}

/-- What a plain hint has in common with a number is nothing. -/
theorem Plain.digits_nil {hint digits : List α} {k k' : Nat} (hplain : N.Plain (hint ++ digits))
    (h : N.numeral k = digits ++ N.numeral k') : digits = [] := by
  cases digits with
  | nil => rfl
  | cons c digits =>
    have hdigit : N.isDigit c := N.isDigit_of_mem (by rw [h]; simp)
    exact absurd hdigit (hplain c (by simp))

/-- Between plain hints the number starts where the digits start. -/
theorem Plain.clash_iff {hint hint' : List α} {k k' : Nat} (hplain : N.Plain hint)
    (hplain' : N.Plain hint') : N.Clash hint k hint' k' ↔ hint = hint' ∧ k = k' := by
  constructor
  · intro ⟨digits, h⟩
    rcases h with ⟨rfl, h⟩ | ⟨rfl, h⟩
    · obtain rfl := hplain'.digits_nil h
      exact ⟨(List.append_nil _).symm, N.injective h⟩
    · obtain rfl := hplain.digits_nil h
      exact ⟨List.append_nil _, (N.injective h).symm⟩
  · intro ⟨hhint, hk⟩
    subst hhint hk
    exact ⟨[], .inl ⟨(List.append_nil _).symm, rfl⟩⟩

end Numerals

/-- A list without repetition, by index. -/
theorem nodup_iff_getElem?_ne {β : Type} (l : List β) :
    l.Nodup ↔ ∀ i j : Nat, i < j → ∀ x, l[i]? = some x → ∀ y, l[j]? = some y → x ≠ y := by
  rw [List.nodup_iff_getElem?_ne_getElem?]
  constructor
  · intro h i j hij x hx y hy hxy
    have hj : j < l.length := (List.getElem?_eq_some_iff.mp hy).1
    exact h i j hij hj (by rw [hx, hy, hxy])
  · intro h i j hij hj heq
    have hi : i < l.length := by omega
    refine h i j hij _ (List.getElem?_eq_getElem hi) _ (List.getElem?_eq_getElem hj) ?_
    rw [List.getElem?_eq_getElem hi, List.getElem?_eq_getElem hj] at heq
    exact Option.some.inj heq

end AroundTheWorld.Base
