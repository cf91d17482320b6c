import Mathlib.Data.List.Basic

/-!
# Contiguous covers of a list

A list is cut into pieces when each piece is a non-empty slice that starts at
the offset where the previous one ended. Concatenating the pieces of a cut then
gives back the part of the list it covers.
-/

namespace AroundTheWorld.Base

variable {α : Type*}

/-- The elements of `xs` at the offsets `[start, stop)`. -/
def slice (xs : List α) (start stop : Nat) : List α := (xs.drop start).take (stop - start)

theorem slice_self (xs : List α) (a : Nat) : slice xs a a = [] := by simp [slice]

theorem slice_full (xs : List α) : slice xs 0 xs.length = xs := by simp [slice]

/-- Adjacent slices join. -/
theorem slice_append (xs : List α) {a b c : Nat} (hab : a ≤ b) (hbc : b ≤ c) :
    slice xs a b ++ slice xs b c = slice xs a c := by
  unfold slice
  have hdrop : xs.drop b = (xs.drop a).drop (b - a) := by
    rw [List.drop_drop]; congr 1; omega
  rw [hdrop, show c - a = (b - a) + (c - b) by omega, List.take_add]

theorem slice_length (xs : List α) {a b : Nat} (hb : b ≤ xs.length) :
    (slice xs a b).length = b - a := by
  simp only [slice, List.length_take, List.length_drop]
  omega

/-- A piece of text with the offsets it claims to stand at. -/
structure Span (α : Type*) where
  text : List α
  start : Nat
  stop : Nat

/-- The spans are non-empty slices of `xs` that follow each other from `a` to `b`. -/
inductive Covers (xs : List α) : Nat → List (Span α) → Nat → Prop
  | nil (a : Nat) : Covers xs a [] a
  | cons {s : Span α} {ss : List (Span α)} {b : Nat} :
      s.start < s.stop → s.text = slice xs s.start s.stop →
      Covers xs s.stop ss b → Covers xs s.start (s :: ss) b

namespace Covers

variable {xs : List α} {a b c : Nat} {ss ts : List (Span α)}

theorem le (h : Covers xs a ss b) : a ≤ b := by
  induction h with
  | nil => exact Nat.le_refl _
  | cons hlt _ _ ih => omega

theorem lt {s : Span α} (h : Covers xs a (s :: ss) b) : a < b := by
  cases h with
  | cons hlt _ hrest => exact Nat.lt_of_lt_of_le hlt hrest.le

theorem single {s : Span α} (hlt : s.start < s.stop)
    (htext : s.text = slice xs s.start s.stop) : Covers xs s.start [s] s.stop :=
  .cons hlt htext (.nil _)

theorem append (hs : Covers xs a ss b) (ht : Covers xs b ts c) : Covers xs a (ss ++ ts) c := by
  induction hs with
  | nil => exact ht
  | cons hlt htext _ ih => exact .cons hlt htext (ih ht)

/-- The texts of a cover, in order, spell the slice it covers. -/
theorem concat (h : Covers xs a ss b) : (ss.map Span.text).flatten = slice xs a b := by
  induction h with
  | nil => simp [slice_self]
  | cons hlt htext hrest ih =>
    rw [List.map_cons, List.flatten_cons, ih, htext, slice_append xs (by omega) hrest.le]

/-- A cover of the whole list spells the list. -/
theorem concat_full (h : Covers xs 0 ss xs.length) : (ss.map Span.text).flatten = xs := by
  rw [h.concat, slice_full]

end Covers

end AroundTheWorld.Base
