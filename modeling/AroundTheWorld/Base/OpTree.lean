import Mathlib.Data.Int.Order.Basic
import Mathlib.Data.List.Basic

/-!
# Operator trees over a token type

Trees of binary operators with explicit groups, their in-order yield, and what
it means for a tree to be grouped by a precedence function when every operator
associates to the left. Any chain of atoms and operators has such a tree:
operators are pushed onto the right spine one by one.
-/

namespace AroundTheWorld.Base

/-- Binary operators over atoms, with groups that remember their delimiters. -/
inductive OpTree (τ : Type*) where
  | atom (tok : τ)
  | group (opening closing : τ) (inner : OpTree τ)
  | node (op : τ) (lhs rhs : OpTree τ)

namespace OpTree

variable {τ : Type*}

def yield : OpTree τ → List τ
  | atom tok => [tok]
  | group opening closing inner => opening :: (inner.yield ++ [closing])
  | node op lhs rhs => lhs.yield ++ op :: rhs.yield

/-- The operator at the root of a tree that is not an atom or a group. -/
def root : OpTree τ → Option τ
  | node op _ _ => some op
  | _ => none

/-- The operators outside groups on the way down the left spine. -/
def leftOps : OpTree τ → Nat
  | node _ lhs _ => lhs.leftOps + 1
  | _ => 0

theorem leftOps_lt_yield (t : OpTree τ) : t.leftOps < t.yield.length := by
  induction t with
  | atom tok => simp [leftOps, yield]
  | group opening closing inner _ => simp [leftOps, yield]
  | node op lhs rhs hl _ =>
    simp only [leftOps, yield, List.length_append, List.length_cons]
    omega

section
variable (prec : τ → Int)

/-- Every operator outside groups has precedence at least `p`. -/
def Above (p : Int) : OpTree τ → Prop
  | node op lhs rhs => p ≤ prec op ∧ lhs.Above p ∧ rhs.Above p
  | _ => True

/-- At every operator, an ungrouped operator on its left binds at least as
tightly and one on its right binds strictly tighter. -/
def Grouped : OpTree τ → Prop
  | atom _ => True
  | group _ _ inner => inner.Grouped
  | node op lhs rhs => lhs.Grouped ∧ rhs.Grouped ∧
      (∀ o, lhs.root = some o → prec op ≤ prec o) ∧ ∀ o, rhs.root = some o → prec op < prec o

variable {prec}

theorem Above.mono {p q : Int} (hq : q ≤ p) {t : OpTree τ} (h : t.Above prec p) :
    t.Above prec q := by
  induction t with
  | atom tok => trivial
  | group opening closing inner _ => trivial
  | node op lhs rhs hl hr => exact ⟨Int.le_trans hq h.1, hl h.2.1, hr h.2.2⟩

theorem Above.le_root {p : Int} {t : OpTree τ} (h : t.Above prec p) {o : τ}
    (ho : t.root = some o) : p ≤ prec o := by
  cases t with
  | atom tok => cases ho
  | group opening closing inner => cases ho
  | node op lhs rhs => exact Option.some.inj ho ▸ h.1

theorem above_of_root_none {p : Int} {t : OpTree τ} (h : t.root = none) : t.Above prec p := by
  cases t with
  | atom tok => trivial
  | group opening closing inner => trivial
  | node op lhs rhs => cases h

/-- In a grouped tree the root binds weakest. -/
theorem Grouped.above_root {t : OpTree τ} (h : t.Grouped prec) {o : τ} (ho : t.root = some o) :
    t.Above prec (prec o) := by
  induction t generalizing o with
  | atom tok => trivial
  | group opening closing inner _ => trivial
  | node op lhs rhs hl hr =>
    obtain rfl := Option.some.inj ho
    obtain ⟨hgl, hgr, hleft, hright⟩ := h
    refine ⟨le_refl _, ?_, ?_⟩
    · cases hroot : lhs.root with
      | none => exact above_of_root_none hroot
      | some o' => exact (hl hgl hroot).mono (hleft o' hroot)
    · cases hroot : rhs.root with
      | none => exact above_of_root_none hroot
      | some o' => exact (hr hgr hroot).mono (le_of_lt (hright o' hroot))

/-- The right child of a grouped operator lies strictly above it. -/
theorem Grouped.above_right {op : τ} {lhs rhs : OpTree τ} (h : (node op lhs rhs).Grouped prec) :
    rhs.Above prec (prec op + 1) := by
  cases hroot : rhs.root with
  | none => exact above_of_root_none hroot
  | some o => exact (h.2.1.above_root hroot).mono (h.2.2.2 o hroot)

end

/-- Append an operator and its right operand at the end of a tree. -/
def push (prec : τ → Int) (op : τ) (rhs : OpTree τ) : OpTree τ → OpTree τ
  | node o l r => if prec o < prec op then node o l (push prec op rhs r) else
      node op (node o l r) rhs
  | t => node op t rhs

section
variable {prec : τ → Int} {op : τ} {rhs : OpTree τ}

theorem push_yield (t : OpTree τ) : (push prec op rhs t).yield = t.yield ++ op :: rhs.yield := by
  induction t with
  | atom tok => rfl
  | group opening closing inner _ => rfl
  | node o l r _ hr =>
    unfold push
    split
    · simp [yield, hr]
    · rfl

theorem push_above {p : Int} (hop : p ≤ prec op) (hrhs : rhs.root = none) {t : OpTree τ}
    (h : t.Above prec p) : (push prec op rhs t).Above prec p := by
  induction t with
  | atom tok => exact ⟨hop, trivial, above_of_root_none hrhs⟩
  | group opening closing inner _ => exact ⟨hop, trivial, above_of_root_none hrhs⟩
  | node o l r _ hr =>
    unfold push
    split
    · exact ⟨h.1, h.2.1, hr h.2.2⟩
    · exact ⟨hop, h, above_of_root_none hrhs⟩

/-- The root of a pushed tree is the new operator or the old root. -/
theorem push_root {t : OpTree τ} {o : τ} (h : (push prec op rhs t).root = some o) :
    o = op ∨ t.root = some o := by
  cases t with
  | atom tok => exact .inl (Option.some.inj h).symm
  | group opening closing inner => exact .inl (Option.some.inj h).symm
  | node o' l r =>
    unfold push at h
    split at h
    · exact .inr h
    · exact .inl (Option.some.inj h).symm

/-- Pushing keeps a tree grouped: the operator stops above the first one on the
right spine that binds at least as tightly. -/
theorem push_grouped (hrhs : rhs.root = none) (hg : rhs.Grouped prec) {t : OpTree τ}
    (h : t.Grouped prec) : (push prec op rhs t).Grouped prec := by
  induction t with
  | atom tok => exact ⟨h, hg, by simp [root], by simp [hrhs]⟩
  | group opening closing inner _ => exact ⟨h, hg, by simp [root], by simp [hrhs]⟩
  | node o l r _ hr =>
    obtain ⟨hl, hgr, hleft, hright⟩ := h
    unfold push
    split
    · rename_i hlt
      refine ⟨hl, hr hgr, hleft, ?_⟩
      intro o' ho'
      rcases push_root ho' with rfl | hold
      · exact hlt
      · exact hright o' hold
    · rename_i hge
      refine ⟨⟨hl, hgr, hleft, hright⟩, hg, ?_, by simp [hrhs]⟩
      intro o' ho'
      obtain rfl := Option.some.inj ho'
      exact not_lt.mp hge

end

end OpTree

end AroundTheWorld.Base
