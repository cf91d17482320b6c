import Mathlib.Data.List.Basic

/-!
# Pulling from a producer

A producer is called again and again, each time in the state that the last call has left.
When a call has at most one result, its outputs are a sequence, finite or not.
-/

namespace AroundTheWorld.Base

variable {σ α : Type*}

/-- The outputs of some calls, in order, and the state behind them. -/
inductive Pulls (next : σ → α → σ → Prop) : σ → List α → σ → Prop where
  | nil (s : σ) : Pulls next s [] s
  | cons {s t u : σ} {a : α} {as : List α} : next s a t → Pulls next t as u →
      Pulls next s (a :: as) u

/-- The output of call `n`, where calls are counted from 0. -/
def Emits (next : σ → α → σ → Prop) (s : σ) (n : Nat) (a : α) : Prop :=
  ∃ as t, as.length = n ∧ Pulls next s (as ++ [a]) t

/-- A call has at most one result. -/
def AtMostOne (next : σ → α → σ → Prop) : Prop :=
  ∀ s a b t u, next s a t → next s b u → a = b ∧ t = u

section
variable {next : σ → α → σ → Prop} {s t u : σ} {a b : α} {as bs : List α} {n m : Nat}

theorem Pulls.append (h : Pulls next s as t) (h' : Pulls next t bs u) :
    Pulls next s (as ++ bs) u := by
  induction h with
  | nil => exact h'
  | cons hnext _ ih => exact .cons hnext (ih h')

theorem Pulls.split (h : Pulls next s (as ++ bs) u) :
    ∃ t, Pulls next s as t ∧ Pulls next t bs u := by
  induction as generalizing s with
  | nil => exact ⟨s, .nil s, h⟩
  | cons a as ih =>
    cases h with
    | cons hnext hrest =>
      obtain ⟨t, has, hbs⟩ := ih hrest
      exact ⟨t, .cons hnext has, hbs⟩

theorem Pulls.snoc (h : Pulls next s as t) (hnext : next t a u) : Pulls next s (as ++ [a]) u :=
  h.append (.cons hnext (.nil u))

theorem Pulls.emits (h : Pulls next s (as ++ a :: bs) t) : Emits next s as.length a := by
  rw [← List.singleton_append, ← List.append_assoc] at h
  obtain ⟨u, h, -⟩ := h.split
  exact ⟨as, u, rfl, h⟩

/-- Whoever gets as far as output `n` has been in front of every earlier one. -/
theorem Emits.pulls (h : Emits next s n a) (hm : m ≤ n) : ∃ as t b u, as.length = m ∧
    Pulls next s as t ∧ next t b u := by
  obtain ⟨as, v, hlen, h⟩ := h
  rw [← List.take_append_drop m as, List.append_assoc] at h
  obtain ⟨t, hfirst, hrest⟩ := h.split
  have htake : (as.take m).length = m := by
    rw [List.length_take]
    omega
  cases hdrop : as.drop m ++ [a] with
  | nil => simp at hdrop
  | cons b bs =>
    rw [hdrop] at hrest
    cases hrest with
    | cons hnext => exact ⟨_, t, b, _, htake, hfirst, hnext⟩

section
variable (hnext : AtMostOne next)
include hnext

theorem Pulls.unique (h : Pulls next s as t) (h' : Pulls next s bs u)
    (hlen : as.length = bs.length) : as = bs ∧ t = u := by
  induction h generalizing bs with
  | nil =>
    cases h' with
    | nil => exact ⟨rfl, rfl⟩
    | cons => cases hlen
  | cons hstep _ ih =>
    cases h' with
    | nil => cases hlen
    | cons hstep' hrest =>
      obtain ⟨rfl, rfl⟩ := hnext _ _ _ _ _ hstep hstep'
      obtain ⟨rfl, rfl⟩ := ih hrest (Nat.succ.inj hlen)
      exact ⟨rfl, rfl⟩

theorem Emits.unique (h : Emits next s n a) (h' : Emits next s n b) : a = b := by
  obtain ⟨as, t, has, h⟩ := h
  obtain ⟨bs, u, hbs, h'⟩ := h'
  obtain ⟨heq, -⟩ := Pulls.unique hnext h h' (by simp [has, hbs])
  exact List.singleton_inj.mp (List.append_inj_right heq (by rw [has, hbs]))

end

/-- A producer that always returns has every output. -/
theorem emits_total {inv : σ → Prop} (htotal : ∀ s, inv s → ∃ a t, next s a t ∧ inv t) (hs : inv s)
    (n : Nat) : ∃ a, Emits next s n a := by
  have hpulls : ∀ n, ∃ as t, as.length = n ∧ Pulls next s as t ∧ inv t := by
    intro n
    induction n with
    | zero => exact ⟨[], s, rfl, .nil s, hs⟩
    | succ n ih =>
      obtain ⟨as, t, hlen, h, ht⟩ := ih
      obtain ⟨a, u, hstep, hu⟩ := htotal t ht
      exact ⟨as ++ [a], u, by simp [hlen], h.snoc hstep, hu⟩
  obtain ⟨as, t, hlen, h, ht⟩ := hpulls n
  obtain ⟨a, u, hstep, -⟩ := htotal t ht
  exact ⟨a, as, u, hlen, h.snoc hstep⟩

end

end AroundTheWorld.Base
