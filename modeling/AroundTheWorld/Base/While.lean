import Mathlib.Data.List.Basic

/-!
# Bounded `while` loops

A `while` loop over a state, with a bound on the number of tests of its
condition. Running out of the bound is `none`, never a state, so a loop that
never exits is one that returns `none` under every bound.
-/

namespace AroundTheWorld.Base

variable {σ : Type*}

/-- `while (cond) body`, testing `cond` at most `n` times. The body may itself
fail to return. -/
def whileLoop (cond : σ → Bool) (body : σ → Option σ) : Nat → σ → Option σ
  | 0, _ => none
  | n + 1, s => if cond s then (body s).bind (whileLoop cond body n) else some s

section
variable {cond : σ → Bool} {body : σ → Option σ}

theorem whileLoop_exit {s : σ} (h : cond s = false) (n : Nat) :
    whileLoop cond body (n + 1) s = some s := by
  simp [whileLoop, h]

theorem whileLoop_step {s t : σ} (h : cond s = true) (hb : body s = some t) (n : Nat) :
    whileLoop cond body (n + 1) s = whileLoop cond body n t := by
  simp [whileLoop, h, hb]

/-- A larger bound and a body that returns at least as often keep every result. -/
theorem whileLoop_mono {body' : σ → Option σ}
    (hle : ∀ s t, body s = some t → body' s = some t) :
    ∀ {n m : Nat} {s t : σ}, n ≤ m → whileLoop cond body n s = some t →
      whileLoop cond body' m s = some t := by
  intro n
  induction n with
  | zero => intro m s t _ h; simp [whileLoop] at h
  | succ n ih =>
    intro m s t hm h
    obtain ⟨m, rfl⟩ := Nat.exists_eq_add_of_le' (Nat.le_trans (Nat.le_add_left 1 n) hm)
    by_cases hc : cond s = true
    · simp only [whileLoop, hc, ↓reduceIte, Option.bind_eq_some_iff] at h ⊢
      obtain ⟨u, hu, hrest⟩ := h
      exact ⟨u, hle s u hu, ih (Nat.le_of_succ_le_succ hm) hrest⟩
    · simp only [Bool.not_eq_true] at hc
      rw [whileLoop_exit hc] at h ⊢
      exact h

/-- The invariant rule: what the body preserves holds at exit, where the
condition is false. -/
theorem whileLoop_invariant (inv : σ → Prop)
    (hstep : ∀ s t, inv s → cond s = true → body s = some t → inv t) :
    ∀ {n : Nat} {s t : σ}, whileLoop cond body n s = some t → inv s → inv t ∧ cond t = false := by
  intro n
  induction n with
  | zero => intro s t h; simp [whileLoop] at h
  | succ n ih =>
    intro s t h hs
    by_cases hc : cond s = true
    · simp only [whileLoop, hc, ↓reduceIte, Option.bind_eq_some_iff] at h
      obtain ⟨u, hu, hrest⟩ := h
      exact ih hrest (hstep s u hs hc hu)
    · simp only [Bool.not_eq_true] at hc
      rw [whileLoop_exit hc] at h
      obtain rfl := Option.some.inj h
      exact ⟨hs, hc⟩

/-- The termination rule: under an invariant, a natural measure that every
iteration decreases bounds the number of iterations. -/
theorem whileLoop_total (inv : σ → Prop) (μ : σ → Nat)
    (hstep : ∀ s, inv s → cond s = true → ∃ t, body s = some t ∧ inv t ∧ μ t < μ s) :
    ∀ {n : Nat} {s : σ}, inv s → μ s < n → ∃ t, whileLoop cond body n s = some t := by
  intro n
  induction n with
  | zero => intro s _ h; omega
  | succ n ih =>
    intro s hs hn
    by_cases hc : cond s = true
    · obtain ⟨t, ht, hinv, hlt⟩ := hstep s hs hc
      rw [whileLoop_step hc ht]
      exact ih hinv (by omega)
    · simp only [Bool.not_eq_true] at hc
      exact ⟨s, whileLoop_exit hc n⟩

end

end AroundTheWorld.Base
