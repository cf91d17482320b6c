import Mathlib.Data.List.Basic

/-!
# Patching a symbol table by hand

A symbol table that is patched when names come into scope and unpatched when
they leave it. The cells a table gains are fresh, counted from some bound on;
`Effect leak` says for which names the table still shows one of them. A list of
names is patched one by one and unpatched in the same order, so that a name
which occurs twice keeps what its second patch had saved.
-/

namespace AroundTheWorld.Base.Scopes

variable {ν : Type*}

abbrev Table (ν : Type*) := ν → Option Nat

/-- From `t` to `t'` exactly the names in `leak` have changed, each to a cell
counted from `lo` up to `hi`. -/
structure Effect (leak : ν → Bool) (lo hi : Nat) (t t' : Table ν) : Prop where
  le : lo ≤ hi
  kept : ∀ x, leak x = false → t' x = t x
  fresh : ∀ x, leak x = true → ∃ c, t' x = some c ∧ lo ≤ c ∧ c < hi

theorem Effect.refl {lo hi : Nat} (h : lo ≤ hi) (t : Table ν) :
    Effect (fun _ => false) lo hi t t :=
  ⟨h, fun _ _ => rfl, by simp⟩

theorem Effect.mono {leak : ν → Bool} {lo lo' hi hi' : Nat} {t t' : Table ν}
    (h : Effect leak lo hi t t') (hlo : lo' ≤ lo) (hhi : hi ≤ hi') : Effect leak lo' hi' t t' := by
  have hle := h.le
  refine ⟨by omega, h.kept, ?_⟩
  intro x hx
  obtain ⟨c, hc, hge, hlt⟩ := h.fresh x hx
  exact ⟨c, hc, by omega, by omega⟩

theorem Effect.trans {leak leak' : ν → Bool} {lo mid hi : Nat} {t t' t'' : Table ν}
    (h : Effect leak lo mid t t') (h' : Effect leak' mid hi t' t'') :
    Effect (fun x => leak x || leak' x) lo hi t t'' := by
  have hle := h.le
  have hle' := h'.le
  refine ⟨by omega, ?_, ?_⟩
  · intro x hx
    obtain ⟨h1, h2⟩ := Bool.or_eq_false_iff.mp hx
    rw [h'.kept x h2, h.kept x h1]
  · intro x hx
    cases h2 : leak' x with
    | true =>
      obtain ⟨c, hc, hge, hlt⟩ := h'.fresh x h2
      exact ⟨c, hc, by omega, hlt⟩
    | false =>
      rw [h2, Bool.or_false] at hx
      obtain ⟨c, hc, hge, hlt⟩ := h.fresh x hx
      exact ⟨c, by rw [h'.kept x h2, hc], hge, by omega⟩

/-- A table whose cells lie below `lo` is unchanged exactly when nothing leaks. -/
theorem Effect.eq_iff {leak : ν → Bool} {lo hi : Nat} {t t' : Table ν}
    (h : Effect leak lo hi t t') (hbelow : ∀ x c, t x = some c → c < lo) :
    t' = t ↔ ∀ x, leak x = false := by
  constructor
  · intro heq x
    cases hx : leak x with
    | false => rfl
    | true =>
      obtain ⟨c, hc, hge, -⟩ := h.fresh x hx
      have := hbelow x c (heq ▸ hc)
      omega
  · intro hall
    funext x
    exact h.kept x (hall x)

variable [DecidableEq ν]

def set (t : Table ν) (x : ν) (v : Option Nat) : Table ν := fun k => if k = x then v else t k

/-- One name patched to a fresh cell and unpatched again. -/
theorem Effect.scope {leak leak' : ν → Bool} {lo mid mid' hi : Nat} {t t₁ t₂ : Table ν} {x : ν}
    {c : Nat} (h : Effect leak lo mid t t₁) (h' : Effect leak' mid' hi (set t₁ x (some c)) t₂)
    (hmid : mid ≤ mid') :
    Effect (fun y => leak y || (y ≠ x && leak' y)) lo hi t (set t₂ x (t₁ x)) := by
  have hle := h.le
  have hle' := h'.le
  refine ⟨by omega, ?_, ?_⟩
  · intro y hy
    obtain ⟨h1, h2⟩ := Bool.or_eq_false_iff.mp hy
    by_cases hyx : y = x
    · subst hyx
      rw [set, if_pos rfl, h.kept y h1]
    · rw [set, if_neg hyx, h'.kept y (by simpa [hyx] using h2), set, if_neg hyx, h.kept y h1]
  · intro y hy
    by_cases hyx : y = x
    · subst hyx
      obtain ⟨d, hd, hge, hlt⟩ := h.fresh y (by simpa using hy)
      exact ⟨d, by rw [set, if_pos rfl, hd], hge, by omega⟩
    · cases h2 : leak' y with
      | true =>
        obtain ⟨d, hd, hge, hlt⟩ := h'.fresh y h2
        exact ⟨d, by rw [set, if_neg hyx, hd], by omega, hlt⟩
      | false =>
        obtain ⟨d, hd, hge, hlt⟩ := h.fresh y (by simpa [h2] using hy)
        refine ⟨d, ?_, hge, by omega⟩
        rw [set, if_neg hyx, h'.kept y h2, set, if_neg hyx, hd]

/-! ## Lists of names -/

/-- Unpatching a list of names in the order in which they were patched. -/
def restore : List ν → List (Option Nat) → Table ν → Table ν
  | x :: xs, old :: olds, t => restore xs olds (set t x old)
  | _, _, t => t

/-- The names of a list come into scope: each after a change `leak` of its own,
with a fresh cell, saving what it had meant. -/
inductive Binds : List (ν × (ν → Bool)) → Nat → Table ν → List (Option Nat) → Nat → Table ν → Prop
  | nil {n : Nat} {t : Table ν} : Binds [] n t [] n t
  | cons {x : ν} {leak : ν → Bool} {rest : List (ν × (ν → Bool))} {n n₁ n₂ n' : Nat}
      {t t₁ t' : Table ν} {olds : List (Option Nat)} : Effect leak n n₁ t t₁ → n₁ < n₂ →
      Binds rest n₂ (set t₁ x (some n₁)) olds n' t' →
      Binds ((x, leak) :: rest) n t (t₁ x :: olds) n' t'

/-- The names that a list of bindings around a body leaves changed. -/
def leaksList : List (ν × (ν → Bool)) → (ν → Bool) → ν → Bool
  | [], body, x => body x
  | (y, leak) :: rest, body, x =>
    leak x || (if x = y then (rest.map (·.1)).contains x else leaksList rest body x)

/-- The last value saved for a name. -/
def lastSaved : List ν → List (Option Nat) → ν → Option (Option Nat)
  | y :: ys, old :: olds, x => (lastSaved ys olds x).or (if x = y then some old else none)
  | _, _, _ => none

theorem restore_apply (xs : List ν) (olds : List (Option Nat)) (t : Table ν) (x : ν) :
    restore xs olds t x = (lastSaved xs olds x).getD (t x) := by
  induction xs generalizing olds t with
  | nil => cases olds <;> rfl
  | cons y ys ih =>
    cases olds with
    | nil => rfl
    | cons old olds =>
      rw [restore, ih, lastSaved]
      cases lastSaved ys olds x with
      | some o => rfl
      | none =>
        by_cases hxy : x = y
        · simp [set, hxy]
        · simp [set, hxy]

theorem Binds.le {bs : List (ν × (ν → Bool))} {n n' : Nat} {t t' : Table ν}
    {olds : List (Option Nat)} (h : Binds bs n t olds n' t') : n ≤ n' := by
  induction h with
  | nil => exact Nat.le_refl _
  | cons heff _ _ ih =>
    have := heff.le
    omega

/-- A name outside the list: nothing is saved for it, and it changes as the
bindings change it. -/
theorem Binds.outside {bs : List (ν × (ν → Bool))} {n n' : Nat} {t t' : Table ν}
    {olds : List (Option Nat)} (h : Binds bs n t olds n' t') {x : ν} (hx : x ∉ bs.map (·.1)) :
    lastSaved (bs.map (·.1)) olds x = none ∧
      (leaksList bs (fun _ => false) x = false → t' x = t x) ∧
      (leaksList bs (fun _ => false) x = true → ∃ c, t' x = some c ∧ n ≤ c ∧ c < n') := by
  induction h with
  | nil => exact ⟨rfl, fun _ => rfl, by simp [leaksList]⟩
  | @cons y leak rest n n₁ n₂ n' t t₁ t' olds heff hlt hrest ih =>
    simp only [List.map_cons, List.mem_cons, not_or] at hx
    obtain ⟨hsaved, hkept, hfresh⟩ := ih hx.2
    have hle := heff.le
    have hle' := hrest.le
    refine ⟨by simp [lastSaved, hsaved, hx.1], ?_, ?_⟩
    · intro hleak
      simp only [leaksList, if_neg hx.1, Bool.or_eq_false_iff] at hleak
      rw [hkept hleak.2, set, if_neg hx.1, heff.kept x hleak.1]
    · intro hleak
      cases hr : leaksList rest (fun _ => false) x with
      | true =>
        obtain ⟨c, hc, hge, hlt'⟩ := hfresh hr
        exact ⟨c, hc, by omega, hlt'⟩
      | false =>
        simp only [leaksList, if_neg hx.1, hr, Bool.or_false] at hleak
        obtain ⟨c, hc, hge, hlt'⟩ := heff.fresh x hleak
        refine ⟨c, ?_, hge, by omega⟩
        rw [hkept hr, set, if_neg hx.1, hc]

/-- A name of the list: what is saved last for it is its old meaning, unless its
own initialiser changed it or an earlier occurrence had patched it. -/
theorem Binds.inside {bs : List (ν × (ν → Bool))} {n n' : Nat} {t t' : Table ν}
    {olds : List (Option Nat)} (h : Binds bs n t olds n' t') {x : ν} (hx : x ∈ bs.map (·.1))
    (body : ν → Bool) : ∃ o, lastSaved (bs.map (·.1)) olds x = some o ∧
      (leaksList bs body x = false → o = t x) ∧
      (leaksList bs body x = true → ∃ c, o = some c ∧ n ≤ c ∧ c < n') := by
  induction h with
  | nil => simp at hx
  | @cons y leak rest n n₁ n₂ n' t t₁ t' olds heff hlt hrest ih =>
    have hle := heff.le
    have hle' := hrest.le
    by_cases hin : x ∈ rest.map (·.1)
    · obtain ⟨o, ho, hkept, hfresh⟩ := ih hin
      refine ⟨o, by simp [lastSaved, ho], ?_, ?_⟩
      · intro hleak
        by_cases hxy : x = y
        · simp only [leaksList, if_pos hxy, Bool.or_eq_false_iff] at hleak
          have hcontains : (rest.map (·.1)).contains x = true := List.contains_iff_mem.mpr hin
          rw [hleak.2] at hcontains
          cases hcontains
        · simp only [leaksList, if_neg hxy, Bool.or_eq_false_iff] at hleak
          rw [hkept hleak.2, set, if_neg hxy, heff.kept x hleak.1]
      · intro hleak
        cases hr : leaksList rest body x with
        | true =>
          obtain ⟨c, hc, hge, hlt'⟩ := hfresh hr
          exact ⟨c, hc, by omega, hlt'⟩
        | false =>
          rw [hkept hr]
          by_cases hxy : x = y
          · exact ⟨n₁, by rw [set, if_pos hxy], by omega, by omega⟩
          · simp only [leaksList, if_neg hxy, hr, Bool.or_false] at hleak
            obtain ⟨c, hc, hge, hlt'⟩ := heff.fresh x hleak
            exact ⟨c, by rw [set, if_neg hxy, hc], hge, by omega⟩
    · have hxy : x = y := by simpa [hin] using hx
      have hnone := (hrest.outside hin).1
      subst hxy
      refine ⟨t₁ x, by simp [lastSaved, hnone], ?_, ?_⟩
      · intro hleak
        simp only [leaksList, Bool.or_eq_false_iff] at hleak
        exact heff.kept x hleak.1
      · intro hleak
        have hcontains : (rest.map (·.1)).contains x = false := by simpa using hin
        simp only [leaksList, if_true, hcontains, Bool.or_false] at hleak
        obtain ⟨c, hc, hge, hlt'⟩ := heff.fresh x hleak
        exact ⟨c, hc, hge, by omega⟩

theorem leaksList_outside {bs : List (ν × (ν → Bool))} {body : ν → Bool} {x : ν}
    (hx : x ∉ bs.map (·.1)) :
    leaksList bs body x = (leaksList bs (fun _ => false) x || body x) := by
  induction bs with
  | nil => simp [leaksList]
  | cons b rest ih =>
    obtain ⟨y, leak⟩ := b
    simp only [List.map_cons, List.mem_cons, not_or] at hx
    simp only [leaksList, if_neg hx.1, ih hx.2, Bool.or_assoc]

/-- A list of bindings around a body. -/
theorem Binds.scope {bs : List (ν × (ν → Bool))} {n n' n'' : Nat} {t t' t'' : Table ν}
    {olds : List (Option Nat)} {body : ν → Bool} (h : Binds bs n t olds n' t')
    (hbody : Effect body n' n'' t' t'') :
    Effect (leaksList bs body) n n'' t (restore (bs.map (·.1)) olds t'') := by
  have hle := h.le
  have hle' := hbody.le
  refine ⟨by omega, ?_, ?_⟩
  · intro x hleak
    rw [restore_apply]
    by_cases hin : x ∈ bs.map (·.1)
    · obtain ⟨o, ho, hkept, -⟩ := h.inside hin body
      rw [ho, Option.getD_some, hkept hleak]
    · obtain ⟨hnone, hkept, -⟩ := h.outside hin
      rw [leaksList_outside hin, Bool.or_eq_false_iff] at hleak
      rw [hnone, Option.getD_none, hbody.kept x hleak.2, hkept hleak.1]
  · intro x hleak
    rw [restore_apply]
    by_cases hin : x ∈ bs.map (·.1)
    · obtain ⟨o, ho, -, hfresh⟩ := h.inside hin body
      obtain ⟨c, hc, hge, hlt⟩ := hfresh hleak
      exact ⟨c, by rw [ho, Option.getD_some, hc], hge, by omega⟩
    · obtain ⟨hnone, hkept, hfresh⟩ := h.outside hin
      rw [hnone, Option.getD_none]
      rw [leaksList_outside hin] at hleak
      cases hb : body x with
      | true =>
        obtain ⟨c, hc, hge, hlt⟩ := hbody.fresh x hb
        exact ⟨c, hc, by omega, hlt⟩
      | false =>
        rw [hb, Bool.or_false] at hleak
        obtain ⟨c, hc, hge, hlt⟩ := hfresh hleak
        exact ⟨c, by rw [hbody.kept x hb, hc], hge, by omega⟩

end AroundTheWorld.Base.Scopes
