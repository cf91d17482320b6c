import AroundTheWorld.Base.Steps

/-!
# How often a run comes by

The states of a deterministic run in which `P` holds, in order, up to a state in
which `stop` does. A loop comes by at the head of its body once for each
iteration, and stops behind the loop.
-/

namespace AroundTheWorld.Base

variable {σ : Type} (step : σ → Option σ) (P stop : σ → Prop)

/-- The first state behind `a` in which `P` holds, if `stop` does not hold before. -/
inductive Arrives : σ → σ → Prop where
  | here {a b : σ} : step a = some b → P b → Arrives a b
  | skip {a b c : σ} : step a = some b → ¬ P b → ¬ stop b → Arrives b c → Arrives a c

/-- The state in which the run comes by for the `k`-th time, counted from zero. -/
def Visits (a : σ) : Nat → σ → Prop
  | 0, b => Arrives step P stop a b
  | k + 1, b => ∃ c, Visits a k c ∧ Arrives step P stop c b

/-- A run that does not come by and does not stop behind its first state. -/
inductive Quiet : σ → σ → Prop where
  | refl {a : σ} : Quiet a a
  | head {a b c : σ} : step a = some b → ¬ P b → ¬ stop b → Quiet b c → Quiet a c

variable {step P stop} {a b c : σ}

theorem Arrives.unique (h : Arrives step P stop a b) (h' : Arrives step P stop a c) : b = c := by
  induction h with
  | here hstep hP =>
    cases h' with
    | here hstep' _ => exact Option.some.inj (hstep.symm.trans hstep')
    | skip hstep' hP' _ _ =>
      obtain rfl := Option.some.inj (hstep.symm.trans hstep')
      exact absurd hP hP'
  | skip hstep hP _ _ ih =>
    cases h' with
    | here hstep' hP' =>
      obtain rfl := Option.some.inj (hstep.symm.trans hstep')
      exact absurd hP' hP
    | skip hstep' _ _ hrest =>
      obtain rfl := Option.some.inj (hstep.symm.trans hstep')
      exact ih hrest

theorem Visits.holds {k : Nat} (h : Visits step P stop a k b) : P b := by
  have harrives : ∃ c, Arrives step P stop c b := by
    cases k with
    | zero => exact ⟨a, h⟩
    | succ k =>
      obtain ⟨c, _, hc⟩ := h
      exact ⟨c, hc⟩
  obtain ⟨c, hc⟩ := harrives
  induction hc with
  | here _ hP => exact hP
  | skip _ _ _ _ ih => exact ih h

theorem Quiet.one (hstep : step a = some b) (hP : ¬ P b) (hstop : ¬ stop b) :
    Quiet step P stop a b := .head hstep hP hstop .refl

theorem Quiet.trans (h : Quiet step P stop a b) (h' : Quiet step P stop b c) :
    Quiet step P stop a c := by
  induction h with
  | refl => exact h'
  | head hstep hP hstop _ ih => exact .head hstep hP hstop (ih h')

theorem Quiet.arrives (h : Quiet step P stop a b) (h' : Arrives step P stop b c) :
    Arrives step P stop a c := by
  induction h with
  | refl => exact h'
  | head hstep hP hstop _ ih => exact .skip hstep hP hstop (ih h')

/-- A run that stops does not come by any more. -/
theorem Quiet.stopped (h : Quiet step P stop a b) (hstep : step b = some c) (hP : ¬ P c)
    (hstop : stop c) {d : σ} : ¬ Arrives step P stop a d := by
  induction h with
  | refl =>
    intro h
    cases h with
    | here hstep' hP' =>
      obtain rfl := Option.some.inj (hstep.symm.trans hstep')
      exact hP hP'
    | skip hstep' _ hstop' _ =>
      obtain rfl := Option.some.inj (hstep.symm.trans hstep')
      exact hstop' hstop
  | head hstep' hP' _ _ ih =>
    intro h
    cases h with
    | here hstep'' hP'' =>
      obtain rfl := Option.some.inj (hstep'.symm.trans hstep'')
      exact hP' hP''
    | skip hstep'' _ _ hrest =>
      obtain rfl := Option.some.inj (hstep'.symm.trans hstep'')
      exact ih hstep hrest

/-- An invariant of the visits. `more k` says that the run comes by again after
its `k`-th visit. -/
theorem visits_of_inv {Inv : Nat → σ → Prop} {more : Nat → Prop}
    (hfirst : ∃ b, Arrives step P stop a b ∧ Inv 0 b)
    (hmore : ∀ k b, Visits step P stop a k b → Inv k b → more k →
      ∃ c, Arrives step P stop b c ∧ Inv (k + 1) c)
    (hlast : ∀ k b, Visits step P stop a k b → Inv k b → ¬ more k →
      ∀ c, ¬ Arrives step P stop b c) (k : Nat) :
    (∀ b, Visits step P stop a k b → Inv k b ∧ ∀ j < k, more j) ∧
      ((∀ j < k, more j) → ∃ b, Visits step P stop a k b ∧ Inv k b) := by
  induction k with
  | zero =>
    obtain ⟨b, hb, hinv⟩ := hfirst
    constructor
    · intro c hc
      obtain rfl := Arrives.unique hb hc
      exact ⟨hinv, fun j hj => absurd hj (Nat.not_lt_zero j)⟩
    · intro _
      exact ⟨b, hb, hinv⟩
  | succ k ih =>
    obtain ⟨hvisit, hexists⟩ := ih
    constructor
    · intro b ⟨c, hc, hb⟩
      obtain ⟨hinv, hbefore⟩ := hvisit c hc
      have hagain : more k := by
        by_contra hnot
        exact hlast k c hc hinv hnot b hb
      obtain ⟨b', hb', hinv'⟩ := hmore k c hc hinv hagain
      obtain rfl := hb.unique hb'
      refine ⟨hinv', fun j hj => ?_⟩
      rcases Nat.lt_succ_iff_lt_or_eq.mp hj with hj | rfl
      · exact hbefore j hj
      · exact hagain
    · intro hall
      obtain ⟨c, hc, hinv⟩ := hexists fun j hj => hall j (by omega)
      obtain ⟨b, hb, hinv'⟩ := hmore k c hc hinv (hall k (Nat.lt_succ_self k))
      exact ⟨b, ⟨c, hc, hb⟩, hinv'⟩

end AroundTheWorld.Base
