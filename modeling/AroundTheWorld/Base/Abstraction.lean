import AroundTheWorld.Base.Gen

/-!
# Computations on an abstract state

A computation on a state that is seen through a function, beside the computation
on what is seen: they end the same way, with related values, and what the first
one leaves is seen as what the second one leaves.
-/

namespace AroundTheWorld.Base

variable {σ τ ε α β γ δ : Type}

inductive Outcome.Abstracts (see : σ → τ) (R : α → β → Prop) : Outcome σ ε α → Outcome τ ε β →
    Prop where
  | ok {a : α} {b : β} {s : σ} : R a b → Abstracts see R (.ok a s) (.ok b (see s))
  | null {s : σ} : Abstracts see R (.null s) (.null (see s))
  | abort {why : ε} : Abstracts see R (.abort why) (.abort why)

def Gen.Abstracts (see : σ → τ) (R : α → β → Prop) (x : Gen σ ε α) (y : Gen τ ε β) : Prop :=
  ∀ s, (x s).Abstracts see R (y (see s))

/-- Values that are not looked at. -/
def Unseen (_ : α) (_ : β) : Prop := True

/-- Both pointers are null, or neither is. -/
def SameNull (a : Option α) (b : Option β) : Prop := a.isSome = b.isSome

namespace Gen.Abstracts

variable {see : σ → τ} {R : α → β → Prop} {Q : γ → δ → Prop}

theorem pure {a : α} {b : β} (h : R a b) :
    Gen.Abstracts see R (Pure.pure a : Gen σ ε α) (Pure.pure b) := fun _ => .ok h

theorem null : Gen.Abstracts see R (Gen.null : Gen σ ε α) Gen.null := fun _ => .null

theorem abort (why : ε) : Gen.Abstracts see R (Gen.abort why : Gen σ ε α) (Gen.abort why) :=
  fun _ => .abort

theorem bind {x : Gen σ ε α} {y : Gen τ ε β} {f : α → Gen σ ε γ} {g : β → Gen τ ε δ}
    (hx : Gen.Abstracts see R x y) (hf : ∀ a b, R a b → Gen.Abstracts see Q (f a) (g b)) :
    Gen.Abstracts see Q (x >>= f) (y >>= g) := by
  intro s
  show (Gen.bind x f s).Abstracts see Q (Gen.bind y g (see s))
  unfold Gen.bind
  have h := hx s
  generalize x s = r, y (see s) = r' at h ⊢
  cases h with
  | ok hR => exact hf _ _ hR _
  | null => exact .null
  | abort => exact .abort

theorem attempt {x : Gen σ ε α} {y : Gen τ ε β} (hx : Gen.Abstracts see R x y) :
    Gen.Abstracts see SameNull (Gen.attempt x) (Gen.attempt y) := by
  intro s
  unfold Gen.attempt
  have h := hx s
  generalize x s = r, y (see s) = r' at h ⊢
  cases h with
  | ok hR => exact .ok rfl
  | null => exact .ok rfl
  | abort => exact .abort

/-- Another value is returned in the end. -/
theorem finish {x : Gen σ ε α} {y : Gen τ ε β} (hx : Gen.Abstracts see R x y) {g : α → γ}
    {Q : γ → β → Prop} (hg : ∀ a b, R a b → Q (g a) b) :
    Gen.Abstracts see Q (x >>= fun a => Pure.pure (g a)) y := by
  intro s
  show Outcome.Abstracts see Q (Gen.bind x (fun a => Pure.pure (g a)) s) _
  unfold Gen.bind
  have h := hx s
  generalize x s = r, y (see s) = r' at h ⊢
  cases h with
  | ok hR => exact .ok (hg _ _ hR)
  | null => exact .null
  | abort => exact .abort

/-- What follows a pointer that is null is seen as what follows a null one. -/
theorem attempt_bind {x : Gen σ ε α} {y : Gen τ ε β} {f : Option α → Gen σ ε γ}
    {g : Option β → Gen τ ε δ} (hx : Gen.Abstracts see R x y)
    (hnone : Gen.Abstracts see Q (f none) (g none))
    (hsome : ∀ a b, Gen.Abstracts see Q (f (some a)) (g (some b))) :
    Gen.Abstracts see Q (Gen.attempt x >>= f) (Gen.attempt y >>= g) := by
  apply hx.attempt.bind
  intro a b hsame
  cases a with
  | none =>
    cases b with
    | none => exact hnone
    | some b => cases hsame
  | some a =>
    cases b with
    | none => cases hsame
    | some b => exact hsome a b

end Gen.Abstracts

end AroundTheWorld.Base
