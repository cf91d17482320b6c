import Mathlib.Init

/-!
# Computations that return a pointer

Code generators written against a compiler framework return a pointer, which is
null when something is wrong with the source, and change a state on the way. Some
calls do not return at all: a failed assertion, a null pointer that is followed.
-/

namespace AroundTheWorld.Base

inductive Outcome (σ ε α : Type) where
  | ok (a : α) (s : σ)
  | null (s : σ)
  | abort (why : ε)

/-- The final state of a computation that has returned something. -/
def Outcome.state? {σ ε α : Type} : Outcome σ ε α → Option σ
  | .ok _ s => some s
  | _ => none

/-- What a computation has returned. -/
def Outcome.value? {σ ε α : Type} : Outcome σ ε α → Option α
  | .ok a _ => some a
  | _ => none

/-- Why a computation does not return. -/
def Outcome.why? {σ ε α : Type} : Outcome σ ε α → Option ε
  | .ok _ _ => none
  | .null _ => none
  | .abort why => some why

theorem Outcome.abort_of_why {σ ε α : Type} {r : Outcome σ ε α} {why : ε} (h : r.why? = some why) :
    r = .abort why := by
  cases r with
  | abort why' => rw [Option.some.inj h]
  | _ => cases h

theorem Outcome.ok_of_value {σ ε α : Type} {r : Outcome σ ε α} {a : α} (h : r.value? = some a) :
    ∃ s, r = .ok a s := by
  cases r with
  | ok b s => exact ⟨s, by rw [Option.some.inj h]⟩
  | _ => cases h

theorem Outcome.ok_of_state {σ ε α β : Type} {r : Outcome σ ε α} {f : σ → β} {y : β}
    (h : r.state?.map f = some y) : ∃ a s, r = .ok a s ∧ f s = y := by
  cases r with
  | ok a s => exact ⟨a, s, rfl, by simpa [Outcome.state?] using h⟩
  | null s => simp [Outcome.state?] at h
  | abort why => simp [Outcome.state?] at h

theorem Outcome.ok_of_isSome {σ ε α : Type} {r : Outcome σ ε α} (h : r.state?.isSome = true) :
    ∃ a s, r = .ok a s := by
  cases r with
  | ok a s => exact ⟨a, s, rfl⟩
  | _ => cases h

abbrev Gen (σ ε α : Type) := σ → Outcome σ ε α

namespace Gen

variable {σ ε α β : Type}

def pure (a : α) : Gen σ ε α := fun s => .ok a s

def bind (x : Gen σ ε α) (f : α → Gen σ ε β) : Gen σ ε β := fun s =>
  match x s with
  | .ok a s' => f a s'
  | .null s' => .null s'
  | .abort why => .abort why

def null : Gen σ ε α := fun s => .null s

def abort (why : ε) : Gen σ ε α := fun _ => .abort why

/-- The pointer itself, for callers that test it later. -/
def attempt (x : Gen σ ε α) : Gen σ ε (Option α) := fun s =>
  match x s with
  | .ok a s' => .ok (some a) s'
  | .null s' => .ok none s'
  | .abort why => .abort why

end Gen

instance {σ ε : Type} : Monad (Gen σ ε) where
  pure := Gen.pure
  bind := Gen.bind

variable {σ ε α β : Type}

theorem Gen.bind_ok {x : Gen σ ε α} {f : α → Gen σ ε β} {s s'' : σ} {b : β}
    (h : (x >>= f) s = .ok b s'') : ∃ a s', x s = .ok a s' ∧ f a s' = .ok b s'' := by
  change Gen.bind x f s = _ at h
  unfold Gen.bind at h
  split at h
  · rename_i a s' hx
    exact ⟨a, s', hx, h⟩
  · cases h
  · cases h

theorem Gen.bind_abort {x : Gen σ ε α} {f : α → Gen σ ε β} {s : σ} {why : ε}
    (h : (x >>= f) s = .abort why) :
    x s = .abort why ∨ ∃ a s', x s = .ok a s' ∧ f a s' = .abort why := by
  change Gen.bind x f s = _ at h
  unfold Gen.bind at h
  split at h
  · rename_i a s' hx
    exact .inr ⟨a, s', hx, h⟩
  · cases h
  · rename_i why' hx
    cases h
    exact .inl hx

theorem Gen.attempt_some {x : Gen σ ε α} {s s' : σ} {a : α}
    (h : Gen.attempt x s = .ok (some a) s') : x s = .ok a s' := by
  unfold Gen.attempt at h
  split at h
  · cases h
    assumption
  · cases h
  · cases h

/-- Nothing is returned when what follows returns nothing. -/
theorem Gen.bind_never {x : Gen σ ε α} {f : α → Gen σ ε β} {s : σ}
    (hf : ∀ a s, (f a s).state? = none) : ((x >>= f) s).state? = none := by
  show (Gen.bind x f s).state? = none
  unfold Gen.bind
  cases x s with
  | ok a s' => exact hf a s'
  | null s' => rfl
  | abort why => rfl

theorem Gen.bind_of_ok {x : Gen σ ε α} {f : α → Gen σ ε β} {s s' : σ} {a : α}
    (h : x s = .ok a s') : (x >>= f) s = f a s' := by
  show Gen.bind x f s = _
  unfold Gen.bind
  rw [h]

theorem Gen.bind_of_null {x : Gen σ ε α} {f : α → Gen σ ε β} {s s' : σ} (h : x s = .null s') :
    (x >>= f) s = .null s' := by
  show Gen.bind x f s = _
  unfold Gen.bind
  rw [h]

theorem Gen.bind_of_abort {x : Gen σ ε α} {f : α → Gen σ ε β} {s : σ} {why : ε}
    (h : x s = .abort why) : (x >>= f) s = .abort why := by
  show Gen.bind x f s = _
  unfold Gen.bind
  rw [h]

/-- What follows a call matters only in the states that it returns. -/
theorem Gen.bind_congr {x : Gen σ ε α} {f g : α → Gen σ ε β} {s : σ}
    (h : ∀ a s', x s = .ok a s' → f a s' = g a s') : (x >>= f) s = (x >>= g) s := by
  show Gen.bind x f s = Gen.bind x g s
  unfold Gen.bind
  cases hx : x s with
  | ok a s' => exact h a s' hx
  | null s' => rfl
  | abort why => rfl

theorem Gen.attempt_of_ok {x : Gen σ ε α} {s s' : σ} {a : α} (h : x s = .ok a s') :
    Gen.attempt x s = .ok (some a) s' := by
  unfold Gen.attempt
  rw [h]

/-! ## Invariants -/

/-- Every state that is returned satisfies `J`, every abort satisfies `err`. -/
def Outcome.Within (J : σ → Prop) (err : ε → Prop) : Outcome σ ε α → Prop
  | .ok _ s => J s
  | .null s => J s
  | .abort why => err why

/-- The state in which a computation returns, with a pointer or with null. -/
def Outcome.returned? : Outcome σ ε α → Option σ
  | .ok _ s => some s
  | .null s => some s
  | .abort _ => none

theorem Outcome.not_within {J : σ → Prop} {err : ε → Prop} {r : Outcome σ ε α} {β : Type}
    {f : σ → β} {y : β} (hr : r.returned?.map f = some y) (hbad : ∀ s, f s = y → ¬ J s) :
    ¬ r.Within J err := by
  cases r with
  | ok a s => exact hbad s (Option.some.inj hr)
  | null s => exact hbad s (Option.some.inj hr)
  | abort why => cases hr

/-- `J` survives a call, whether it returns a pointer or null. -/
def Gen.Keeps (J : σ → Prop) (err : ε → Prop) (x : Gen σ ε α) : Prop :=
  ∀ s, J s → (x s).Within J err

namespace Gen.Keeps

variable {J : σ → Prop} {err : ε → Prop}

theorem pure (a : α) : Gen.Keeps J err (Pure.pure a : Gen σ ε α) := fun _ h => h

theorem null : Gen.Keeps J err (Gen.null : Gen σ ε α) := fun _ h => h

theorem abort {why : ε} (h : err why) : Gen.Keeps J err (Gen.abort why : Gen σ ε α) :=
  fun _ _ => h

/-- A state that is returned. -/
theorem returned {x : Gen σ ε α} (hx : Gen.Keeps J err x) {s s' : σ} {a : α} (hs : J s)
    (hrun : x s = .ok a s') : J s' := by
  have h := hx s hs
  rwa [hrun] at h

theorem bind {x : Gen σ ε α} {f : α → Gen σ ε β} (hx : Gen.Keeps J err x)
    (hf : ∀ a, Gen.Keeps J err (f a)) : Gen.Keeps J err (x >>= f) := by
  intro s hs
  have h := hx s hs
  change (Gen.bind x f s).Within J err
  unfold Gen.bind
  cases hrun : x s with
  | ok a s' => exact hf a s' (by rwa [hrun] at h)
  | null s' => rwa [hrun] at h
  | abort why => rwa [hrun] at h

theorem attempt {x : Gen σ ε α} (hx : Gen.Keeps J err x) : Gen.Keeps J err (Gen.attempt x) := by
  intro s hs
  have h := hx s hs
  unfold Gen.attempt
  cases hrun : x s with
  | ok a s' => rwa [hrun] at h
  | null s' => rwa [hrun] at h
  | abort why => rwa [hrun] at h

/-- A change of the state that always returns. -/
theorem of_eq {x : Gen σ ε α} {a : σ → α} {f : σ → σ} (hx : ∀ s, x s = .ok (a s) (f s))
    (hf : ∀ s, J s → J (f s)) : Gen.Keeps J err x := by
  intro s hs
  rw [hx]
  exact hf s hs

end Gen.Keeps

/-! ## Relations between the states -/

/-- A successful call takes the state to a related one. -/
def Gen.Relates (R : σ → σ → Prop) (x : Gen σ ε α) : Prop := ∀ s a s', x s = .ok a s' → R s s'

namespace Gen.Relates

variable {R : σ → σ → Prop}

theorem failed {x : Gen σ ε α} (hx : ∀ s, (x s).state? = none) : Gen.Relates R x := by
  intro s a s' hrun
  have hnone := hx s
  rw [hrun] at hnone
  cases hnone

theorem pure [Std.Refl R] (a : α) : Gen.Relates R (Pure.pure a : Gen σ ε α) := by
  intro s a' s' hrun
  cases hrun
  exact Std.Refl.refl s

variable [Trans R R R]

theorem bind {x : Gen σ ε α} {f : α → Gen σ ε β} (hx : Gen.Relates R x)
    (hf : ∀ a, Gen.Relates R (f a)) : Gen.Relates R (x >>= f) := by
  intro s b s'' hrun
  obtain ⟨a, s', hrun, hrun'⟩ := Gen.bind_ok hrun
  exact Trans.trans (hx s a s' hrun) (hf a s' b s'' hrun')

/-- A pointer that is tested later: without it nothing succeeds. -/
theorem attempt_bind {x : Gen σ ε α} {f : Option α → Gen σ ε β} (hx : Gen.Relates R x)
    (hnone : ∀ s, (f none s).state? = none) (hf : ∀ a, Gen.Relates R (f (some a))) :
    Gen.Relates R (Gen.attempt x >>= f) := by
  intro s b s'' hrun
  obtain ⟨a, s', hrun, hrun'⟩ := Gen.bind_ok hrun
  cases a with
  | none =>
    have hstate := hnone s'
    rw [hrun'] at hstate
    cases hstate
  | some a => exact Trans.trans (hx s a s' (Gen.attempt_some hrun)) (hf a s' b s'' hrun')

end Gen.Relates

end AroundTheWorld.Base
