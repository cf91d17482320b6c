import AroundTheWorld.Base.Steps

/-!
# Following evaluations that call something outside

An evaluation ends with a result, or in a call of something outside that does not
come back, or in something that it gives no meaning to. A machine follows it when it
gets to a state that goes with the result, or stops in the same call. Code that is only
added to keeps what has been emitted where it is.
-/

namespace AroundTheWorld.Base

/-- `ρ` is the state of the evaluation, `κ` what it waits for. -/
inductive Ending (ρ κ α : Type*) where
  | done (result : α) (state : ρ)
  | waits (what : κ) (state : ρ)
  | unknown

namespace Ending

variable {ρ κ α β : Type*}

def bind (e : Ending ρ κ α) (f : α → ρ → Ending ρ κ β) : Ending ρ κ β :=
  match e with
  | done result state => f result state
  | waits what state => waits what state
  | unknown => unknown

def map (f : α → β) (e : Ending ρ κ α) : Ending ρ κ β := e.bind fun a state => done (f a) state

theorem bind_bind {γ : Type*} (e : Ending ρ κ α) (f : α → ρ → Ending ρ κ β)
    (g : β → ρ → Ending ρ κ γ) :
    (e.bind f).bind g = e.bind fun a state => (f a state).bind g := by
  cases e <;> rfl

end Ending

variable {ρ κ α β σ : Type*}

/-- From `a` the machine gets to a state that is `good` for the result, or it stops where
the evaluation waits. -/
def Follows (step : σ → Option σ) (stops : κ → ρ → σ → Prop) (a : σ) (e : Ending ρ κ α)
    (good : α → ρ → σ → Prop) : Prop :=
  match e with
  | .done result state => ∃ b, Reaches step a b ∧ good result state b
  | .waits what state => ∃ b, Reaches step a b ∧ step b = none ∧ stops what state b
  | .unknown => True

namespace Follows

variable {step : σ → Option σ} {stops : κ → ρ → σ → Prop} {a b : σ} {e : Ending ρ κ α}
  {good : α → ρ → σ → Prop}

theorem done {result : α} {state : ρ} (h : good result state a) :
    Follows step stops a (.done result state) good :=
  ⟨a, Reaches.refl, h⟩

theorem waits {what : κ} {state : ρ} (hstep : step a = none) (h : stops what state a) :
    Follows step stops a (.waits what state : Ending ρ κ α) good :=
  ⟨a, Reaches.refl, hstep, h⟩

theorem after (h : Reaches step a b) (hf : Follows step stops b e good) :
    Follows step stops a e good := by
  cases e with
  | done result state =>
    obtain ⟨c, hreach, hgood⟩ := hf
    exact ⟨c, h.trans hreach, hgood⟩
  | waits what state =>
    obtain ⟨c, hreach, hstop⟩ := hf
    exact ⟨c, h.trans hreach, hstop⟩
  | unknown => trivial

theorem bind {f : α → ρ → Ending ρ κ β} {good' : β → ρ → σ → Prop}
    (h : Follows step stops a e good)
    (hf : ∀ result state b, good result state b → Follows step stops b (f result state) good') :
    Follows step stops a (e.bind f) good' := by
  cases e with
  | done result state =>
    obtain ⟨b, hreach, hgood⟩ := h
    exact (hf result state b hgood).after hreach
  | waits what state => exact h
  | unknown => trivial

/-- The machine goes on behind the result. -/
theorem followed {good' : α → ρ → σ → Prop} (h : Follows step stops a e good)
    (hgo : ∀ result state b, good result state b →
      ∃ c, Reaches step b c ∧ good' result state c) : Follows step stops a e good' := by
  cases e with
  | done result state =>
    obtain ⟨b, hreach, hgood⟩ := h
    obtain ⟨c, hreach', hgood'⟩ := hgo result state b hgood
    exact ⟨c, hreach.trans hreach', hgood'⟩
  | waits what state => exact h
  | unknown => trivial

theorem mono {good' : α → ρ → σ → Prop} (h : Follows step stops a e good)
    (hle : ∀ result state b, good result state b → good' result state b) :
    Follows step stops a e good' :=
  h.followed fun result state b hgood => ⟨b, Reaches.refl, hle result state b hgood⟩

theorem map {f : α → β} {good' : β → ρ → σ → Prop} (h : Follows step stops a e good)
    (hle : ∀ result state b, good result state b → good' (f result) state b) :
    Follows step stops a (e.map f) good' :=
  h.bind fun result state b hgood => .done (hle result state b hgood)

end Follows

/-! ## Emitted code -/

theorem getElem?_of_le {ι : Type*} {l l' : List ι} (h : l <+: l') {i : Nat} {x : ι}
    (hx : l[i]? = some x) : l'[i]? = some x := by
  obtain ⟨more, hmore⟩ := h
  rw [← hmore, List.getElem?_append_left (List.getElem?_eq_some_iff.mp hx).1, hx]

/-- `final` has what was added to the blocks from `code` to `code'` where it was added. -/
def Emitted {ι : Type*} (code code' final : Nat → List ι) : Prop :=
  ∀ l i x, (code l).length ≤ i → (code' l)[i]? = some x → (final l)[i]? = some x

namespace Emitted

variable {ι : Type*} {code code' code'' final : Nat → List ι}

theorem of_le (h : ∀ l, code' l <+: final l) : Emitted code code' final := by
  intro l i x _ hx
  exact getElem?_of_le (h l) hx

/-- What has been emitted first. -/
theorem first (h : Emitted code code'' final) (hle : ∀ l, code' l <+: code'' l) :
    Emitted code code' final := by
  intro l i x hi hx
  exact h l i x hi (getElem?_of_le (hle l) hx)

/-- What has been emitted then. -/
theorem rest (h : Emitted code code'' final) (hle : ∀ l, code l <+: code' l) :
    Emitted code' code'' final := by
  intro l i x hi hx
  exact h l i x (Nat.le_trans (hle l).length_le hi) hx

theorem fetch (h : Emitted code code' final) {l : Nat} {x : ι}
    (hx : code l ++ [x] <+: code' l) : (final l)[(code l).length]? = some x := by
  apply h l _ x (Nat.le_refl _)
  obtain ⟨more, hmore⟩ := hx
  rw [← hmore]
  simp

end Emitted

end AroundTheWorld.Base
