import AroundTheWorld.Base.Gen

/-!
# Computations that only add

A computation that builds something, seen through `view`, keeps it well formed and only
adds to it, and something holds of what it returns. What holds may be of such a kind that
it stays true when more is added; then the rest of the computation may rely on it.
-/

namespace AroundTheWorld.Base

variable {τ σ ε α β γ : Type}

/-- What is well formed stays so when it grows, step by step. -/
class Growth (Wf : τ → Prop) (Grown : τ → τ → Prop) : Prop where
  refl : ∀ {t}, Wf t → Grown t t
  trans : ∀ {t t' t''}, Grown t t' → Grown t' t'' → Grown t t''
  wf : ∀ {t t'}, Grown t t' → Wf t'

/-- A successful call adds to what is built, and `Q` holds of what it returns. -/
def Gen.Extends (Wf : τ → Prop) (Grown : τ → τ → Prop) (view : σ → τ) (Q : α → τ → Prop)
    (x : Gen σ ε α) : Prop :=
  ∀ s a s', Wf (view s) → x s = .ok a s' → Grown (view s) (view s') ∧ Q a (view s')

/-- Nothing is said of what is returned. -/
def Any (_ : α) (_ : τ) : Prop := True

/-- What holds goes on to hold when something is added. -/
def Lasting (Grown : τ → τ → Prop) (Q : α → τ → Prop) : Prop :=
  ∀ a t t', Grown t t' → Q a t → Q a t'

namespace Gen.Extends

variable {Wf : τ → Prop} {Grown : τ → τ → Prop} {view : σ → τ} {Q Q' : α → τ → Prop}
  {R : β → τ → Prop} {x : Gen σ ε α} {f : α → Gen σ ε β}

theorem failed (hx : ∀ s, (x s).state? = none) : Gen.Extends Wf Grown view Q x := by
  intro s a s' _ hrun
  have hnone := hx s
  rw [hrun] at hnone
  cases hnone

theorem mono (hx : Gen.Extends Wf Grown view Q x) (h : ∀ a t, Q a t → Q' a t) :
    Gen.Extends Wf Grown view Q' x := by
  intro s a s' hwf hrun
  obtain ⟨hgrown, hQ⟩ := hx s a s' hwf hrun
  exact ⟨hgrown, h a _ hQ⟩

theorem any (hx : Gen.Extends Wf Grown view Q x) : Gen.Extends Wf Grown view Any x :=
  hx.mono fun _ _ _ => trivial

variable [hgrowth : Growth Wf Grown]
include hgrowth

theorem pure {a : α} (ha : ∀ t, Q a t) :
    Gen.Extends Wf Grown view Q (Pure.pure a : Gen σ ε α) := by
  intro s a' s' hwf hrun
  cases hrun
  exact ⟨hgrowth.refl hwf, ha _⟩

/-- Something is changed that is no part of what is built. -/
theorem of_same (hx : ∀ s a s', x s = .ok a s' → view s' = view s) :
    Gen.Extends Wf Grown view Any x := by
  intro s a s' hwf hrun
  rw [hx s a s' hrun]
  exact ⟨hgrowth.refl hwf, trivial⟩

/-- What is returned first is still there behind the rest. -/
theorem carry (hx : Gen.Extends Wf Grown view Q x) (hQ : Lasting Grown Q)
    (hf : ∀ a, Gen.Extends Wf Grown view (fun b t => Q a t → R b t) (f a)) :
    Gen.Extends Wf Grown view R (x >>= f) := by
  intro s b s'' hwf hrun
  obtain ⟨a, s', hrun, hrun'⟩ := Gen.bind_ok hrun
  obtain ⟨hgrown, ha⟩ := hx s a s' hwf hrun
  obtain ⟨hgrown', hR⟩ := hf a s' b s'' (hgrowth.wf hgrown) hrun'
  exact ⟨hgrowth.trans hgrown hgrown', hR (hQ a _ _ hgrown' ha)⟩

theorem bind (hx : Gen.Extends Wf Grown view Q x) (hf : ∀ a, Gen.Extends Wf Grown view R (f a)) :
    Gen.Extends Wf Grown view R (x >>= f) :=
  hx.any.carry (fun _ _ _ _ _ => trivial) fun a => (hf a).mono fun _ _ h _ => h

/-- A pointer that is tested later: without it nothing succeeds. -/
theorem attempt_carry {f : Option α → Gen σ ε β} (hx : Gen.Extends Wf Grown view Q x)
    (hQ : Lasting Grown Q) (hnone : ∀ s, (f none s).state? = none)
    (hf : ∀ a, Gen.Extends Wf Grown view (fun b t => Q a t → R b t) (f (some a))) :
    Gen.Extends Wf Grown view R (Gen.attempt x >>= f) := by
  intro s b s'' hwf hrun
  obtain ⟨a, s', hrun, hrun'⟩ := Gen.bind_ok hrun
  cases a with
  | none =>
    have hstate := hnone s'
    rw [hrun'] at hstate
    cases hstate
  | some a =>
    obtain ⟨hgrown, ha⟩ := hx s a s' hwf (Gen.attempt_some hrun)
    obtain ⟨hgrown', hR⟩ := hf a s' b s'' (hgrowth.wf hgrown) hrun'
    exact ⟨hgrowth.trans hgrown hgrown', hR (hQ a _ _ hgrown' ha)⟩

theorem attempt_bind {f : Option α → Gen σ ε β} (hx : Gen.Extends Wf Grown view Q x)
    (hnone : ∀ s, (f none s).state? = none) (hf : ∀ a, Gen.Extends Wf Grown view R (f (some a))) :
    Gen.Extends Wf Grown view R (Gen.attempt x >>= f) :=
  hx.any.attempt_carry (fun _ _ _ _ _ => trivial) hnone fun a => (hf a).mono fun _ _ h _ => h

/-- Two calls of which neither is tested before both have been made. -/
theorem attempts {y : Gen σ ε γ} {T : γ → τ → Prop} {k : Option α → Option γ → Gen σ ε β}
    (hx : Gen.Extends Wf Grown view Q x) (hy : Gen.Extends Wf Grown view T y)
    (hk : ∀ a b, Gen.Extends Wf Grown view R (k (some a) (some b)))
    (hl : ∀ r s, (k none r s).state? = none) (hr : ∀ l s, (k l none s).state? = none) :
    Gen.Extends Wf Grown view R (do
      let l ← Gen.attempt x
      let r ← Gen.attempt y
      k l r) := by
  apply hx.attempt_bind
  · exact fun s => Gen.bind_never fun r => hl r
  · exact fun a => hy.attempt_bind (hr (some a)) (hk a)

/-- Some bindings, a body, and the bindings undone: its value is that of the body. -/
theorem in_scope {bindings : Gen σ ε γ} {body : Gen σ ε α} {restore : γ → Gen σ ε Unit}
    {finish : Option α → Gen σ ε α} (hbindings : Gen.Extends Wf Grown view Any bindings)
    (hbody : Gen.Extends Wf Grown view Q body) (hQ : Lasting Grown Q)
    (hrestore : ∀ olds s a s', restore olds s = .ok a s' → view s' = view s)
    (hnone : ∀ s, (finish none s).state? = none) (hsome : ∀ a, finish (some a) = Pure.pure a) :
    Gen.Extends Wf Grown view Q (do
      let olds ← bindings
      let bodyVal ← Gen.attempt body
      restore olds
      finish bodyVal) := by
  apply hbindings.bind
  intro olds
  apply hbody.attempt_carry hQ
  · exact fun s => Gen.bind_never fun _ => hnone
  · intro a
    rw [hsome]
    exact (of_same (hrestore olds)).bind fun _ => pure fun _ h => h

end Gen.Extends

end AroundTheWorld.Base
