import AroundTheWorld.Base.While

/-!
# Runs of a deterministic machine

A machine is a partial step function. `Steps n a b` is a run of exactly `n`
steps. A run that halts is the longest one, so what a halting run ends in is
unique; `Stalls N blocked a` collects the ways in which a run can fail to halt
properly within `N` steps.
-/

namespace AroundTheWorld.Base

variable {σ : Type*} (step : σ → Option σ)

inductive Steps : Nat → σ → σ → Prop where
  | refl {a : σ} : Steps 0 a a
  | head {n : Nat} {a b c : σ} : step a = some b → Steps n b c → Steps (n + 1) a c

def Reaches (a b : σ) : Prop := ∃ n, Steps step n a b

/-- From `a`, the machine runs for at least `N` steps or ends up `blocked`. -/
def Stalls (N : Nat) (blocked : σ → Prop) (a : σ) : Prop :=
  ∃ n c, Steps step n a c ∧ (N ≤ n ∨ blocked c)

variable {step} {a b c : σ} {n m N : Nat} {blocked : σ → Prop}

theorem Steps.one (h : step a = some b) : Steps step 1 a b := .head h .refl

theorem Steps.trans (h : Steps step n a b) (h' : Steps step m b c) : Steps step (n + m) a c := by
  induction h with
  | refl =>
    rw [Nat.zero_add]
    exact h'
  | @head n _ _ _ hstep _ ih =>
    rw [Nat.add_right_comm]
    exact .head hstep (ih h')

/-- The longer of two runs from one state continues the shorter one. -/
theorem Steps.diff (h : Steps step n a b) (h' : Steps step m a c) (hle : n ≤ m) :
    Steps step (m - n) b c := by
  induction h generalizing m with
  | refl => exact h'
  | @head n _ _ _ hstep _ ih =>
    cases h' with
    | refl => omega
    | @head m _ _ _ hstep' hrest =>
      rw [hstep] at hstep'
      obtain rfl := Option.some.inj hstep'
      rw [Nat.add_sub_add_right]
      exact ih hrest (by omega)

theorem Steps.eq_of_halted (h : Steps step n a b) (hb : step a = none) : n = 0 ∧ b = a := by
  cases h with
  | refl => exact ⟨rfl, rfl⟩
  | head hstep _ =>
    rw [hb] at hstep
    cases hstep

/-- No run is longer than one that has halted. -/
theorem Steps.le_of_halted (h : Steps step n a b) (hb : step b = none) (h' : Steps step m a c) :
    m ≤ n := by
  by_contra hlt
  have hdiff := h.diff h' (by omega)
  have hzero := (hdiff.eq_of_halted hb).1
  omega

theorem Reaches.refl : Reaches step a a := ⟨0, .refl⟩

theorem Reaches.one (h : step a = some b) : Reaches step a b := ⟨1, .one h⟩

theorem Reaches.trans (h : Reaches step a b) (h' : Reaches step b c) : Reaches step a c := by
  obtain ⟨n, hn⟩ := h
  obtain ⟨m, hm⟩ := h'
  exact ⟨n + m, hn.trans hm⟩

theorem Reaches.halted_unique (h : Reaches step a b) (hb : step b = none) (h' : Reaches step a c)
    (hc : step c = none) : c = b := by
  obtain ⟨n, hn⟩ := h
  obtain ⟨m, hm⟩ := h'
  have hle : m ≤ n := hn.le_of_halted hb hm
  have hge : n ≤ m := hm.le_of_halted hc hn
  have hdiff := hn.diff hm hge
  exact (hdiff.eq_of_halted hb).2

/-- Where the machine is after `n` steps, or where it has halted before. -/
def settle (step : σ → Option σ) : Nat → σ → σ
  | 0, a => a
  | n + 1, a =>
    match step a with
    | some b => settle step n b
    | none => a

theorem reaches_settle (n : Nat) (a : σ) : Reaches step a (settle step n a) := by
  induction n generalizing a with
  | zero => exact .refl
  | succ n ih =>
    rw [settle]
    cases hstep : step a with
    | some b => exact (Reaches.one hstep).trans (ih b)
    | none => exact .refl

theorem Stalls.after (h : Reaches step a b) (hs : Stalls step N blocked b) :
    Stalls step N blocked a := by
  obtain ⟨k, hk⟩ := h
  obtain ⟨n, c, hn, hc⟩ := hs
  refine ⟨k + n, c, hk.trans hn, ?_⟩
  rcases hc with hc | hc
  · exact .inl (by omega)
  · exact .inr hc

theorem Stalls.of_blocked (h : blocked a) : Stalls step N blocked a := ⟨0, a, .refl, .inr h⟩

theorem Stalls.mono {M : Nat} (h : Stalls step N blocked a) (hle : M ≤ N) :
    Stalls step M blocked a := by
  obtain ⟨n, c, hn, hc⟩ := h
  refine ⟨n, c, hn, ?_⟩
  rcases hc with hc | hc
  · exact .inl (by omega)
  · exact .inr hc

/-- A machine that stalls with every bound never halts outside `blocked`. -/
theorem not_halts_of_stalls (hblocked : ∀ c, blocked c → step c = none) (h : Steps step n a b)
    (hb : step b = none) (hs : Stalls step (n + 1) blocked a) : blocked b := by
  obtain ⟨m, c, hm, hc⟩ := hs
  have hle : m ≤ n := h.le_of_halted hb hm
  rcases hc with hc | hc
  · omega
  · have heq : c = b := Reaches.halted_unique ⟨n, h⟩ hb ⟨m, hm⟩ (hblocked c hc)
    exact heq ▸ hc

/-! ## Simulating a bounded evaluation -/

variable {ρ ρ' : Type*}

/-- The machine at `a` follows an evaluation with bound `N`: to a state that is
`good` for the result if there is one, and to no result if there is none. -/
def Simulates (step : σ → Option σ) (N : Nat) (blocked : σ → Prop) (a : σ) (r : Option ρ)
    (good : ρ → σ → Prop) : Prop :=
  match r with
  | some x => ∃ b, Reaches step a b ∧ good x b
  | none => Stalls step N blocked a

section
variable {r : Option ρ} {good : ρ → σ → Prop}

theorem Simulates.pure {x : ρ} (h : good x a) : Simulates step N blocked a (some x) good :=
  ⟨a, Reaches.refl, h⟩

theorem Simulates.of_blocked (h : blocked a) :
    Simulates step N blocked a (none : Option ρ) good := Stalls.of_blocked h

theorem Simulates.after (h : Reaches step a b) (hs : Simulates step N blocked b r good) :
    Simulates step N blocked a r good := by
  cases r with
  | none => exact Stalls.after h hs
  | some x =>
    obtain ⟨c, hreach, hgood⟩ := hs
    exact ⟨c, h.trans hreach, hgood⟩

theorem Simulates.bind {f : ρ → Option ρ'} {good' : ρ' → σ → Prop}
    (h : Simulates step N blocked a r good)
    (hf : ∀ x b, good x b → Simulates step N blocked b (f x) good') :
    Simulates step N blocked a (r.bind f) good' := by
  cases r with
  | none => exact h
  | some x =>
    obtain ⟨b, hreach, hgood⟩ := h
    exact (hf x b hgood).after hreach

theorem Simulates.map {f : ρ → ρ'} {good' : ρ' → σ → Prop}
    (h : Simulates step N blocked a r good) (hf : ∀ x b, good x b → good' (f x) b) :
    Simulates step N blocked a (r.map f) good' := by
  cases r with
  | none => exact h
  | some x =>
    obtain ⟨b, hreach, hgood⟩ := h
    exact ⟨b, hreach, hf x b hgood⟩

/-- The machine goes on after the evaluation. -/
theorem Simulates.followed {good' : ρ → σ → Prop} (h : Simulates step N blocked a r good)
    (hgo : ∀ x b, good x b → ∃ c, Reaches step b c ∧ good' x c) :
    Simulates step N blocked a r good' := by
  cases r with
  | none => exact h
  | some x =>
    obtain ⟨b, hreach, hgood⟩ := h
    obtain ⟨c, hreach', hgood'⟩ := hgo x b hgood
    exact ⟨c, hreach.trans hreach', hgood'⟩

theorem Simulates.map_followed {f : ρ → ρ'} {good' : ρ' → σ → Prop}
    (h : Simulates step N blocked a r good)
    (hgo : ∀ x b, good x b → ∃ c, Reaches step b c ∧ good' (f x) c) :
    Simulates step N blocked a (r.map f) good' := by
  have hthere : Simulates step N blocked a r (fun x => good' (f x)) := h.followed hgo
  exact hthere.map fun _ _ h => h

theorem Simulates.mono {good' : ρ → σ → Prop} (h : Simulates step N blocked a r good)
    (hle : ∀ x b, good x b → good' x b) : Simulates step N blocked a r good' := by
  cases r with
  | none => exact h
  | some x =>
    obtain ⟨b, hreach, hgood⟩ := h
    exact ⟨b, hreach, hle x b hgood⟩

/-- A loop of the evaluation is followed if each of its iterations is, up to a
last step of the machine: `inv` relates the states between iterations. -/
theorem Simulates.whileLoop {cond : ρ → Bool} {body : ρ → Option ρ} {inv : ρ → σ → Prop}
    (hiter : ∀ x a, cond x = true → inv x a → Simulates step N blocked a (body x)
      (fun y b => ∃ c, step b = some c ∧ inv y c)) :
    ∀ n ≤ N, ∀ x a, inv x a → Simulates step n blocked a (whileLoop cond body n x)
      (fun y b => inv y b ∧ cond y = false) := by
  intro n
  induction n with
  | zero =>
    intro _ x a _
    exact ⟨0, a, .refl, .inl (Nat.le_refl 0)⟩
  | succ n ih =>
    intro hn x a hinv
    cases hcond : cond x with
    | false =>
      rw [whileLoop_exit hcond]
      exact Simulates.pure ⟨hinv, hcond⟩
    | true =>
      have hbody := hiter x a hcond hinv
      cases hb : body x with
      | none =>
        rw [hb] at hbody
        have hnone : Base.whileLoop cond body (n + 1) x = none := by
          simp [Base.whileLoop, hcond, hb]
        rw [hnone]
        exact Stalls.mono hbody hn
      | some y =>
        rw [hb] at hbody
        obtain ⟨b, hreach, c, hstep, hinv'⟩ := hbody
        rw [whileLoop_step hcond hb]
        have hrest := ih (by omega) y c hinv'
        cases hloop : Base.whileLoop cond body n y with
        | some z =>
          rw [hloop] at hrest
          exact hrest.after (hreach.trans (.one hstep))
        | none =>
          rw [hloop] at hrest
          obtain ⟨k, hk⟩ := hreach
          obtain ⟨m, d, hm, hd⟩ := hrest
          refine ⟨k + 1 + m, d, (hk.trans (.one hstep)).trans hm, ?_⟩
          rcases hd with hd | hd
          · exact .inl (by omega)
          · exact .inr hd

/-- A machine that follows an evaluation under every bound halts properly exactly
when the evaluation has a result, and then in a state that is good for it. -/
theorem halts_iff_evaluates {eval : Nat → Option ρ} {final : σ → Prop}
    (hfinal : ∀ c, final c → step c = none ∧ ¬ blocked c)
    (hblocked : ∀ c, blocked c → step c = none)
    (hsim : ∀ N, Simulates step N blocked a (eval N) (fun x b => final b ∧ good x b)) :
    ((∃ b, Reaches step a b ∧ final b) ↔ ∃ N x, eval N = some x) ∧
    ∀ b N x, Reaches step a b → final b → eval N = some x → good x b := by
  constructor
  · constructor
    · rintro ⟨b, ⟨n, hn⟩, hb⟩
      cases heval : eval (n + 1) with
      | some x => exact ⟨n + 1, x, heval⟩
      | none =>
        have hstalls := hsim (n + 1)
        rw [heval] at hstalls
        have hbad := not_halts_of_stalls hblocked hn (hfinal b hb).1 hstalls
        exact absurd hbad (hfinal b hb).2
    · rintro ⟨N, x, heval⟩
      have hsome := hsim N
      rw [heval] at hsome
      obtain ⟨b, hreach, hb, -⟩ := hsome
      exact ⟨b, hreach, hb⟩
  · intro b N x hreach hb heval
    have hsome := hsim N
    rw [heval] at hsome
    obtain ⟨c, hreach', hc, hgood⟩ := hsome
    have heq : c = b := hreach.halted_unique (hfinal b hb).1 hreach' (hfinal c hc).1
    exact heq ▸ hgood

end

end AroundTheWorld.Base
