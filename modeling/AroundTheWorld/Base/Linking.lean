import AroundTheWorld.Base.Steps

/-!
# Linking

A procedure runs until it calls or returns. On its own it takes the answers of its calls
from an oracle; linked, a call suspends it while the callee runs. What procedures do with
every oracle decides what they do linked: `meaning` closes the oracle over itself, up to a
depth of calls.
-/

namespace AroundTheWorld.Base

/-! ## Partial results -/

section
variable {α β : Type*}

/-- `y` is `x` where `x` has a result. -/
def LessDefined (x y : Option α) : Prop := ∀ a, x = some a → y = some a

namespace LessDefined

variable {x y : Option α} {f g : α → Option β}

theorem refl (x : Option α) : LessDefined x x := fun _ h => h

theorem bind (h : LessDefined x y) (hf : ∀ a, LessDefined (f a) (g a)) :
    LessDefined (x.bind f) (y.bind g) := by
  intro b hb
  obtain ⟨a, ha, hb⟩ := Option.bind_eq_some_iff.mp hb
  rw [h a ha]
  exact hf a b hb

theorem map (h : LessDefined x y) (f : α → β) : LessDefined (x.map f) (y.map f) := by
  intro b hb
  obtain ⟨a, ha, rfl⟩ := Option.map_eq_some_iff.mp hb
  rw [h a ha]
  rfl

end LessDefined

end

/-! ## Procedures -/

/-- What a procedure in a state `μ` does next; `κ` are the calls and `ρ` their answers. -/
inductive Act (μ κ ρ : Type*) where
  | next (m : μ)
  | call (what : κ) (resume : ρ → μ)
  | ret (answer : ρ)
  | stuck

/-- A step that needs no answer. -/
def Act.silent {μ κ ρ : Type*} : Option μ → Act μ κ ρ
  | some m => .next m
  | none => .stuck

theorem Act.silent_ne_ret {μ κ ρ : Type*} (o : Option μ) (r : ρ) :
    (Act.silent o : Act μ κ ρ) ≠ .ret r := by
  cases o with
  | some m => exact fun h => by cases h
  | none => exact fun h => by cases h

structure Procedures (μ κ ρ : Type*) where
  act : μ → Act μ κ ρ
  /-- Where a call begins, when it is one of these procedures that is called. -/
  enter : κ → Option μ
  /-- What all others answer. -/
  outside : κ → Option ρ

namespace Procedures

variable {μ κ ρ : Type*} (P : Procedures μ κ ρ)

/-- A step of a procedure on its own. -/
def openStep (oracle : κ → Option ρ) (m : μ) : Option μ :=
  match P.act m with
  | .next m' => some m'
  | .call what resume => (oracle what).map resume
  | .ret _ => none
  | .stuck => none

/-- On its own, the procedure returns `r`. -/
def Returns (oracle : κ → Option ρ) (m : μ) (r : ρ) : Prop :=
  ∃ m', Reaches (P.openStep oracle) m m' ∧ P.act m' = .ret r

/-- A step of the linked procedures: one is running, the others wait for its answer, the
innermost one first. -/
def linkedStep (s : μ × List (ρ → μ)) : Option (μ × List (ρ → μ)) :=
  match P.act s.1 with
  | .next m => some (m, s.2)
  | .call what resume =>
    match P.enter what with
    | some m => some (m, resume :: s.2)
    | none => (P.outside what).map fun r => (resume r, s.2)
  | .ret r =>
    match s.2 with
    | [] => none
    | resume :: stack => some (resume r, stack)
  | .stuck => none

/-- The linked procedures answer the call with `r`. -/
def Answers (what : κ) (r : ρ) : Prop :=
  match P.enter what with
  | some m => ∃ m', Reaches P.linkedStep (m, []) (m', []) ∧ P.act m' = .ret r
  | none => P.outside what = some r

section
variable {P} {oracle oracle' : κ → Option ρ} {m m' : μ} {r : ρ} {what : κ} {resume : ρ → μ}
  {stack : List (ρ → μ)}

theorem Returns.ret (h : P.act m = .ret r) : P.Returns oracle m r := ⟨m, Reaches.refl, h⟩

theorem Returns.next (h : P.act m = .next m') (hr : P.Returns oracle m' r) :
    P.Returns oracle m r := by
  obtain ⟨m'', hreach, hret⟩ := hr
  have hstep : P.openStep oracle m = some m' := by
    unfold openStep
    rw [h]
  exact ⟨m'', (Reaches.one hstep).trans hreach, hret⟩

theorem Returns.call {a : ρ} (h : P.act m = .call what resume) (ha : oracle what = some a)
    (hr : P.Returns oracle (resume a) r) : P.Returns oracle m r := by
  obtain ⟨m'', hreach, hret⟩ := hr
  have hstep : P.openStep oracle m = some (resume a) := by
    unfold openStep
    rw [h]
    show (oracle what).map resume = _
    rw [ha]
    rfl
  exact ⟨m'', (Reaches.one hstep).trans hreach, hret⟩

/-- An oracle that answers more. -/
theorem Returns.mono (hle : ∀ k, LessDefined (oracle k) (oracle' k))
    (h : P.Returns oracle m r) : P.Returns oracle' m r := by
  obtain ⟨m', ⟨n, hn⟩, hret⟩ := h
  induction hn with
  | refl => exact .ret hret
  | @head _ m m₁ _ hstep _ ih =>
    unfold openStep at hstep
    cases hact : P.act m with
    | next m₂ =>
      rw [hact] at hstep
      cases hstep
      exact .next hact (ih hret)
    | call what resume =>
      rw [hact] at hstep
      obtain ⟨a, ha, rfl⟩ := Option.map_eq_some_iff.mp hstep
      exact .call hact (hle what a ha) (ih hret)
    | ret a =>
      rw [hact] at hstep
      cases hstep
    | stuck =>
      rw [hact] at hstep
      cases hstep

end

end Procedures

/-! ## Procedures that carry their code -/

section
variable {τ σ κ ρ : Type*} {t : τ} {inner : σ → Option σ} {m : σ}

/-- Steps of a pair whose first part stays are steps of its second part. -/
theorem steps_beside {step : τ × σ → Option (τ × σ)} (h : ∀ m, step (t, m) = (inner m).map (t, ·))
    {n : Nat} {s : τ × σ} : Steps step n (t, m) s ↔ ∃ m', s = (t, m') ∧ Steps inner n m m' := by
  constructor
  · intro hsteps
    generalize hfrom : (t, m) = s₀ at hsteps
    induction hsteps generalizing m with
    | refl => exact ⟨m, hfrom.symm, .refl⟩
    | @head n _ _ _ hstep _ ih =>
      subst hfrom
      rw [h] at hstep
      obtain ⟨m₁, hm₁, rfl⟩ := Option.map_eq_some_iff.mp hstep
      obtain ⟨m', rfl, hrest⟩ := ih rfl
      exact ⟨m', rfl, .head hm₁ hrest⟩
  · rintro ⟨m', rfl, hsteps⟩
    induction hsteps with
    | refl => exact .refl
    | head hstep _ ih =>
      refine .head ?_ ih
      rw [h, hstep]
      rfl

/-- A procedure that carries its code returns what a run of that code ends with. -/
theorem Procedures.returns_beside {P : Procedures (τ × σ) κ ρ} {oracle : κ → Option ρ} {r : ρ}
    (h : ∀ m, P.openStep oracle (t, m) = (inner m).map (t, ·)) :
    P.Returns oracle (t, m) r ↔ ∃ m', Reaches inner m m' ∧ P.act (t, m') = .ret r := by
  constructor
  · rintro ⟨s, ⟨n, hn⟩, hret⟩
    obtain ⟨m', rfl, hsteps⟩ := (steps_beside h).mp hn
    exact ⟨m', ⟨n, hsteps⟩, hret⟩
  · rintro ⟨m', ⟨n, hn⟩, hret⟩
    exact ⟨(t, m'), ⟨n, (steps_beside h).mpr ⟨m', rfl, hn⟩⟩, hret⟩

end

/-! ## Closing the oracle -/

variable {μ κ ρ : Type*}

/-- `body` says what a call answers, given what calls answer; a bound is handed on to it.
To depth zero nothing is answered. -/
def meaning (body : Nat → (κ → Option ρ) → κ → Option ρ) : Nat → κ → Option ρ
  | 0 => fun _ => none
  | n + 1 => body n (meaning body n)

/-- The procedures do on their own what `body` says, whatever the oracle. -/
structure Procedures.Describes (P : Procedures μ κ ρ) (body : Nat → (κ → Option ρ) → κ → Option ρ) :
    Prop where
  mono : ∀ {n n' oracle oracle' what}, n ≤ n' → (∀ k, LessDefined (oracle k) (oracle' k)) →
    LessDefined (body n oracle what) (body n' oracle' what)
  inside : ∀ {oracle what m r}, P.enter what = some m →
    (P.Returns oracle m r ↔ ∃ n, body n oracle what = some r)
  outside : ∀ {n oracle what}, P.enter what = none → body n oracle what = P.outside what

namespace Procedures.Describes

variable {P : Procedures μ κ ρ} {body : Nat → (κ → Option ρ) → κ → Option ρ} (h : P.Describes body)

include h

theorem meaning_succ {n : Nat} {what : κ} {r : ρ} (hr : meaning body n what = some r) :
    meaning body (n + 1) what = some r := by
  induction n generalizing what r with
  | zero => cases hr
  | succ n ih => exact h.mono (Nat.le_succ n) (fun _ _ => ih) r hr

theorem meaning_mono {n n' : Nat} (hle : n ≤ n') {what : κ} {r : ρ}
    (hr : meaning body n what = some r) : meaning body n' what = some r := by
  induction hle with
  | refl => exact hr
  | step _ ih => exact h.meaning_succ ih

/-- A call whose callee returns, on its own, with what is meant by other calls. -/
theorem meaning_of_returns {n : Nat} {what : κ} {m : μ} {r : ρ} (henter : P.enter what = some m)
    (hr : P.Returns (meaning body n) m r) : ∃ n', meaning body n' what = some r := by
  obtain ⟨k, hk⟩ := (h.inside henter).mp hr
  refine ⟨max n k + 1, h.mono (Nat.le_max_right n k) (fun what a ha => ?_) r hk⟩
  exact h.meaning_mono (Nat.le_max_left n k) ha

/-- A linked run that ends has answered all that were waiting: the running procedure
returned, on its own, with what is meant by its calls. The induction is on the length of
the run, as the rest of the run behind a callee is a shorter one. -/
theorem returns_of_linked (n : Nat) : ∀ {m m' : μ} {stack : List (ρ → μ)} {r : ρ},
    Steps P.linkedStep n (m, stack) (m', []) → P.act m' = .ret r →
    ∃ k a, P.Returns (meaning body k) m a ∧
      (stack = [] ∧ a = r ∨ ∃ resume rest i, stack = resume :: rest ∧ i < n ∧
        Steps P.linkedStep i (resume a, rest) (m', [])) := by
  induction n using Nat.strongRecOn with
  | ind n ih =>
    intro m m' stack r hsteps hret
    cases hsteps with
    | refl => exact ⟨0, r, .ret hret, .inl ⟨rfl, rfl⟩⟩
    | @head n _ s _ hstep hrest =>
      unfold linkedStep at hstep
      cases hact : P.act m with
      | next m₁ =>
        rw [hact] at hstep
        cases hstep
        obtain ⟨k, a, ha, hstack⟩ := ih n (Nat.lt_succ_self n) hrest hret
        refine ⟨k, a, .next hact ha, hstack.imp_right ?_⟩
        rintro ⟨resume, rest, i, hstack, hi, hgo⟩
        exact ⟨resume, rest, i, hstack, by omega, hgo⟩
      | call what resume =>
        rw [hact] at hstep
        -- the answer of the call, and the shorter run that goes on with it
        obtain ⟨k, a, i, hi, ha, hgo⟩ : ∃ k a i, i ≤ n ∧ meaning body k what = some a ∧
            Steps P.linkedStep i (resume a, stack) (m', []) := by
          cases henter : P.enter what with
          | none =>
            simp only [henter] at hstep
            obtain ⟨a, ha, rfl⟩ := Option.map_eq_some_iff.mp hstep
            exact ⟨1, a, n, Nat.le_refl n, (h.outside henter).trans ha, hrest⟩
          | some m₁ =>
            simp only [henter] at hstep
            cases hstep
            obtain ⟨k, a, ha, hstack⟩ := ih n (Nat.lt_succ_self n) hrest hret
            rcases hstack with ⟨hnil, -⟩ | ⟨resume', rest, i, hstack, hi, hgo⟩
            · cases hnil
            · cases hstack
              obtain ⟨k', hk'⟩ := h.meaning_of_returns henter ha
              exact ⟨k', a, i, Nat.le_of_lt hi, hk', hgo⟩
        obtain ⟨k', b, hb, hstack⟩ := ih i (by omega) hgo hret
        refine ⟨max k k', b, .call (a := a) hact ?_ (hb.mono ?_), hstack.imp_right ?_⟩
        · exact h.meaning_mono (Nat.le_max_left k k') ha
        · exact fun _ _ hk => h.meaning_mono (Nat.le_max_right k k') hk
        · rintro ⟨resume', rest, j, hstack, hj, hgo'⟩
          exact ⟨resume', rest, j, hstack, by omega, hgo'⟩
      | ret a =>
        rw [hact] at hstep
        cases stack with
        | nil => cases hstep
        | cons resume rest =>
          cases hstep
          exact ⟨0, a, .ret hact, .inr ⟨resume, rest, n, rfl, Nat.lt_succ_self n, hrest⟩⟩
      | stuck =>
        rw [hact] at hstep
        cases hstep

/-- What is meant is what the linked procedures do, whoever is waiting for it. -/
theorem linked_of_returns (n : Nat) {m : μ} {r : ρ} (hr : P.Returns (meaning body n) m r)
    (stack : List (ρ → μ)) :
    ∃ m', Reaches P.linkedStep (m, stack) (m', stack) ∧ P.act m' = .ret r := by
  induction n using Nat.strongRecOn generalizing m r stack with
  | ind n ihn =>
    obtain ⟨m', ⟨i, hi⟩, hret⟩ := hr
    induction hi with
    | refl => exact ⟨_, Reaches.refl, hret⟩
    | @head _ m m₁ _ hstep _ ih =>
      obtain ⟨m'', hreach, hret'⟩ := ih hret
      refine ⟨m'', Reaches.trans ?_ hreach, hret'⟩
      unfold openStep at hstep
      cases hact : P.act m with
      | next m₂ =>
        rw [hact] at hstep
        cases hstep
        refine Reaches.one ?_
        simp only [linkedStep, hact]
      | call what resume =>
        rw [hact] at hstep
        obtain ⟨a, ha, rfl⟩ := Option.map_eq_some_iff.mp hstep
        cases n with
        | zero => cases ha
        | succ n =>
          cases henter : P.enter what with
          | none =>
            have houtside : P.outside what = some a := (h.outside henter).symm.trans ha
            refine Reaches.one ?_
            simp only [linkedStep, hact, henter, houtside, Option.map_some]
          | some m₂ =>
            obtain ⟨m₃, hcallee, hreturn⟩ := ihn n (Nat.lt_succ_self n)
              ((h.inside henter).mpr ⟨n, ha⟩) (resume :: stack)
            refine (Reaches.one ?_).trans (hcallee.trans (Reaches.one ?_))
            · simp only [linkedStep, hact, henter]
            · simp only [linkedStep, hreturn]
      | ret a =>
        rw [hact] at hstep
        cases hstep
      | stuck =>
        rw [hact] at hstep
        cases hstep

/-- Linked procedures answer what is meant by them. -/
theorem answers_iff (what : κ) (r : ρ) :
    P.Answers what r ↔ ∃ n, meaning body n what = some r := by
  unfold Answers
  cases henter : P.enter what with
  | none =>
    constructor
    · intro hr
      exact ⟨1, (h.outside henter).trans hr⟩
    · rintro ⟨n, hn⟩
      cases n with
      | zero => cases hn
      | succ n => exact (h.outside henter).symm.trans hn
  | some m =>
    constructor
    · rintro ⟨m', ⟨n, hsteps⟩, hret⟩
      obtain ⟨k, a, ha, ⟨-, rfl⟩ | ⟨resume, rest, i, hstack, -⟩⟩ :=
        h.returns_of_linked n hsteps hret
      · exact h.meaning_of_returns henter ha
      · cases hstack
    · rintro ⟨n, hn⟩
      cases n with
      | zero => cases hn
      | succ n => exact h.linked_of_returns n ((h.inside henter).mpr ⟨n, hn⟩) []

end Procedures.Describes

end AroundTheWorld.Base
