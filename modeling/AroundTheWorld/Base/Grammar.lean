import Mathlib.Computability.ContextFreeGrammar

/-!
# Derivations of a grammar over classes of tokens

The right-hand sides of each nonterminal are a list of lists of symbols; a terminal
is a class of tokens. `Derives` is derivation by trees: a list of symbols derives the
concatenation of what they derive.
-/

namespace AroundTheWorld.Base

variable {T N α : Type}

/-- The words of a list of symbols, when each nonterminal has the words of `I`. -/
def Matches (is : T → α → Prop) (I : N → List α → Prop) : List (Symbol T N) → List α → Prop
  | [], ts => ts = []
  | .terminal t :: rest, ts => ∃ a us, ts = a :: us ∧ is t a ∧ Matches is I rest us
  | .nonterminal n :: rest, ts => ∃ us vs, ts = us ++ vs ∧ I n us ∧ Matches is I rest vs

theorem matches_nonterminal {is : T → α → Prop} {I : N → List α → Prop} {n : N} {ts : List α} :
    Matches is I [.nonterminal n] ts ↔ I n ts := by
  constructor
  · rintro ⟨us, vs, rfl, hn, rfl⟩
    rwa [List.append_nil]
  · intro hn
    exact ⟨ts, [], by simp, hn, rfl⟩

section
variable (productions : N → List (List (Symbol T N))) (is : T → α → Prop)

inductive Derives : List (Symbol T N) → List α → Prop where
  | nil : Derives [] []
  | terminal {t : T} {a : α} {rest : List (Symbol T N)} {ts : List α} : is t a → Derives rest ts →
      Derives (.terminal t :: rest) (a :: ts)
  | nonterminal {n : N} {rhs rest : List (Symbol T N)} {ts us : List α} : rhs ∈ productions n →
      Derives rhs ts → Derives rest us → Derives (.nonterminal n :: rest) (ts ++ us)

/-- The words of a nonterminal. -/
def Generates (n : N) (ts : List α) : Prop := Derives productions is [.nonterminal n] ts

variable {productions is}

theorem derives_iff_matches {rhs : List (Symbol T N)} {ts : List α} :
    Derives productions is rhs ts ↔ Matches is (Generates productions is) rhs ts := by
  constructor
  · intro h
    induction h with
    | nil => rfl
    | terminal ha _ ih => exact ⟨_, _, rfl, ha, ih⟩
    | @nonterminal n rhs rest ts us hrhs hts _ _ ih =>
      refine ⟨ts, us, rfl, ?_, ih⟩
      have hsingle := Derives.nonterminal hrhs hts .nil
      rwa [List.append_nil] at hsingle
  · intro h
    induction rhs generalizing ts with
    | nil =>
      obtain rfl := h
      exact .nil
    | cons symbol rest ih =>
      cases symbol with
      | terminal t =>
        obtain ⟨a, us, rfl, ha, hrest⟩ := h
        exact .terminal ha (ih hrest)
      | nonterminal n =>
        obtain ⟨us, vs, rfl, hn, hrest⟩ := h
        cases hn with
        | nonterminal hrhs hts hnil =>
          cases hnil
          rw [List.append_nil]
          exact .nonterminal hrhs hts (ih hrest)

/-- What one production adds. -/
theorem generates_of_matches {n : N} {rhs : List (Symbol T N)} {ts : List α}
    (hrhs : rhs ∈ productions n) (h : Matches is (Generates productions is) rhs ts) :
    Generates productions is n ts := by
  have hsingle := Derives.nonterminal hrhs (derives_iff_matches.mpr h) .nil
  rwa [List.append_nil] at hsingle

theorem generates_iff {n : N} {ts : List α} : Generates productions is n ts ↔
    ∃ rhs ∈ productions n, Matches is (Generates productions is) rhs ts := by
  constructor
  · intro h
    cases h with
    | nonterminal hrhs hts hnil =>
      cases hnil
      rw [List.append_nil]
      exact ⟨_, hrhs, derives_iff_matches.mp hts⟩
  · rintro ⟨rhs, hrhs, h⟩
    exact generates_of_matches hrhs h

/-- The words of the nonterminals are the least that the productions are closed
under. -/
theorem Derives.least {I : N → List α → Prop}
    (hI : ∀ n rhs ts, rhs ∈ productions n → Matches is I rhs ts → I n ts)
    {rhs : List (Symbol T N)} {ts : List α} (h : Derives productions is rhs ts) :
    Matches is I rhs ts := by
  induction h with
  | nil => rfl
  | terminal ha _ ih => exact ⟨_, _, rfl, ha, ih⟩
  | nonterminal hrhs _ _ ih ih' => exact ⟨_, _, rfl, hI _ _ _ hrhs ih, ih'⟩

/-- Every letter of a word belongs to a terminal. -/
theorem Derives.terminals {rhs : List (Symbol T N)} {ts : List α}
    (h : Derives productions is rhs ts) : ∀ a ∈ ts, ∃ t, is t a := by
  induction h with
  | nil => simp
  | terminal ha _ ih =>
    intro b hb
    rcases List.mem_cons.mp hb with rfl | hb
    · exact ⟨_, ha⟩
    · exact ih b hb
  | nonterminal _ _ _ ihts ihus =>
    intro b hb
    rcases List.mem_append.mp hb with hb | hb
    · exact ihts b hb
    · exact ihus b hb

/-- More productions, more words. -/
theorem Derives.mono {productions' : N → List (List (Symbol T N))}
    (hsub : ∀ n, productions n ⊆ productions' n) {rhs : List (Symbol T N)} {ts : List α}
    (h : Derives productions is rhs ts) : Derives productions' is rhs ts := by
  induction h with
  | nil => exact .nil
  | terminal ha _ ih => exact .terminal ha ih
  | nonterminal hrhs _ _ ih ih' => exact .nonterminal (hsub _ hrhs) ih ih'

theorem Generates.least {I : N → List α → Prop}
    (hI : ∀ n rhs ts, rhs ∈ productions n → Matches is I rhs ts → I n ts) {n : N} {ts : List α}
    (h : Generates productions is n ts) : I n ts :=
  matches_nonterminal.mp (Derives.least hI h)

end

end AroundTheWorld.Base
