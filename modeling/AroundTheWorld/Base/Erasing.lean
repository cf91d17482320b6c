import Mathlib.Data.List.Basic

/-!
# A symbol table that is patched and erased by hand

One kind of scope saves what its names had meant and writes it back, the other one
erases its name when it ends. A list of names is patched one by one and written
back in the same order. `Fate` says what becomes of a name: it means what it had
meant, it is left with a cell that was new in the scope, or it means nothing.
-/

namespace AroundTheWorld.Base.Erasing

inductive Fate where
  | kept
  | patched
  | erased
  deriving DecidableEq, Repr

namespace Fate

/-- The later change is the one that is seen. -/
def andThen (f : Fate) : Fate → Fate
  | kept => f
  | g => g

@[simp] theorem kept_andThen (f : Fate) : kept.andThen f = f := by cases f <;> rfl

variable {κ : Type*}

/-- `old` has become `now`; the cells of `new` did not exist before. -/
def Shows (new : κ → Prop) (old now : Option κ) : Fate → Prop
  | kept => now = old
  | patched => ∃ c, now = some c ∧ new c
  | erased => now = none

theorem Shows.trans {new : κ → Prop} {a b c : Option κ} {f g : Fate} (h : f.Shows new a b)
    (h' : g.Shows new b c) : (f.andThen g).Shows new a c := by
  cases g with
  | kept =>
    have heq : c = b := h'
    rw [andThen, heq]
    exact h
  | patched => exact h'
  | erased => exact h'

theorem Shows.mono {new new' : κ → Prop} {a b : Option κ} {f : Fate} (h : f.Shows new a b)
    (hnew : ∀ c, new c → new' c) : f.Shows new' a b := by
  cases f with
  | kept => exact h
  | patched =>
    obtain ⟨c, hc, hfresh⟩ := h
    exact ⟨c, hc, hnew c hfresh⟩
  | erased => exact h

/-- A name means what it had meant when it is kept, or erased and had meant nothing. -/
def Restores (old : Option κ) (f : Fate) : Prop := f = kept ∨ f = erased ∧ old = none

theorem Shows.eq_iff {new : κ → Prop} {old now : Option κ} {f : Fate} (h : f.Shows new old now)
    (hold : ∀ c, old = some c → ¬ new c) : now = old ↔ f.Restores old := by
  cases f with
  | kept => exact ⟨fun _ => .inl rfl, fun _ => h⟩
  | patched =>
    obtain ⟨c, hc, hnew⟩ := h
    constructor
    · intro heq
      exact absurd hnew (hold c (heq.symm.trans hc))
    · intro hrestores
      rcases hrestores with hkept | ⟨herased, -⟩
      · cases hkept
      · cases herased
  | erased =>
    have hnow : now = none := h
    rw [hnow]
    constructor
    · intro heq
      exact .inr ⟨rfl, heq.symm⟩
    · intro hrestores
      rcases hrestores with hkept | ⟨-, hnone⟩
      · cases hkept
      · exact hnone.symm

end Fate

abbrev Table (ν κ : Type*) := ν → Option κ

variable {ν κ : Type*}

/-- Every name of a table has met its fate. -/
def Changed (new : κ → Prop) (t t' : Table ν κ) (fates : ν → Fate) : Prop :=
  ∀ x, (fates x).Shows new (t x) (t' x)

theorem Changed.refl (new : κ → Prop) (t : Table ν κ) : Changed new t t fun _ => .kept :=
  fun _ => rfl

theorem Changed.trans {new : κ → Prop} {t t' t'' : Table ν κ} {f g : ν → Fate}
    (h : Changed new t t' f) (h' : Changed new t' t'' g) :
    Changed new t t'' fun x => (f x).andThen (g x) := fun x => (h x).trans (h' x)

/-- A table whose cells existed before is the same as before exactly when each fate
restores its name. -/
theorem Changed.eq_iff {new : κ → Prop} {t t' : Table ν κ} {fates : ν → Fate}
    (h : Changed new t t' fates) (hold : ∀ x c, t x = some c → ¬ new c) :
    t' = t ↔ ∀ x, (fates x).Restores (t x) := by
  constructor
  · intro heq x
    exact ((h x).eq_iff (hold x)).mp (congrFun heq x)
  · intro hall
    funext x
    exact ((h x).eq_iff (hold x)).mpr (hall x)

/-- One change after another. -/
def fateOfAll : List (ν → Fate) → ν → Fate
  | [], _ => .kept
  | f :: fs, x => (f x).andThen (fateOfAll fs x)

variable [DecidableEq ν]

def set (t : Table ν κ) (x : ν) (v : Option κ) : Table ν κ := fun k => if k = x then v else t k

/-- A scope that erases its name at the end: what had happened to the name does not
matter. -/
theorem Changed.erase {new : κ → Prop} {t t' : Table ν κ} {fates : ν → Fate} {x : ν}
    {c : Option κ} (h : Changed new (set t x c) t' fates) :
    Changed new t (set t' x none) fun y => if y = x then .erased else fates y := by
  intro y
  dsimp only
  by_cases hyx : y = x
  · rw [if_pos hyx, set, if_pos hyx]
    rfl
  · have hinner := h y
    rw [set, if_neg hyx] at hinner
    rw [if_neg hyx, set, if_neg hyx]
    exact hinner

/-! ## Lists of names -/

/-- Writing back a list of names in the order in which they were patched. -/
def restore : List (ν × Option κ) → Table ν κ → Table ν κ
  | [], t => t
  | (x, old) :: olds, t => restore olds (set t x old)

theorem restore_set {olds : List (ν × Option κ)} {t : Table ν κ} {x : ν} {v : Option κ} (y : ν) :
    restore olds (set t x v) y =
      if y = x ∧ x ∉ olds.map (·.1) then v else restore olds t y := by
  induction olds generalizing t x v with
  | nil => simp [restore, set]
  | cons b olds ih =>
    obtain ⟨z, old⟩ := b
    simp only [restore, ih, List.map_cons, List.mem_cons]
    by_cases hyz : y = z <;> grind

/-- The fates behind a list of bindings, each with what its initialiser does, around
a body. -/
def fateOfList : List (ν × (ν → Fate)) → (ν → Fate) → ν → Fate
  | [], body, x => body x
  | (y, init) :: rest, body, x =>
    (init x).andThen (if x = y then
      if x ∈ rest.map (·.1) then Fate.patched.andThen (fateOfList rest body x) else .kept
    else fateOfList rest body x)

/-- The first binding of a list: its initialiser, its patch, and then the rest of the
list, whose names are written back behind its own. -/
theorem Changed.bind_cons {new : κ → Prop} {t t₁ t₂ : Table ν κ} {init rest : ν → Fate} {x : ν}
    {c : κ} {olds : List (ν × Option κ)} (h : Changed new t t₁ init) (hc : new c)
    (h' : Changed new (set t₁ x (some c)) (restore olds t₂) rest) :
    Changed new t (restore ((x, t₁ x) :: olds) t₂) fun y => (init y).andThen (if y = x then
      if y ∈ olds.map (·.1) then Fate.patched.andThen (rest y) else .kept else rest y) := by
  intro y
  rw [restore, restore_set]
  refine (h y).trans ?_
  have hrest := h' y
  by_cases hyx : y = x
  · subst hyx
    rw [if_pos rfl]
    rw [set, if_pos rfl] at hrest
    by_cases hin : y ∈ olds.map (·.1)
    · rw [if_pos hin, if_neg fun hboth => hboth.2 hin]
      exact Fate.Shows.trans (f := .patched) ⟨c, rfl, hc⟩ hrest
    · rw [if_neg hin, if_pos ⟨rfl, hin⟩]
      rfl
  · rw [set, if_neg hyx] at hrest
    rw [if_neg hyx, if_neg fun hboth => hyx hboth.1]
    exact hrest

end AroundTheWorld.Base.Erasing
