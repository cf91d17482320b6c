import AroundTheWorld.Agreement.Reference
import AroundTheWorld.Base.Gen
import AroundTheWorld.Counted.Eval

/-!
# Generators of code and machines that run it

A generator adds to a function, and keeps a table from names to cells; the names of the
locals are kept in these. `Computes` says of what has been added that a machine that comes
to it does what an evaluation says, and gets behind it if there is a result. Pieces are put
together by its rules, whatever the code looks like.
-/

namespace AroundTheWorld.Counted

open AroundTheWorld.Base
open AroundTheWorld.Agreement (restoreTable)
open AroundTheWorld.Athens (ExprAST Name noRepeat)

/-- States `σ` of a generator with a function `β` under construction, and machines `μ` that
run code `χ` in which there are cells `κ`. -/
structure Target (σ β χ μ κ D W : Type) where
  builder : σ → β
  names : σ → Name → Option κ
  step : χ → μ → Option μ
  mem : μ → κ → D
  world : μ → W
  calls : μ → List (Name × List D)
  /-- The machine stands at the insertion point. -/
  At : χ → β → μ → Prop
  Blocked : χ → μ → Prop
  Wf : β → Prop
  /-- The cell has been allocated. -/
  Has : β → κ → Prop
  Grown : β → β → Prop
  /-- The code has what was added from the one function to the other. -/
  Within : χ → β → β → Prop
  /-- Nothing is changed that had been computed before. -/
  Kept : β → μ → μ → Prop
  grown_refl : ∀ {b}, Wf b → Grown b b
  grown_trans : ∀ {b b' b''}, Grown b b' → Grown b' b'' → Grown b b''
  grown_wf : ∀ {b b'}, Grown b b' → Wf b'
  grown_has : ∀ {b b' k}, Grown b b' → Has b k → Has b' k
  within_first : ∀ {code b b' b''}, Grown b b' → Grown b' b'' → Within code b b'' → Within code b b'
  within_rest : ∀ {code b b' b''}, Grown b b' → Grown b' b'' → Within code b b'' →
    Within code b' b''
  kept_refl : ∀ {b m}, Kept b m m
  kept_trans : ∀ {b b' m m' m''}, Grown b b' → Kept b m m' → Kept b' m' m'' → Kept b m m''

namespace Target

variable {σ β χ μ κ D W : Type} (T : Target σ β χ μ κ D W)

/-- The generator inside a scope: the names that it knows are in the cells that the scope
has for them. -/
structure Ready (s : σ) (scope : List (Name × κ)) : Prop where
  wf : T.Wf (T.builder s)
  names : ∀ x k, T.names s x = some k → scope.lookup x = some k
  distinct : (scope.map Prod.snd).Nodup
  has : ∀ b ∈ scope, T.Has (T.builder s) b.2

/-- The machine has the locals in the cells of the scope. -/
structure Agrees (scope : List (Name × κ)) (st : State D W) (m : μ) : Prop where
  locals : st.locals = contents (T.mem m) scope
  world : st.world = T.world m
  calls : st.calls = T.calls m

/-- The machine has come from `b` to `b'`, where `read` gives the result. -/
structure Went {α : Type} (code : χ) (b b' : β) (scope : List (Name × κ)) (m : μ) (read : μ → α)
    (r : α × State D W) (m' : μ) : Prop where
  at_ : T.At code b' m'
  agrees : T.Agrees scope r.2 m'
  read : read m' = r.1
  kept : T.Kept b m m'

/-- What has been generated from `s` to `s'` does what `ev` says. -/
structure Computes {α : Type} (N : Nat) (s s' : σ) (scope scope' : List (Name × κ))
    (ev : μ → State D W → Option (α × State D W)) (read : μ → α) : Prop where
  grown : T.Grown (T.builder s) (T.builder s')
  ready : T.Ready s' scope'
  stable : ∀ m m', T.Kept (T.builder s') m m' → read m' = read m
  simulates : ∀ code, T.Within code (T.builder s) (T.builder s') →
    ∀ m st, T.At code (T.builder s) m → T.Agrees scope st m →
    Simulates (T.step code) N (T.Blocked code) m (ev m st)
      (T.Went code (T.builder s) (T.builder s') scope' m read)

variable {T}

/-! ## Scopes -/

section
variable {s s' : σ} {scope inner : List (Name × κ)} {st : State D W} {m m' : μ} {x : Name} {k : κ}

theorem Ready.grown (h : T.Ready s scope) (hgrown : T.Grown (T.builder s) (T.builder s'))
    (hnames : T.names s' = T.names s) : T.Ready s' scope where
  wf := T.grown_wf hgrown
  names := by
    rw [hnames]
    exact h.names
  distinct := h.distinct
  has b hb := T.grown_has hgrown (h.has b hb)

/-- A name comes into scope, in a cell of its own. -/
theorem Ready.push (h : T.Ready s scope) (hb : T.builder s' = T.builder s)
    (hnames : ∀ y, T.names s' y = if y = x then some k else T.names s y)
    (hhas : T.Has (T.builder s) k) (hfresh : ∀ b ∈ scope, b.2 ≠ k) :
    T.Ready s' ((x, k) :: scope) where
  wf := by
    rw [hb]
    exact h.wf
  names := by
    intro y j hy
    rw [hnames] at hy
    rw [List.lookup_cons]
    by_cases hyx : y = x
    · subst hyx
      rw [if_pos rfl] at hy
      rw [beq_self_eq_true]
      exact hy
    · have hbeq : (y == x) = false := beq_eq_false_iff_ne.mpr hyx
      rw [if_neg hyx] at hy
      rw [hbeq]
      exact h.names y j hy
  distinct := by
    rw [List.map_cons, List.nodup_cons]
    refine ⟨fun hmem => ?_, h.distinct⟩
    obtain ⟨b, hb, hk⟩ := List.mem_map.mp hmem
    exact hfresh b hb hk
  has := by
    intro b hb'
    rw [hb]
    rcases List.mem_cons.mp hb' with rfl | hb'
    · exact hhas
    · exact h.has b hb'

/-- The names of an inner scope are given up. -/
theorem Ready.pop (h : T.Ready s (inner ++ scope)) (hb : T.builder s' = T.builder s)
    (hnames : ∀ y j, T.names s' y = some j → scope.lookup y = some j) : T.Ready s' scope where
  wf := by
    rw [hb]
    exact h.wf
  names := hnames
  distinct := by
    have hdistinct := h.distinct
    rw [List.map_append] at hdistinct
    exact (List.nodup_append.mp hdistinct).2.1
  has b hb' := by
    rw [hb]
    exact h.has b (List.mem_append_right _ hb')

/-- The cell that the generator finds for a name has its value. -/
theorem Agrees.read (h : T.Agrees scope st m) (hs : T.Ready s scope) (hx : T.names s x = some k) :
    st.read x = some (T.mem m k) := by
  rw [State.read, h.locals, lookup_contents, hs.names x k hx]
  rfl

theorem Agrees.same (h : T.Agrees scope st m) (hmem : ∀ b ∈ scope, T.mem m' b.2 = T.mem m b.2)
    (hworld : T.world m' = T.world m) (hcalls : T.calls m' = T.calls m) : T.Agrees scope st m' where
  locals := by rw [h.locals, contents_congr hmem]
  world := by rw [h.world, hworld]
  calls := by rw [h.calls, hcalls]

variable [DecidableEq κ]

/-- Storing to the cell of a name is writing to the name. -/
theorem Agrees.write (h : T.Agrees scope st m) (hs : T.Ready s scope) (hx : T.names s x = some k)
    {d : D} (hmem : T.mem m' = fun j => if j = k then d else T.mem m j)
    (hworld : T.world m' = T.world m) (hcalls : T.calls m' = T.calls m) :
    ∃ st', st.write x d = some st' ∧ T.Agrees scope st' m' := by
  let locals := contents (fun j => if j = k then d else T.mem m j) scope
  have hassign : assign x d (contents (T.mem m) scope) = some locals :=
    assign_contents hs.distinct (hs.names x k hx) d
  refine ⟨{ st with locals }, ?_, ?_⟩
  · rw [State.write, h.locals, hassign]
    rfl
  · exact ⟨by rw [hmem], h.world.trans hworld.symm, h.calls.trans hcalls.symm⟩

/-- Storing to a cell that is not in use brings a name into scope. -/
theorem Agrees.push (h : T.Agrees scope st m) (hfresh : ∀ b ∈ scope, b.2 ≠ k) {d : D}
    (hmem : T.mem m' = fun j => if j = k then d else T.mem m j)
    (hworld : T.world m' = T.world m) (hcalls : T.calls m' = T.calls m) :
    T.Agrees ((x, k) :: scope) (st.push x d) m' where
  locals := by
    rw [State.push, h.locals, contents_cons, hmem, contents_update_of_notMem hfresh]
    simp
  world := h.world.trans hworld.symm
  calls := h.calls.trans hcalls.symm

omit [DecidableEq κ] in
theorem Agrees.pop (h : T.Agrees (inner ++ scope) st m) :
    T.Agrees scope (st.pop inner.length) m where
  locals := by
    rw [State.pop, h.locals, contents_append, ← contents_length inner, List.drop_left]
  world := h.world
  calls := h.calls

end

end Target

/-! ## Names that are put back -/

section
variable {κ : Type} {olds : List (Name × Option κ)} {names names' : Name → Option κ}
  {inner scope : List (Name × κ)}

theorem restoreTable_congr {y : Name} (h : names y = names' y) :
    restoreTable olds names y = restoreTable olds names' y := by
  induction olds generalizing names names' with
  | nil => exact h
  | cons p olds ih =>
    apply ih
    by_cases hy : y = p.1
    · rw [if_pos hy, if_pos hy]
    · rw [if_neg hy, if_neg hy, h]

theorem restoreTable_of_notMem {y : Name} (h : y ∉ olds.map Prod.fst) :
    restoreTable olds names y = names y := by
  induction olds generalizing names with
  | nil => rfl
  | cons p olds ih =>
    rw [List.map_cons, List.mem_cons, not_or] at h
    exact (ih h.2).trans (if_neg h.1)

/-- With `olds` put back, no name is left in a cell of the inner scope. -/
def Undoes (olds : List (Name × Option κ)) (inner scope : List (Name × κ)) : Prop :=
  ∀ names : Name → Option κ, (∀ y k, names y = some k → (inner ++ scope).lookup y = some k) →
    ∀ y k, restoreTable olds names y = some k → scope.lookup y = some k

theorem Undoes.nil : Undoes [] [] scope := fun _ h => h

/-- One more name, in front of others that are not the same. -/
theorem Undoes.cons {x : Name} {k : κ} {old : Option κ} (h : Undoes olds inner ((x, k) :: scope))
    (hnew : x ∉ olds.map Prod.fst) (hold : ∀ j, old = some j → scope.lookup x = some j) :
    Undoes ((x, old) :: olds) (inner ++ [(x, k)]) scope := by
  intro names hnames y j hy
  rw [List.append_assoc, List.singleton_append] at hnames
  rw [restoreTable] at hy
  by_cases hyx : y = x
  · subst hyx
    rw [restoreTable_of_notMem hnew, if_pos rfl] at hy
    exact hold j hy
  · have hsame : restoreTable olds (fun z => if z = x then old else names z) y =
        restoreTable olds names y := restoreTable_congr (if_neg hyx)
    have hlookup := h names hnames y j (hsame.symm.trans hy)
    have hbeq : (y == x) = false := beq_eq_false_iff_ne.mpr hyx
    rwa [List.lookup_cons, hbeq] at hlookup

end

/-! ## Pieces of code -/

namespace Target

variable {σ β χ μ κ D W : Type} {T : Target σ β χ μ κ D W}

namespace Computes

variable {N : Nat} {s s₁ s₂ : σ} {sc sc₁ sc₂ inner : List (Name × κ)} {α γ : Type}
  {ev : μ → State D W → Option (α × State D W)} {read : μ → α}

theorem refl (hs : T.Ready s sc) (x : α) :
    T.Computes N s s sc sc (fun _ st => some (x, st)) (fun _ => x) where
  grown := T.grown_refl hs.wf
  ready := hs
  stable _ _ _ := rfl
  simulates _ _ _ _ hat hst := .pure ⟨hat, hst, rfl, T.kept_refl⟩

/-- One piece of code behind another. What the second does may depend on the result of the
first, and on what the first has kept. -/
theorem bind {ev₁ : μ → State D W → Option (γ × State D W)} {read₁ : μ → γ}
    {k : μ → α → State D W → Option (γ × State D W)}
    (h : T.Computes N s s₁ sc sc₁ ev read) (h₁ : T.Computes N s₁ s₂ sc₁ sc₂ ev₁ read₁)
    (hk : ∀ m m₁, T.Kept (T.builder s) m m₁ → ∀ st, ev₁ m₁ st = k m (read m₁) st) :
    T.Computes N s s₂ sc sc₂ (fun m st => (ev m st).bind fun r => k m r.1 r.2) read₁ where
  grown := T.grown_trans h.grown h₁.grown
  ready := h₁.ready
  stable := h₁.stable
  simulates := by
    intro code hcode m st hat hst
    have hfirst := h.simulates code (T.within_first h.grown h₁.grown hcode) m st hat hst
    refine hfirst.bind fun r m₁ hwent => ?_
    have hrest := h₁.simulates code (T.within_rest h.grown h₁.grown hcode) m₁ r.2 hwent.at_
      hwent.agrees
    rw [hk m m₁ hwent.kept, hwent.read] at hrest
    refine hrest.mono fun r₂ m₂ hwent₂ => ?_
    exact ⟨hwent₂.at_, hwent₂.agrees, hwent₂.read, T.kept_trans h.grown hwent.kept hwent₂.kept⟩

theorem congr {ev' : μ → State D W → Option (α × State D W)}
    (h : T.Computes N s s₁ sc sc₁ ev read) (hev : ∀ m st, ev' m st = ev m st) :
    T.Computes N s s₁ sc sc₁ ev' read := by
  obtain rfl : ev' = ev := funext fun m => funext fun st => hev m st
  exact h

/-- Another reading of the result. -/
theorem reading {ev' : μ → State D W → Option (γ × State D W)} {read' : μ → γ} {f : μ → α → γ}
    (h : T.Computes N s s₁ sc sc₁ ev read)
    (hev : ∀ m st, ev' m st = (ev m st).map fun r => (f m r.1, r.2))
    (hread : ∀ m m₁, T.Kept (T.builder s) m m₁ → read' m₁ = f m (read m₁))
    (hstable : ∀ m m', T.Kept (T.builder s₁) m m' → read' m' = read' m) :
    T.Computes N s s₁ sc sc₁ ev' read' where
  grown := h.grown
  ready := h.ready
  stable := hstable
  simulates := by
    intro code hcode m st hat hst
    rw [hev]
    refine (h.simulates code hcode m st hat hst).map fun r m₁ hwent => ?_
    refine ⟨hwent.at_, hwent.agrees, ?_, hwent.kept⟩
    rw [hread m m₁ hwent.kept, hwent.read]

/-- The names of an inner scope are given up behind the code. -/
theorem popped (h : T.Computes N s s₁ sc (inner ++ sc) ev read) (hs : T.Ready s₂ sc)
    (hb : T.builder s₂ = T.builder s₁) : T.Computes N s s₂ sc sc
      (fun m st => (ev m st).map fun r => (r.1, r.2.pop inner.length)) read where
  grown := by
    rw [hb]
    exact h.grown
  ready := hs
  stable := by
    rw [hb]
    exact h.stable
  simulates := by
    rw [hb]
    intro code hcode m st hat hst
    refine (h.simulates code hcode m st hat hst).map fun r m₁ hwent => ?_
    exact ⟨hwent.at_, hwent.agrees.pop, hwent.read, hwent.kept⟩

end Computes

/-- What a generator adds for the expression does what it means, in every scope. -/
def Compiles {ε α : Type} (T : Target σ β χ μ κ D W) (N : Nat)
    (meaning : ExprAST D → Meaning D W) (gen : ExprAST D → Gen σ ε α)
    (val : α → μ → D) (e : ExprAST D) : Prop :=
  ∀ s v s' scope, gen e s = .ok v s' → noRepeat e = true → T.Ready s scope →
    T.Computes N s s' scope scope (fun _ st => meaning e st) (val v)

end Target

end AroundTheWorld.Counted
