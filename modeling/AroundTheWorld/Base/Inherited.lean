import AroundTheWorld.Base.Gen

/-!
# Computations that start from a table of others

A computation reads and writes the entries of a table. Run once from a table with
entries that others have left and once from a table without them, it ends in the
same way as long as it reads no such entry before it has written it. A `Scan`
follows the second run: which entries it reads unwritten, what it has done to each
entry, and how it ends. `Follows` relates the outcomes of the two runs to it.
-/

namespace AroundTheWorld.Base.Inherited

variable {K V : Type}

/-- What has been done to each entry: nothing, or it has been given a value, or emptied. -/
abbrev Marks (K : Type) := K → Option Bool

def Marks.set [DecidableEq K] (m : Marks K) (k : K) (b : Option Bool) : Marks K :=
  fun i => if i = k then b else m i

/-- The values of an entry in the two runs: the same when it has been written, else what
was left in one and nothing in the other. -/
def Saved (left : Option V) : Option Bool → Option V → Option V → Prop
  | none, v, v' => v = left ∧ v' = none
  | some b, v, v' => v = v' ∧ v'.isSome = b

def Inherits (left : K → Option V) (m : Marks K) (t u : K → Option V) : Prop :=
  ∀ k, Saved (left k) (m k) (t k) (u k)

/-- Writing back what was saved, and writing one value in particular. -/
theorem Inherits.restore [DecidableEq K] {left t u : K → Option V} {m : Marks K}
    (h : Inherits left m t u) {k : K} {b : Option Bool} {v v' : Option V}
    (hv : Saved (left k) b v v') : Inherits left (m.set k b) (fun i => if i = k then v else t i)
      (fun i => if i = k then v' else u i) := by
  intro i
  unfold Marks.set
  by_cases hi : i = k
  · subst hi
    simp only [if_true]
    exact hv
  · simp only [if_neg hi]
    exact h i

/-! ## Scans -/

inductive Ending where
  | returned
  | null
  | aborted
  deriving DecidableEq, Repr

structure Scanned (K : Type) where
  reads : List K
  marks : Marks K
  ending : Ending

/-- Two scans in a row. -/
def Scanned.andThen (r r' : Scanned K) : Scanned K := ⟨r.reads ++ r'.reads, r'.marks, r'.ending⟩

abbrev Scan (K : Type) := Marks K → Scanned K

namespace Scan

def nop : Scan K := fun m => ⟨[], m, .returned⟩

def fail : Scan K := fun m => ⟨[], m, .null⟩

def abort : Scan K := fun m => ⟨[], m, .aborted⟩

def write [DecidableEq K] (k : K) (b : Bool) : Scan K := fun m => ⟨[], m.set k (some b), .returned⟩

/-- An entry without a value makes the computation fail. -/
def read (k : K) : Scan K := fun m =>
  ⟨if m k = none then [k] else [], m, if m k = some true then .returned else .null⟩

/-- One scan behind another: the second one goes on behind what has been returned, the
third one behind a null pointer. -/
def attempt (x y z : Scan K) : Scan K := fun m =>
  match (x m).ending with
  | .returned => (x m).andThen (y (x m).marks)
  | .null => (x m).andThen (z (x m).marks)
  | .aborted => x m

def seq (x y : Scan K) : Scan K := x.attempt y fail

variable {x y z : Scan K} {m : Marks K}

theorem attempt_of_returned (h : (x m).ending = .returned) :
    x.attempt y z m = (x m).andThen (y (x m).marks) := by
  unfold attempt
  rw [h]

theorem attempt_of_null (h : (x m).ending = .null) :
    x.attempt y z m = (x m).andThen (z (x m).marks) := by
  unfold attempt
  rw [h]

theorem attempt_of_aborted (h : (x m).ending = .aborted) : x.attempt y z m = x m := by
  unfold attempt
  rw [h]

theorem seq_nop : x.seq nop = x := by
  funext m
  unfold seq
  cases h : (x m).ending with
  | returned => rw [attempt_of_returned h, nop, Scanned.andThen, List.append_nil, ← h]
  | null => rw [attempt_of_null h, fail, Scanned.andThen, List.append_nil, ← h]
  | aborted => rw [attempt_of_aborted h]

end Scan

/-! ## Two runs -/

variable {σ ε α β : Type}

/-- Both runs end as the scan says, in states that are related for what has been done to
the entries. -/
inductive Follows (R : Marks K → σ → σ → Prop) (Q : α → α → Prop) (r : Scanned K) :
    Outcome σ ε α → Outcome σ ε α → Prop where
  | returned {a a' : α} {s s' : σ} : r.ending = .returned → Q a a' → R r.marks s s' →
      Follows R Q r (.ok a s) (.ok a' s')
  | null {s s' : σ} : r.ending = .null → R r.marks s s' → Follows R Q r (.null s) (.null s')
  | aborted {why : ε} : r.ending = .aborted → Follows R Q r (.abort why) (.abort why)

section
variable {R : Marks K → σ → σ → Prop} {Q : α → α → Prop} {T : β → β → Prop} {x x' : Gen σ ε α}
  {s s' : σ} {m : Marks K} {sx sy sz : Scan K}

theorem Follows.after {r r' : Scanned K} {o o' : Outcome σ ε β} (h : Follows R T r' o o') :
    Follows R T (r.andThen r') o o' := by
  cases h with
  | returned hend hT hR => exact .returned hend hT hR
  | null hend hR => exact .null hend hR
  | aborted hend => exact .aborted hend

/-- What follows may come behind a null pointer, too. -/
theorem Follows.attempt_bind {R' : Marks K → σ → σ → Prop} {f f' : Option α → Gen σ ε β}
    (hx : Follows R Q (sx m) (x s) (x' s'))
    (hsome : ∀ a t a' t', (sx m).ending = .returned → Q a a' → R (sx m).marks t t' →
      Follows R' T (sy (sx m).marks) (f (some a) t) (f' (some a') t'))
    (hnone : ∀ t t', (sx m).ending = .null → R (sx m).marks t t' →
      Follows R' T (sz (sx m).marks) (f none t) (f' none t')) :
    Follows R' T (sx.attempt sy sz m) ((Gen.attempt x >>= f) s) ((Gen.attempt x' >>= f') s') := by
  show Follows R' T _ (Gen.bind (Gen.attempt x) f s) (Gen.bind (Gen.attempt x') f' s')
  unfold Gen.bind Gen.attempt
  generalize x s = r at hx
  generalize x' s' = r' at hx
  cases hx with
  | returned hend hQ hR =>
    rw [Scan.attempt_of_returned hend]
    exact (hsome _ _ _ _ hend hQ hR).after
  | null hend hR =>
    rw [Scan.attempt_of_null hend]
    exact (hnone _ _ hend hR).after
  | aborted hend =>
    rw [Scan.attempt_of_aborted hend]
    exact .aborted hend

theorem Follows.bind {f f' : α → Gen σ ε β} (hx : Follows R Q (sx m) (x s) (x' s'))
    (hf : ∀ a t a' t', (sx m).ending = .returned → x s = .ok a t → Q a a' →
      R (sx m).marks t t' → Follows R T (sy (sx m).marks) (f a t) (f' a' t')) :
    Follows R T (sx.seq sy m) ((x >>= f) s) ((x' >>= f') s') := by
  show Follows R T _ (Gen.bind x f s) (Gen.bind x' f' s')
  unfold Gen.bind Scan.seq
  generalize hr : x s = r at hx
  generalize x' s' = r' at hx
  cases hx with
  | returned hend hQ hR =>
    rw [Scan.attempt_of_returned hend]
    exact (hf _ _ _ _ hend hr hQ hR).after
  | null hend hR =>
    rw [Scan.attempt_of_null hend]
    exact .null rfl hR
  | aborted hend =>
    rw [Scan.attempt_of_aborted hend]
    exact .aborted hend

theorem Follows.map {f f' : α → β} {r : Scanned K} (hx : Follows R Q r (x s) (x' s'))
    (hf : ∀ a a', Q a a' → T (f a) (f' a')) :
    Follows R T r ((x >>= fun a => pure (f a)) s) ((x' >>= fun a => pure (f' a)) s') := by
  show Follows R T r (Gen.bind x (fun a => pure (f a)) s) (Gen.bind x' (fun a => pure (f' a)) s')
  unfold Gen.bind
  generalize x s = o at hx
  generalize x' s' = o' at hx
  cases hx with
  | returned hend hQ hR => exact .returned hend (hf _ _ hQ) hR
  | null hend hR => exact .null hend hR
  | aborted hend => exact .aborted hend

theorem Follows.mono {R' : Marks K → σ → σ → Prop} {r : Scanned K} {o o' : Outcome σ ε α}
    (h : Follows R Q r o o') (hR : ∀ m s s', R m s s' → R' m s s') : Follows R' Q r o o' := by
  cases h with
  | returned hend hQ h => exact .returned hend hQ (hR _ _ _ h)
  | null hend h => exact .null hend (hR _ _ _ h)
  | aborted hend => exact .aborted hend

end

/-! ## Computations that agree with a scan -/

/-- From related states both runs return the same, as the scan says, unless an entry is
read that was left. -/
def Agrees (R : Marks K → σ → σ → Prop) (free : K → Prop) (x : Gen σ ε α) (scan : Scan K) : Prop :=
  ∀ m s s', R m s s' → (∀ k ∈ (scan m).reads, free k) → Follows R Eq (scan m) (x s) (x s')

namespace Agrees

variable {R : Marks K → σ → σ → Prop} {free : K → Prop} {x : Gen σ ε α} {f : α → Gen σ ε β}
  {sx sf sn : Scan K}

theorem pure (a : α) : Agrees R free (Pure.pure a : Gen σ ε α) .nop :=
  fun _ _ _ h _ => .returned rfl rfl h

theorem null : Agrees R free (Gen.null : Gen σ ε α) .fail := fun _ _ _ h _ => .null rfl h

theorem abort (why : ε) : Agrees R free (Gen.abort why : Gen σ ε α) .abort :=
  fun _ _ _ _ _ => .aborted rfl

theorem first_reads {m : Marks K} (h : ∀ k ∈ (sx.attempt sf sn m).reads, free k) :
    ∀ k ∈ (sx m).reads, free k := by
  intro k hk
  apply h
  unfold Scan.attempt
  split
  · exact List.mem_append_left _ hk
  · exact List.mem_append_left _ hk
  · exact hk

theorem returned_reads {m : Marks K} (h : ∀ k ∈ (sx.attempt sf sn m).reads, free k)
    (hend : (sx m).ending = .returned) : ∀ k ∈ (sf (sx m).marks).reads, free k := by
  intro k hk
  apply h
  rw [Scan.attempt_of_returned hend]
  exact List.mem_append_right _ hk

theorem null_reads {m : Marks K} (h : ∀ k ∈ (sx.attempt sf sn m).reads, free k)
    (hend : (sx m).ending = .null) : ∀ k ∈ (sn (sx m).marks).reads, free k := by
  intro k hk
  apply h
  rw [Scan.attempt_of_null hend]
  exact List.mem_append_right _ hk

theorem bind_of (hx : Agrees R free x sx)
    (hf : ∀ a s t, x s = .ok a t → Agrees R free (f a) sf) :
    Agrees R free (x >>= f) (sx.seq sf) := by
  intro m s s' h hreads
  apply (hx m s s' h (first_reads hreads)).bind
  intro a t a' t' hend hrun heq hR
  subst heq
  exact hf a s t hrun _ t t' hR (returned_reads hreads hend)

theorem bind (hx : Agrees R free x sx) (hf : ∀ a, Agrees R free (f a) sf) :
    Agrees R free (x >>= f) (sx.seq sf) := hx.bind_of fun a _ _ _ => hf a

theorem bind_nop (hx : Agrees R free x .nop) (hf : ∀ a, Agrees R free (f a) sf) :
    Agrees R free (x >>= f) sf := hx.bind hf

theorem bind_last (hx : Agrees R free x sx) (hf : ∀ a, Agrees R free (f a) .nop) :
    Agrees R free (x >>= f) sx := by
  rw [← Scan.seq_nop (x := sx)]
  exact hx.bind hf

theorem attempt_bind {g : Option α → Gen σ ε β} (hx : Agrees R free x sx)
    (hsome : ∀ a, Agrees R free (g (some a)) sf) (hnone : Agrees R free (g none) sn) :
    Agrees R free (Gen.attempt x >>= g) (sx.attempt sf sn) := by
  intro m s s' h hreads
  apply (hx m s s' h (first_reads hreads)).attempt_bind
  · intro a t a' t' hend heq hR
    subst heq
    exact hsome a _ t t' hR (returned_reads hreads hend)
  · exact fun t t' hend hR => hnone _ t t' hR (null_reads hreads hend)

/-- An entry is looked up: it has the same value in both runs, or none. -/
theorem read {left : K → Option V} (table : σ → K → Option V) (k : K) {P : V → Prop}
    {g : Option V → Gen σ ε β}
    (htable : ∀ m s s', R m s s' → Inherits left m (table s) (table s'))
    (hown : ∀ m s s' v, R m s s' → table s' k = some v → P v)
    (hsome : ∀ v, P v → Agrees R (fun k => left k = none) (g (some v)) sf)
    (hnone : Agrees R (fun k => left k = none) (g none) .fail) :
    Agrees R (fun k => left k = none) (fun s => g (table s k) s) ((Scan.read k).seq sf) := by
  intro m s s' h hreads
  have hentry := htable m s s' h k
  show Follows R Eq ((Scan.read k).seq sf m) (g (table s k) s) (g (table s' k) s')
  cases hm : m k with
  | none =>
    rw [hm] at hentry
    have hend : (Scan.read k m).ending = .null := by simp [Scan.read, hm]
    have hleft : left k = none := first_reads hreads k (by simp [Scan.read, hm])
    rw [Scan.seq, Scan.attempt_of_null hend, hentry.1, hentry.2, hleft]
    exact (hnone m s s' h (List.forall_mem_nil _)).after
  | some b =>
    rw [hm] at hentry
    rw [hentry.1]
    cases hv : table s' k with
    | none =>
      have hb : b = false := by rw [← hentry.2, hv]; rfl
      have hend : (Scan.read k m).ending = .null := by simp [Scan.read, hm, hb]
      rw [Scan.seq, Scan.attempt_of_null hend]
      exact (hnone m s s' h (List.forall_mem_nil _)).after
    | some v =>
      have hb : b = true := by rw [← hentry.2, hv]; rfl
      have hend : (Scan.read k m).ending = .returned := by simp [Scan.read, hm, hb]
      rw [Scan.seq, Scan.attempt_of_returned hend]
      exact (hsome v (hown m s s' v h hv) m s s' h (returned_reads hreads hend)).after

/-- The same with nothing to scan behind it. -/
theorem read_last {left : K → Option V} (table : σ → K → Option V) (k : K) {P : V → Prop}
    {g : Option V → Gen σ ε β}
    (htable : ∀ m s s', R m s s' → Inherits left m (table s) (table s'))
    (hown : ∀ m s s' v, R m s s' → table s' k = some v → P v)
    (hsome : ∀ v, P v → Agrees R (fun k => left k = none) (g (some v)) .nop)
    (hnone : Agrees R (fun k => left k = none) (g none) .fail) :
    Agrees R (fun k => left k = none) (fun s => g (table s k) s) (.read k) := by
  have hread := read table k htable hown hsome hnone
  rwa [Scan.seq_nop] at hread

end Agrees

end AroundTheWorld.Base.Inherited
