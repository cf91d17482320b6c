import Mathlib.Data.List.Nodup

/-!
# Names with values, kept in a store

A scope has names with their cells, innermost first. What a store has in the cells are
the values of the names: while the cells are all different, a name is read and written by
reading and writing its cell.
-/

namespace AroundTheWorld.Base

variable {ν κ δ : Type*}

/-- The values of the names. -/
def contents (mem : κ → δ) (scope : List (ν × κ)) : List (ν × δ) :=
  scope.map fun b => (b.1, mem b.2)

/-- The innermost value of a name replaced, when the name has one. -/
def assign [BEq ν] (x : ν) (d : δ) : List (ν × δ) → Option (List (ν × δ))
  | [] => none
  | (y, old) :: rest =>
    if x == y then some ((y, d) :: rest) else (assign x d rest).map ((y, old) :: ·)

section
variable {mem mem' : κ → δ} {scope : List (ν × κ)} {x : ν} {k : κ}

@[simp] theorem contents_cons (b : ν × κ) (scope : List (ν × κ)) :
    contents mem (b :: scope) = (b.1, mem b.2) :: contents mem scope := rfl

theorem contents_append (inner scope : List (ν × κ)) :
    contents mem (inner ++ scope) = contents mem inner ++ contents mem scope := List.map_append

@[simp] theorem contents_length (scope : List (ν × κ)) :
    (contents mem scope).length = scope.length := List.length_map _

theorem contents_congr (h : ∀ b ∈ scope, mem' b.2 = mem b.2) :
    contents mem' scope = contents mem scope := by
  apply List.map_congr_left
  intro b hb
  rw [h b hb]

variable [BEq ν]

theorem lookup_contents (mem : κ → δ) (scope : List (ν × κ)) (x : ν) :
    (contents mem scope).lookup x = (scope.lookup x).map mem := by
  induction scope with
  | nil => rfl
  | cons b scope ih =>
    obtain ⟨y, c⟩ := b
    rw [contents_cons, List.lookup_cons, List.lookup_cons]
    cases x == y with
    | true => rfl
    | false => exact ih

variable [LawfulBEq ν]

theorem mem_of_lookup_eq (h : scope.lookup x = some k) : (x, k) ∈ scope := by
  obtain ⟨l₁, l₂, rfl, -⟩ := List.lookup_eq_some_iff.mp h
  simp

variable [DecidableEq κ]

omit [BEq ν] [LawfulBEq ν] in
/-- Other cells than those of the scope. -/
theorem contents_update_of_notMem (h : ∀ b ∈ scope, b.2 ≠ k) (d : δ) :
    contents (fun j => if j = k then d else mem j) scope = contents mem scope := by
  apply contents_congr
  intro b hb
  exact if_neg (h b hb)

/-- Writing to the cell of a name is writing to the name. -/
theorem assign_contents (hdistinct : (scope.map Prod.snd).Nodup) (h : scope.lookup x = some k)
    (d : δ) : assign x d (contents mem scope) =
      some (contents (fun j => if j = k then d else mem j) scope) := by
  induction scope with
  | nil => cases h
  | cons b scope ih =>
    obtain ⟨y, c⟩ := b
    obtain ⟨hnot, hdistinct'⟩ := List.nodup_cons.mp hdistinct
    have hothers : ∀ b ∈ scope, b.2 ≠ c := by
      rintro b hb heq
      exact hnot (List.mem_map.mpr ⟨b, hb, heq⟩)
    rw [List.lookup_cons] at h
    rw [contents_cons, contents_cons, assign]
    cases hxy : x == y with
    | true =>
      rw [hxy] at h
      obtain rfl : c = k := Option.some.inj h
      rw [if_pos rfl, if_pos rfl, contents_update_of_notMem hothers]
    | false =>
      rw [hxy] at h
      have hk : c ≠ k := by
        rintro rfl
        exact hothers _ (mem_of_lookup_eq h) rfl
      rw [if_neg Bool.false_ne_true, ih hdistinct' h, if_neg hk]
      rfl

end

end AroundTheWorld.Base
