import Mathlib.Logic.Relation

/-!
# Dominance in a flow graph

A node dominates another when every path from the entry to the latter passes
through it. A tree over the nodes certifies dominance without paths: it is enough
that, for every edge, the parent of the target is above the source.
-/

namespace AroundTheWorld.Base

variable {α : Type}

/-- A path from `entry`, with the nodes on it, the last one first. -/
inductive Path (edge : α → α → Prop) (entry : α) : α → List α → Prop where
  | start : Path edge entry entry [entry]
  | step {u v : α} {nodes : List α} (path : Path edge entry u nodes) (e : edge u v) :
    Path edge entry v (v :: nodes)

def Dominates (edge : α → α → Prop) (entry d n : α) : Prop :=
  ∀ nodes, Path edge entry n nodes → d ∈ nodes

theorem Path.entry_mem {edge : α → α → Prop} {entry n : α} {nodes : List α}
    (h : Path edge entry n nodes) : entry ∈ nodes := by
  induction h with
  | start => simp
  | step _ _ ih => exact List.mem_cons_of_mem _ ih

theorem Dominates.of_entry (edge : α → α → Prop) (entry n : α) : Dominates edge entry entry n :=
  fun _ hpath => hpath.entry_mem

/-- `d` is `n` or one of its ancestors. -/
def Above (parent : α → Option α) : α → α → Prop :=
  Relation.ReflTransGen fun p n => parent n = some p

theorem Above.refl (parent : α → Option α) (n : α) : Above parent n n := Relation.ReflTransGen.refl

theorem Above.of_parent {parent : α → Option α} {p n : α} (h : parent n = some p) :
    Above parent p n := .single h

theorem Above.trans {parent : α → Option α} {d p n : α} (h : Above parent d p)
    (h' : Above parent p n) : Above parent d n := Relation.ReflTransGen.trans h h'

/-- The tree fits the graph: whoever enters a node comes from below its parent. -/
def Certifies (parent : α → Option α) (edge : α → α → Prop) : Prop :=
  ∀ u v p, edge u v → parent v = some p → Above parent p u

theorem Above.dominates {parent : α → Option α} {edge : α → α → Prop} {entry d n : α}
    (hcert : Certifies parent edge) (hroot : parent entry = none) (h : Above parent d n) :
    Dominates edge entry d n := by
  intro nodes hpath
  induction hpath generalizing d with
  | start =>
    rcases Relation.ReflTransGen.cases_tail h with rfl | ⟨p, -, hp⟩
    · simp
    · rw [hroot] at hp
      cases hp
  | step path e ih =>
    rcases Relation.ReflTransGen.cases_tail h with rfl | ⟨p, hdp, hp⟩
    · simp
    · exact List.mem_cons_of_mem _ (ih (Above.trans hdp (hcert _ _ _ e hp)))

/-! ## Growing trees -/

/-- What has a parent keeps it. -/
def Extends (parent parent' : α → Option α) : Prop := ∀ n p, parent n = some p → parent' n = some p

theorem Extends.refl (parent : α → Option α) : Extends parent parent := fun _ _ h => h

theorem Extends.trans {parent parent' parent'' : α → Option α} (h : Extends parent parent')
    (h' : Extends parent' parent'') : Extends parent parent'' := fun n p hp => h' n p (h n p hp)

theorem Above.extends {parent parent' : α → Option α} {d n : α} (h : Above parent d n)
    (hext : Extends parent parent') : Above parent' d n :=
  Relation.ReflTransGen.mono (fun p n hp => hext n p hp) _ _ h

variable [DecidableEq α]

/-- A new leaf `n` under `p`. -/
def addLeaf (parent : α → Option α) (n p : α) : α → Option α :=
  fun k => if k = n then some p else parent k

theorem addLeaf_self (parent : α → Option α) (n p : α) : addLeaf parent n p n = some p := by
  simp [addLeaf]

theorem addLeaf_extends {parent : α → Option α} {n : α} (p : α) (h : parent n = none) :
    Extends parent (addLeaf parent n p) := by
  intro k q hq
  have hne : k ≠ n := by
    rintro rfl
    rw [h] at hq
    cases hq
  rw [addLeaf, if_neg hne, hq]

/-- A leaf that no edge enters does no harm. -/
theorem Certifies.addLeaf {parent : α → Option α} {edge : α → α → Prop} {n : α} (p : α)
    (hcert : Certifies parent edge) (hnone : parent n = none) (hedge : ∀ u, ¬ edge u n) :
    Certifies (addLeaf parent n p) edge := by
  intro u v q he hq
  have hne : v ≠ n := by
    rintro rfl
    exact hedge u he
  rw [Base.addLeaf, if_neg hne] at hq
  exact (hcert u v q he hq).extends (addLeaf_extends p hnone)

end AroundTheWorld.Base
