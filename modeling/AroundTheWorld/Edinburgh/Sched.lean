import Mathlib.Data.List.Induction

/-!
# The Edinburgh scheduler

`EdinburghScheduler::tryCandidate` over what LLVM supplies: the generic decision,
`tryGreater`, and the loop over the ready queue, which adopts the tried node when
`tryCandidate` returns true. `tryGreater` returns true when it has decided, in either
direction, so a node of another height is always adopted: the loop ends at the height
of the last node of the queue.
-/

namespace AroundTheWorld.Edinburgh

structure SchedCandidate (SUnit Reason : Type) where
  su : Option SUnit
  reason : Reason
  deriving DecidableEq, Repr

/-- The answer of a comparison, and the reasons it leaves at the two candidates. -/
structure Choice (Reason : Type) where
  wins : Bool
  tryReason : Reason
  candReason : Reason
  deriving DecidableEq, Repr

/-- What LLVM supplies. The generic scheduler looks at more than the two candidates
and has a state: its decision may depend on the number of the call. -/
structure MachineScheduler (SUnit Reason : Type) where
  noCand : Reason
  botPathReduce : Reason
  getHeight : SUnit → UInt32
  generic : Nat → SchedCandidate SUnit Reason → SchedCandidate SUnit Reason → Choice Reason
  tryGreater : Int32 → Int32 → Reason → Reason → Reason → Choice Reason
  generic_first : ∀ k cand tryCand, cand.su = none → (generic k cand tryCand).wins = true
  tryGreater_wins : ∀ a b t c r, (tryGreater a b t c r).wins = true ↔ a ≠ b
  tryGreater_marks : ∀ a b t c r, ¬ b < a → (tryGreater a b t c r).tryReason = t

namespace MachineScheduler

variable {SUnit Reason : Type} (llvm : MachineScheduler SUnit Reason)

/-- `EdinburghScheduler::tryCandidate` -/
def tryCandidate (k : Nat) (cand tryCand : SchedCandidate SUnit Reason) : Choice Reason :=
  let genericWins := llvm.generic k cand tryCand
  match tryCand.su, cand.su with
  | some t, some c =>
    let greater := llvm.tryGreater (llvm.getHeight t).toInt32 (llvm.getHeight c).toInt32
      genericWins.tryReason genericWins.candReason llvm.botPathReduce
    if greater.wins then greater else { greater with wins := genericWins.wins }
  | _, _ => genericWins

/-- The candidate of the loop over the queue, and the number of the next call. -/
structure Pick (SUnit Reason : Type) where
  call : Nat
  cand : SchedCandidate SUnit Reason

def firstPick : Pick SUnit Reason := ⟨0, ⟨none, llvm.noCand⟩⟩

/-- The decision on the next node of the queue. -/
def decision (p : Pick SUnit Reason) (node : SUnit) : Choice Reason :=
  llvm.tryCandidate p.call p.cand ⟨some node, llvm.noCand⟩

def consider (p : Pick SUnit Reason) (node : SUnit) : Pick SUnit Reason where
  call := p.call + 1
  cand :=
    if (llvm.decision p node).wins then ⟨some node, (llvm.decision p node).tryReason⟩
    else ⟨p.cand.su, (llvm.decision p node).candReason⟩

def pickNodeFromQueue (queue : List SUnit) : Pick SUnit Reason :=
  queue.foldl llvm.consider llvm.firstPick

/-- The node on the critical path is picked: no node of the queue is higher, and
between nodes of one height the generic decision stands. -/
structure OnCriticalPath (queue : List SUnit) : Prop where
  highest : ∃ node ∈ queue, (llvm.pickNodeFromQueue queue).cand.su = some node ∧
    ∀ other ∈ queue, llvm.getHeight other ≤ llvm.getHeight node
  ties : ∀ before node after, queue = before ++ node :: after →
    ∀ c, (llvm.pickNodeFromQueue before).cand.su = some c →
      llvm.getHeight node = llvm.getHeight c →
        (llvm.decision (llvm.pickNodeFromQueue before) node).wins =
          (llvm.generic (llvm.pickNodeFromQueue before).call
            (llvm.pickNodeFromQueue before).cand ⟨some node, llvm.noCand⟩).wins

section
variable {llvm} {p : Pick SUnit Reason} {node c : SUnit}

/-- A node of another height is adopted, higher or not. -/
theorem decision_of_ne (hc : p.cand.su = some c)
    (hne : llvm.getHeight node ≠ llvm.getHeight c) : (llvm.decision p node).wins = true := by
  have hcast : (llvm.getHeight node).toInt32 ≠ (llvm.getHeight c).toInt32 := by
    intro heq
    exact hne (congrArg Int32.toUInt32 heq)
  have hgreater (t r : Reason) := (llvm.tryGreater_wins _ _ t r llvm.botPathReduce).mpr hcast
  simp only [decision, tryCandidate, hc, hgreater, if_true]

theorem decision_of_eq (hc : p.cand.su = some c)
    (heq : llvm.getHeight node = llvm.getHeight c) :
    (llvm.decision p node).wins =
      (llvm.generic p.call p.cand ⟨some node, llvm.noCand⟩).wins := by
  have hgreater (t r : Reason) : (llvm.tryGreater (llvm.getHeight c).toInt32
      (llvm.getHeight c).toInt32 t r llvm.botPathReduce).wins = false :=
    Bool.eq_false_iff.mpr fun h => (llvm.tryGreater_wins _ _ _ _ _).mp h rfl
  simp [decision, tryCandidate, hc, heq, hgreater]

theorem decision_of_none (hc : p.cand.su = none) : (llvm.decision p node).wins = true := by
  simp only [decision, tryCandidate, hc]
  exact llvm.generic_first _ _ _ hc

/-- After one step the candidate is as high as the node just tried. -/
theorem consider_height (p : Pick SUnit Reason) (node : SUnit) :
    ∃ n, (llvm.consider p node).cand.su = some n ∧ llvm.getHeight n = llvm.getHeight node ∧
      (n = node ∨ p.cand.su = some n) := by
  have hadopts (hwins : (llvm.decision p node).wins = true) :
      (llvm.consider p node).cand.su = some node := by
    simp only [consider, hwins, if_true]
  cases hc : p.cand.su with
  | none => exact ⟨node, hadopts (decision_of_none hc), rfl, .inl rfl⟩
  | some c =>
    by_cases heq : llvm.getHeight node = llvm.getHeight c
    · by_cases hwins : (llvm.decision p node).wins = true
      · exact ⟨node, hadopts hwins, rfl, .inl rfl⟩
      · refine ⟨c, ?_, heq.symm, .inr rfl⟩
        simp only [consider, if_neg hwins, hc]
    · exact ⟨node, hadopts (decision_of_ne hc heq), rfl, .inl rfl⟩

theorem pick_append (llvm : MachineScheduler SUnit Reason) (before : List SUnit) (node : SUnit) :
    llvm.pickNodeFromQueue (before ++ [node]) =
      llvm.consider (llvm.pickNodeFromQueue before) node := by
  simp [pickNodeFromQueue]

theorem pick_mem {queue : List SUnit} {n : SUnit}
    (h : (llvm.pickNodeFromQueue queue).cand.su = some n) : n ∈ queue := by
  induction queue using List.reverseRecOn generalizing n with
  | nil => cases h
  | append_singleton before node ih =>
    obtain ⟨m, hm, -, horigin⟩ : ∃ m, (llvm.consider (llvm.pickNodeFromQueue before) node).cand.su =
      some m ∧ _ := consider_height _ node
    rw [pick_append, hm] at h
    cases h
    rcases horigin with rfl | hbefore
    · exact List.mem_append_right _ List.mem_cons_self
    · exact List.mem_append_left _ (ih hbefore)

/-- The loop ends at the height of the last node of the queue. -/
theorem pick_height (queue : List SUnit) (hqueue : queue ≠ []) :
    ∃ n, (llvm.pickNodeFromQueue queue).cand.su = some n ∧
      llvm.getHeight n = llvm.getHeight (queue.getLast hqueue) := by
  obtain ⟨n, hn, hheight, -⟩ : ∃ n, (llvm.consider (llvm.pickNodeFromQueue queue.dropLast)
    (queue.getLast hqueue)).cand.su = some n ∧ _ := consider_height _ _
  rw [← pick_append, List.dropLast_concat_getLast hqueue] at hn
  exact ⟨n, hn, hheight⟩

end

/-- The node on the critical path is picked exactly when the last node of the queue
is on it. -/
theorem onCriticalPath_iff (llvm : MachineScheduler SUnit Reason) (first : SUnit)
    (rest : List SUnit) :
    llvm.OnCriticalPath (first :: rest) ↔
      ∀ other ∈ first :: rest, llvm.getHeight other ≤
        llvm.getHeight ((first :: rest).getLast (List.cons_ne_nil first rest)) := by
  obtain ⟨n, hn, hheight⟩ : ∃ n, (llvm.pickNodeFromQueue (first :: rest)).cand.su = some n ∧ _ :=
    pick_height (first :: rest) (List.cons_ne_nil first rest)
  constructor
  · intro h other hother
    obtain ⟨node, -, hnode, hmax⟩ := h.highest
    rw [hn] at hnode
    cases hnode
    rw [← hheight]
    exact hmax other hother
  · intro hlast
    refine ⟨⟨n, pick_mem hn, hn, fun other hother => ?_⟩, fun before node after _ c hc heq => ?_⟩
    · rw [hheight]
      exact hlast other hother
    · exact decision_of_eq hc heq

/-- Nodes are their own heights. The generic scheduler takes the first node only, and
`tryGreater` is LLVM's. -/
def naturalScheduler : MachineScheduler UInt32 Nat where
  noCand := 0
  botPathReduce := 12
  getHeight n := n
  generic _ cand tryCand := ⟨cand.su.isNone, tryCand.reason, cand.reason⟩
  tryGreater tryVal candVal tryReason candReason reason :=
    if candVal < tryVal then ⟨true, reason, candReason⟩
    else if tryVal < candVal then ⟨true, tryReason, min candReason reason⟩
    else ⟨false, tryReason, candReason⟩
  generic_first _ _ _ h := by simp [h]
  tryGreater_wins a b t c r := by
    by_cases hab : a = b
    · simp [hab]
    · rcases Int32.lt_or_lt_of_ne hab with hlt | hlt
      · simp [hab, hlt, Int32.lt_asymm hlt]
      · simp [hab, hlt]
  tryGreater_marks a b t c r h := by
    rw [if_neg h]
    split <;> rfl

/-- Of two ready nodes the lower one is picked because it is tried last. -/
theorem lower_node_picked : ¬ naturalScheduler.OnCriticalPath [5, 3] := by
  intro h
  obtain ⟨node, -, hnode, hmax⟩ := h.highest
  have hpick : (naturalScheduler.pickNodeFromQueue [5, 3]).cand.su = some 3 := by decide +kernel
  rw [hpick] at hnode
  cases hnode
  exact absurd (hmax 5 List.mem_cons_self) (by decide)

end MachineScheduler

end AroundTheWorld.Edinburgh
