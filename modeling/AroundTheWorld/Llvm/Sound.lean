import AroundTheWorld.Llvm.Flow

/-!
# Sound control flow, step by step

The invariant of a builder at work: what was emitted since `b₀` is sound except for
the insertion block, which is open, and the blocks that wait to be entered. Each
builder call keeps it; at the end it gives what a verifier asks for.
-/

namespace AroundTheWorld.Llvm.Builder

open AroundTheWorld.Base

variable {D F : Type}

/-- The builder is at the end of an unterminated block of a function, whose code
mentions only what has been created and defines nothing twice. -/
structure Inside (b : Builder D F) : Prop where
  wf : b.Wf
  inserted : b.insertBlock ∈ b.layout
  unterminated : Unterminated (b.code b.insertBlock)
  layout_lt : ∀ l ∈ b.layout, l < b.nextLabel
  targets_lt : ∀ u v, b.Edge u v → v < b.nextLabel
  regs_lt : ∀ l k r, b.Defines (.instr l k) (.reg r) → r < b.nextReg
  regs_once : ∀ site site' r, b.Defines site (.reg r) → b.Defines site' (.reg r) → site' = site
  cells_lt : ∀ a ∈ b.allocas, a.2 < b.nextCell
  cells_once : ∀ a ∈ b.allocas, ∀ a' ∈ b.allocas, a.2 = a'.2 → a = a'

/-- The invariant; `parent` certifies the dominance of the blocks created since `b₀`. -/
structure Sound (b₀ : Builder D F) (parent : Nat → Option Nat) (waiting : List Nat)
    (b : Builder D F) : Prop where
  wf : b.Wf
  appends : Appends b₀ b
  layout_ne : b₀.layout ≠ []
  layout_lt : ∀ l ∈ b₀.layout, l < b₀.nextLabel
  inserted : b.insertBlock ∈ b.layout
  unterminated : Unterminated (b.code b.insertBlock)
  waits : ∀ l ∈ waiting, b.Reserved l ∧ b₀.nextLabel ≤ l
  finished : ∀ l, l < b.nextLabel → l = b₀.insertBlock ∨ b₀.nextLabel ≤ l → l ≠ b.insertBlock →
    l ∉ waiting → l ∈ b.layout ∧ Terminated (b.code l)
  allocas : ∀ a ∈ b.allocas, a ∈ b₀.allocas ∨ a.1 = b₀.entryBlock
  cells_lt : ∀ a ∈ b.allocas, a.2 < b.nextCell
  cells_once : ∀ a ∈ b.allocas, ∀ a' ∈ b.allocas, a.2 = a'.2 → a = a'
  targets_lt : ∀ u v, b.Edge u v → v < b.nextLabel
  regs_lt : ∀ l k r, b.Defines (.instr l k) (.reg r) → r < b.nextReg
  regs_once : ∀ site site' r, b.Defines site (.reg r) → b.Defines site' (.reg r) → site' = site
  leaf : ∀ l p, parent l = some p → b₀.nextLabel ≤ l ∧ l < b.nextLabel
  certifies : Certifies parent b.Edge
  phis : ∀ l k dst incoming, Since b₀ b l k (.phi dst incoming) → b.CompletePhi l incoming
  uses : ∀ l k i, Since b₀ b l k i → ∀ use ∈ i.uses (.before l k), Supplied parent b use.1 use.2

theorem Since.not_self {b : Builder D F} {l k : Nat} {i : Instr D F} : ¬ Since b b l k i := by
  rintro ⟨hle, hi⟩
  have := (List.getElem?_eq_some_iff.mp hi).1
  omega

namespace Sound

variable {b₀ b : Builder D F} {parent : Nat → Option Nat} {waiting : List Nat}

/-- Before anything is emitted there is nothing to check. -/
theorem start (h : b.Inside) : Sound b (fun _ => none) [] b where
  wf := h.wf
  appends := .refl b
  layout_ne := List.ne_nil_of_mem h.inserted
  layout_lt := h.layout_lt
  inserted := h.inserted
  unterminated := h.unterminated
  waits := by simp
  finished := by
    intro l hl hnew hne
    omega
  allocas := fun a ha => .inl ha
  cells_lt := h.cells_lt
  cells_once := h.cells_once
  targets_lt := h.targets_lt
  regs_lt := h.regs_lt
  regs_once := h.regs_once
  leaf := by simp
  certifies := by
    intro u v p _ hp
    cases hp
  phis := fun _ _ _ _ hsince => absurd hsince Since.not_self
  uses := fun _ _ _ hsince => absurd hsince Since.not_self

theorem entryBlock_eq (h : Sound b₀ parent waiting b) : b.entryBlock = b₀.entryBlock :=
  h.appends.entryBlock_eq h.layout_ne

theorem layout_ne' (h : Sound b₀ parent waiting b) : b.layout ≠ [] := List.ne_nil_of_mem h.inserted

/-- A block that does not exist yet has no place in the tree and no predecessors. -/
theorem fresh (h : Sound b₀ parent waiting b) :
    parent b.nextLabel = none ∧ ∀ u, ¬ b.Edge u b.nextLabel := by
  constructor
  · cases hp : parent b.nextLabel with
    | none => rfl
    | some p =>
      have := (h.leaf _ _ hp).2
      omega
  · intro u he
    have := h.targets_lt u _ he
    omega

/-! ## Blocks and slots -/

theorem createBlock (h : Sound b₀ parent waiting b) (p : Nat) :
    Sound b₀ (addLeaf parent b.nextLabel p) (b.nextLabel :: waiting) b.createBlock.2 := by
  obtain ⟨hnone, hedge⟩ := h.fresh
  have hle := h.appends.grows.label_le
  have hext : Extends parent (addLeaf parent b.nextLabel p) := addLeaf_extends p hnone
  refine { h with
    wf := h.wf.createBlock, appends := h.appends.createBlock, waits := ?_, finished := ?_,
    targets_lt := fun u v he => Nat.lt_succ_of_lt (h.targets_lt u v he), leaf := ?_,
    certifies := h.certifies.addLeaf p hnone hedge,
    uses := ?_ }
  · intro l hl
    rcases List.mem_cons.mp hl with rfl | hl
    · exact ⟨h.wf.reserved, hle⟩
    · exact ⟨(h.waits l hl).1.grows (.createBlock b), (h.waits l hl).2⟩
  · intro l hl hnew hne hnot
    have hl' : l < b.nextLabel + 1 := hl
    have hne' : l ≠ b.nextLabel := by
      rintro rfl
      simp at hnot
    exact h.finished l (by omega) hnew hne fun hw => hnot (List.mem_cons_of_mem _ hw)
  · intro l q hq
    have hlt : b.createBlock.2.nextLabel = b.nextLabel + 1 := rfl
    by_cases hl : l = b.nextLabel
    · omega
    · rw [addLeaf, if_neg hl] at hq
      have := h.leaf l q hq
      omega
  · intro l k i hsince use huse
    exact (h.uses l k i hsince use huse).mono hext
      ⟨fun _ => List.prefix_rfl, rfl, List.Subset.refl _⟩

/-- A new block hangs under whichever block is to lead to it. -/
theorem reserve (h : Sound b₀ parent waiting b) (p : Nat) : ∃ parent', Extends parent parent' ∧
    Sound b₀ parent' (b.nextLabel :: waiting) b.createBlock.2 ∧ parent' b.nextLabel = some p :=
  ⟨_, addLeaf_extends p h.fresh.1, h.createBlock p, addLeaf_self _ _ _⟩

theorem appendBlock (h : Sound b₀ parent waiting b) {l : Nat} (hl : b₀.nextLabel ≤ l) :
    Sound b₀ parent waiting (b.appendBlock l) := by
  have hentry : (b.appendBlock l).entryBlock = b.entryBlock := by
    rw [(h.appends.appendBlock hl).entryBlock_eq h.layout_ne, h.entryBlock_eq]
  refine { h with
    wf := h.wf.appendBlock l, appends := h.appends.appendBlock hl,
    inserted := List.mem_append_left _ h.inserted,
    waits := fun k hk => ⟨(h.waits k hk).1.grows (.appendBlock b l), (h.waits k hk).2⟩,
    finished := ?_, uses := ?_ }
  · intro k hk hnew hne hnot
    obtain ⟨hin, hterm⟩ := h.finished k hk hnew hne hnot
    exact ⟨List.mem_append_left _ hin, hterm⟩
  · intro k j i hsince use huse
    exact (h.uses k j i hsince use huse).mono (Extends.refl _)
      ⟨fun _ => List.prefix_rfl, hentry, List.Subset.refl _⟩

theorem createAlloca (h : Sound b₀ parent waiting b) :
    Sound b₀ parent waiting b.createAlloca.2 := by
  have hnew : ∀ a ∈ b.allocas, a.2 ≠ b.nextCell := fun a ha => Nat.ne_of_lt (h.cells_lt a ha)
  refine { h with
    wf := h.wf.createAlloca, appends := h.appends.createAlloca,
    waits := fun l hl => ⟨(h.waits l hl).1.grows (.createAlloca b), (h.waits l hl).2⟩,
    allocas := ?_, cells_lt := ?_, cells_once := ?_, regs_once := ?_, uses := ?_ }
  · intro a ha
    rcases List.mem_cons.mp ha with rfl | ha
    · exact .inr h.entryBlock_eq
    · exact h.allocas a ha
  · intro a ha
    rcases List.mem_cons.mp ha with rfl | ha
    · exact Nat.lt_succ_self _
    · exact Nat.lt_succ_of_lt (h.cells_lt a ha)
  · intro a ha a' ha' heq
    rcases List.mem_cons.mp ha with rfl | ha
    · rcases List.mem_cons.mp ha' with rfl | ha'
      · rfl
      · exact absurd heq.symm (hnew a' ha')
    · rcases List.mem_cons.mp ha' with rfl | ha'
      · exact absurd heq (hnew a ha)
      · exact h.cells_once a ha a' ha' heq
  · intro site site' r hdef hdef'
    cases site <;> cases site' <;> exact h.regs_once _ _ r hdef hdef'
  · intro l k i hsince use huse
    exact (h.uses l k i hsince use huse).mono (Extends.refl _)
      ⟨fun _ => List.prefix_rfl, rfl, List.subset_cons_self _ _⟩

/-! ## Instructions -/

/-- An instruction that stays in its block, with operands that are available. -/
theorem append (h : Sound b₀ parent waiting b) {i : Instr D F} {n : Nat} (hn : b.nextReg ≤ n)
    (hterm : i.isTerminator = false) (hdst : ∀ r, i.dst = some r → r = b.nextReg ∧ r < n)
    (hphi : ∀ dst incoming, i = .phi dst incoming →
      b₀.nextLabel ≤ b.insertBlock ∧ b.CompletePhi b.insertBlock incoming)
    (huses : ∀ use ∈ i.uses (.before b.insertBlock (b.code b.insertBlock).length),
      Supplied parent b use.1 use.2) :
    Sound b₀ parent waiting { b.emit i with nextReg := n } := by
  have htargets : i.targets = [] := targets_of_not_terminator hterm
  have hedge : ∀ u v, Edge { b.emit i with nextReg := n } u v ↔ b.Edge u v := by
    intro u v
    refine emit_edge.trans ?_
    simp [htargets]
  have hphi' : i.isPhi = true → b₀.nextLabel ≤ b.insertBlock := by
    intro hi
    cases i <;> first | exact (hphi _ _ rfl).1 | cases hi
  refine { h with
    wf := ⟨(h.wf.emit i).insert_lt, (h.wf.emit i).fresh⟩,
    appends := h.appends.emit hn (by simp [htargets]) hphi',
    unterminated := ?_, waits := ?_, finished := ?_,
    targets_lt := fun u v he => h.targets_lt u v ((hedge u v).mp he), regs_lt := ?_,
    regs_once := ?_, certifies := fun u v p he hp => h.certifies u v p ((hedge u v).mp he) hp,
    phis := ?_, uses := ?_ }
  · intro j hj
    rcases emit_mem.mp hj with hj | ⟨-, rfl⟩
    · exact h.unterminated j hj
    · exact hterm
  · intro l hl
    have hr := (h.waits l hl).1.grows (.emit b i)
    exact ⟨⟨hr.lt, hr.ne, hr.empty⟩, (h.waits l hl).2⟩
  · intro l hl hnew hne hnot
    obtain ⟨hin, hfin⟩ := h.finished l hl hnew hne hnot
    refine ⟨hin, ?_⟩
    rwa [show (b.emit i).code l = b.code l from (Grows.emit b i).others l hl hne]
  · intro l k r hdef
    show r < n
    rcases defines_emit hdef with hdef | ⟨-, hr⟩
    · exact Nat.lt_of_lt_of_le (h.regs_lt l k r hdef) hn
    · exact (hdst r hr).2
  · intro site site' r hdef hdef'
    have hold : ∀ {site}, b.Defines site (.reg r) → i.dst ≠ some r := by
      intro site hdef hr
      cases site with
      | alloca l => cases hdef
      | instr l k =>
        have := h.regs_lt l k r hdef
        have := (hdst r hr).1
        omega
    rcases defines_emit hdef with hdef | ⟨rfl, hi⟩
    · rcases defines_emit hdef' with hdef' | ⟨-, hi⟩
      · exact h.regs_once site site' r hdef hdef'
      · exact absurd hi (hold hdef)
    · rcases defines_emit hdef' with hdef' | ⟨rfl, -⟩
      · exact absurd hi (hold hdef')
      · rfl
  · intro l k dst incoming hsince
    have hcomplete : b.CompletePhi l incoming := by
      rcases emit_since hsince with hsince | ⟨rfl, -, hi⟩
      · exact h.phis l k dst incoming hsince
      · exact (hphi dst incoming hi.symm).2
    exact ⟨hcomplete.1, fun p => (hcomplete.2 p).trans (hedge p l).symm⟩
  · intro l k j hsince use huse
    have hsupplied : Supplied parent b use.1 use.2 := by
      rcases emit_since hsince with hsince | ⟨rfl, rfl, rfl⟩
      · exact h.uses l k j hsince use huse
      · exact huses use huse
    exact hsupplied.mono (Extends.refl _) ⟨(Grows.emit b i).prefix_, rfl, List.Subset.refl _⟩

/-- The end of the block, and the way into a block that waits. -/
theorem branch (h : Sound b₀ parent waiting b) {i : Instr D F} (hterm : i.isTerminator = true)
    {w : Nat} {waiting' : List Nat} (hw : ∀ l, l ∈ waiting ↔ l = w ∨ l ∈ waiting')
    (hnot : w ∉ waiting') (hin : w ∈ b.layout)
    (htargets : ∀ t ∈ i.targets, b₀.nextLabel ≤ t ∧ t < b.nextLabel ∧
      (∀ j ∈ b.code t, j.isPhi = false) ∧ ∀ p, parent t = some p → Above parent p b.insertBlock)
    (huses : ∀ use ∈ i.uses (.before b.insertBlock (b.code b.insertBlock).length),
      Supplied parent b use.1 use.2) :
    Sound b₀ parent waiting' ((b.emit i).setInsertPoint w) := by
  obtain ⟨hres, hge⟩ := h.waits w ((hw w).mpr (.inl rfl))
  have hdst : i.dst = none := dst_of_terminator hterm
  have hphi : i.isPhi = false := by cases i <;> first | rfl | cases hterm
  have happends : Appends b₀ ((b.emit i).setInsertPoint w) := by
    have hemit := h.appends.emit (Nat.le_refl b.nextReg) (fun t ht => (htargets t ht).1)
      (by simp [hphi])
    exact hemit.setInsertPoint hge
  have hentry : ((b.emit i).setInsertPoint w).entryBlock = b.entryBlock := by
    rw [happends.entryBlock_eq h.layout_ne, h.entryBlock_eq]
  have hdefines : ∀ {site r}, ((b.emit i).setInsertPoint w).Defines site (.reg r) →
      b.Defines site (.reg r) := by
    intro site r hdef
    have hdef' : Defines { b.emit i with nextReg := b.nextReg } site (.reg r) := by
      cases site <;> exact hdef
    rcases defines_emit hdef' with hdef | ⟨-, hr⟩
    · exact hdef
    · rw [hdst] at hr
      cases hr
  refine { h with
    wf := (h.wf.emit i).setInsertPoint hres.lt, appends := happends, inserted := hin,
    unterminated := ?_, waits := ?_, finished := ?_, targets_lt := ?_,
    regs_lt := fun l k r hdef => h.regs_lt l k r (hdefines hdef),
    regs_once := fun site site' r hdef hdef' =>
      h.regs_once site site' r (hdefines hdef) (hdefines hdef'),
    certifies := ?_, phis := ?_, uses := ?_ }
  · intro j hj
    have hempty : (b.emit i).code w = [] := (hres.grows (.emit b i)).empty
    have hj' : j ∈ (b.emit i).code w := hj
    rw [hempty] at hj'
    cases hj'
  · intro l hl
    have hne : l ≠ w := by
      rintro rfl
      exact hnot hl
    obtain ⟨hl', hge'⟩ := h.waits l ((hw l).mpr (.inr hl))
    exact ⟨(hl'.grows (.emit b i)).setInsertPoint hne, hge'⟩
  · intro l hl hnew hne hnot'
    by_cases hins : l = b.insertBlock
    · subst hins
      refine ⟨h.inserted, b.code b.insertBlock, i, ?_, h.unterminated, hterm⟩
      simp [Builder.emit, Builder.setInsertPoint]
    · have hnot'' : l ∉ waiting := by
        intro hl'
        rcases (hw l).mp hl' with rfl | hl'
        · exact hne rfl
        · exact hnot' hl'
      obtain ⟨hl', hfin⟩ := h.finished l hl hnew hins hnot''
      refine ⟨hl', ?_⟩
      rwa [show ((b.emit i).setInsertPoint w).code l = b.code l from
        (Grows.emit b i).others l hl hins]
  · intro u v he
    rcases emit_edge.mp he with he | ⟨-, hv⟩
    · exact h.targets_lt u v he
    · exact (htargets v hv).2.1
  · intro u v p he hp
    rcases emit_edge.mp he with he | ⟨rfl, hv⟩
    · exact h.certifies u v p he hp
    · exact (htargets v hv).2.2.2 p hp
  · intro l k dst incoming hsince
    rcases emit_since hsince with hsince | ⟨-, -, rfl⟩
    · obtain ⟨hnodup, hpreds⟩ := h.phis l k dst incoming hsince
      refine ⟨hnodup, fun p => (hpreds p).trans ?_⟩
      have hnot' : l ∉ i.targets := by
        intro hl
        have := (htargets l hl).2.2.1 _ (List.mem_of_getElem? hsince.2)
        cases this
      constructor
      · intro he
        exact emit_edge.mpr (.inl he)
      · intro he
        rcases emit_edge.mp he with he | ⟨-, hl⟩
        · exact he
        · exact absurd hl hnot'
    · cases hphi
  · intro l k j hsince use huse
    have hsupplied : Supplied parent b use.1 use.2 := by
      rcases emit_since hsince with hsince | ⟨rfl, rfl, rfl⟩
      · exact h.uses l k j hsince use huse
      · exact huses use huse
    exact hsupplied.mono (Extends.refl _) ⟨(Grows.emit b i).prefix_, hentry, List.Subset.refl _⟩

end Sound

/-! ## Straight code -/

/-- The values can be used at the insertion point. -/
def Available (parent : Nat → Option Nat) (b : Builder D F) (vs : List Value) : Prop :=
  ∀ v ∈ vs, Supplied parent b v (.endOf b.insertBlock)

section
variable {b₀ b b' b'' : Builder D F} {parent parent' : Nat → Option Nat} {waiting : List Nat}

theorem Available.append {vs vs' : List Value} (h : Available parent b vs)
    (h' : Available parent b vs') : Available parent b (vs ++ vs') := by
  intro v hv
  rcases List.mem_append.mp hv with hv | hv
  · exact h v hv
  · exact h' v hv

theorem Available.uses {vs : List Value} (h : Available parent b vs) :
    ∀ use ∈ vs.map (·, Point.before b.insertBlock (b.code b.insertBlock).length),
      Supplied parent b use.1 use.2 := by
  intro use huse
  obtain ⟨v, hv, rfl⟩ := List.mem_map.mp huse
  exact (h v hv).here

/-- From `b` to `b'` the invariant was kept, and the insertion point went down the tree. -/
structure Passed (b₀ : Builder D F) (parent : Nat → Option Nat) (waiting : List Nat)
    (b b' : Builder D F) : Prop where
  appends : Appends b b'
  sound : Sound b₀ parent waiting b'
  above : Above parent b.insertBlock b'.insertBlock

theorem Passed.refl (h : Sound b₀ parent waiting b) : Passed b₀ parent waiting b b :=
  ⟨.refl b, h, .refl _ _⟩

theorem Passed.trans (h : Passed b₀ parent waiting b b') (hext : Extends parent parent')
    (h' : Passed b₀ parent' waiting b' b'') : Passed b₀ parent' waiting b b'' :=
  ⟨h.appends.trans h'.appends, h'.sound, Above.trans (h.above.extends hext) h'.above⟩

theorem Passed.available {vs : List Value} (h : Passed b₀ parent' waiting b b')
    (hext : Extends parent parent') (hb : b.layout ≠ []) (hvs : Available parent b vs) :
    Available parent' b' vs := by
  intro v hv
  exact ((hvs v hv).mono hext (h.appends.carries hb)).below h.above

theorem passed_createAlloca (h : Sound b₀ parent waiting b) :
    Passed b₀ parent waiting b b.createAlloca.2 :=
  ⟨(Appends.refl b).createAlloca, h.createAlloca, .refl _ _⟩

/-- An instruction that defines the next register. -/
theorem passed_define (h : Sound b₀ parent waiting b) {i : Instr D F}
    (hterm : i.isTerminator = false) (hphi : i.isPhi = false) (hdst : i.dst = some b.nextReg)
    (huses : ∀ use ∈ i.uses (.before b.insertBlock (b.code b.insertBlock).length),
      Supplied parent b use.1 use.2) :
    Passed b₀ parent waiting b (b.emit i).bumpReg ∧
      Available parent (b.emit i).bumpReg [.reg b.nextReg] := by
  have hle : b.nextReg ≤ b.nextReg + 1 := Nat.le_succ _
  refine ⟨⟨?_, h.append hle hterm ?_ ?_ huses, .refl _ _⟩, ?_⟩
  · refine (Appends.refl b).emit hle ?_ (by simp [hphi])
    simp [targets_of_not_terminator hterm]
  · intro r hr
    rw [hdst] at hr
    cases hr
    exact ⟨rfl, Nat.lt_succ_self _⟩
  · rintro dst incoming rfl
    cases hphi
  · intro v hv
    obtain rfl := List.mem_singleton.mp hv
    refine ⟨b.insertBlock, (b.code b.insertBlock).length, ⟨i, ?_, hdst⟩, .refl _ _⟩
    exact emit_getElem?.mpr (.inr ⟨rfl, rfl, rfl⟩)

theorem passed_createLoad (h : Sound b₀ parent waiting b) {cell : Nat}
    (hcell : (b.entryBlock, cell) ∈ b.allocas) :
    Passed b₀ parent waiting b (b.createLoad cell).2 ∧
      Available parent (b.createLoad cell).2 (b.createLoad cell).1.values := by
  refine passed_define h (i := .load b.nextReg cell) rfl rfl rfl ?_
  intro use huse
  obtain rfl := List.mem_singleton.mp huse
  exact hcell

theorem passed_createStore (h : Sound b₀ parent waiting b) {val : Operand D} {cell : Nat}
    (hval : Available parent b val.values) (hcell : (b.entryBlock, cell) ∈ b.allocas) :
    Passed b₀ parent waiting b (b.createStore val cell) := by
  refine ⟨?_, h.append (Nat.le_refl _) rfl ?_ ?_ ?_, .refl _ _⟩
  · refine (Appends.refl b).emit (Nat.le_refl _) ?_ ?_ <;> simp [Instr.targets, Instr.isPhi]
  · simp [Instr.dst]
  · simp
  · intro use huse
    rcases List.mem_cons.mp huse with rfl | huse
    · exact hcell
    · exact hval.uses use huse

theorem passed_createFBin (ops : FloatOps D) (op : FBinOp) (h : Sound b₀ parent waiting b)
    {l r : Operand D} (hl : Available parent b l.values) (hr : Available parent b r.values) :
    Passed b₀ parent waiting b (createFBin ops op b l r).2 ∧
      Available parent (createFBin ops op b l r).2 (createFBin ops op b l r).1.values := by
  rcases createFBin_cases ops b op l r with ⟨x, y, -, -, heq⟩ | heq
  · rw [heq]
    exact ⟨Passed.refl h, by simp [Available, Operand.values]⟩
  · rw [heq]
    exact passed_define h (i := .fbin op b.nextReg l r) rfl rfl rfl (hl.append hr).uses

theorem passed_createFCmp (ops : FloatOps D) (pred : FCmpPred) (h : Sound b₀ parent waiting b)
    {l r : Operand D} (hl : Available parent b l.values) (hr : Available parent b r.values) :
    Passed b₀ parent waiting b (createFCmp ops pred b l r).2 ∧
      Available parent (createFCmp ops pred b l r).2 (createFCmp ops pred b l r).1.values := by
  rcases createFCmp_cases ops b pred l r with ⟨x, y, -, -, heq⟩ | heq
  · rw [heq]
    exact ⟨Passed.refl h, by simp [Available, Flag.values]⟩
  · rw [heq]
    exact passed_define h (i := .fcmp pred b.nextReg l r) rfl rfl rfl (hl.append hr).uses

theorem passed_createUIToFP (ops : FloatOps D) (h : Sound b₀ parent waiting b) {flag : Flag}
    (hflag : Available parent b flag.values) :
    Passed b₀ parent waiting b (createUIToFP ops b flag).2 ∧
      Available parent (createUIToFP ops b flag).2 (createUIToFP ops b flag).1.values := by
  rcases createUIToFP_cases ops b flag with ⟨x, -, heq⟩ | heq
  · rw [heq]
    exact ⟨Passed.refl h, by simp [Available, Operand.values]⟩
  · rw [heq]
    exact passed_define h (i := .uitofp b.nextReg flag) rfl rfl rfl hflag.uses

theorem passed_createCall (h : Sound b₀ parent waiting b) (callee : F) {args : List (Operand D)}
    (hargs : ∀ a ∈ args, Available parent b a.values) :
    Passed b₀ parent waiting b (b.createCall callee args).2 ∧
      Available parent (b.createCall callee args).2 (b.createCall callee args).1.values := by
  have hall : Available parent b (args.flatMap Operand.values) := by
    intro v hv
    obtain ⟨a, ha, hv⟩ := List.mem_flatMap.mp hv
    exact hargs a ha v hv
  exact passed_define h (i := .call b.nextReg callee args) rfl rfl rfl hall.uses

end

/-! ## What it amounts to -/

/-- What the verifier finds in the code emitted between `b₀` and `b`. Blocks that
waited behind `b₀` still do. -/
structure FlowsFrom (b₀ b : Builder D F) : Prop where
  inserted : b.insertBlock ∈ b.layout
  unterminated : Unterminated (b.code b.insertBlock)
  finished : ∀ l, l < b.nextLabel → l = b₀.insertBlock ∨ b₀.nextLabel ≤ l → l ≠ b.insertBlock →
    l ∈ b.layout ∧ Terminated (b.code l)
  others : ∀ l, l < b₀.nextLabel → l ≠ b₀.insertBlock →
    b.code l = b₀.code l ∧ (l ∈ b.layout ↔ l ∈ b₀.layout)
  phis : ∀ l k dst incoming, Since b₀ b l k (.phi dst incoming) → b.CompletePhi l incoming
  entry : b.entryBlock = b₀.entryBlock
  allocas : ∀ a ∈ b.allocas, a ∈ b₀.allocas ∨ a.1 = b.entryBlock
  uses : ∀ l k i, Since b₀ b l k i → ∀ use ∈ i.uses (.before l k), ∃ site,
    (∀ site', b.Defines site' use.1 ↔ site' = site) ∧
    site.Covers (Dominates b.Edge b.entryBlock) use.2

variable {b₀ b : Builder D F} {parent : Nat → Option Nat} {waiting : List Nat}

/-- When nothing else had been left open, nothing else is. -/
theorem FlowsFrom.only_open (h : FlowsFrom b₀ b)
    (h₀ : ∀ l, l < b₀.nextLabel → l ≠ b₀.insertBlock → l ∈ b₀.layout ∧ Terminated (b₀.code l))
    {l : Nat} (hl : l < b.nextLabel) (hne : l ≠ b.insertBlock) :
    l ∈ b.layout ∧ Terminated (b.code l) := by
  by_cases hnew : l = b₀.insertBlock ∨ b₀.nextLabel ≤ l
  · exact h.finished l hl hnew hne
  · obtain ⟨hins, hlt⟩ := not_or.mp hnew
    obtain ⟨hcode, hlayout⟩ := h.others l (by omega) hins
    rw [hcode, hlayout]
    exact h₀ l (by omega) hins

/-- The entry block is the root of the tree. -/
theorem Sound.root (h : Sound b₀ parent waiting b) : parent b.entryBlock = none := by
  have hentry : b₀.entryBlock ∈ b₀.layout := by
    cases hlayout : b₀.layout with
    | nil => exact absurd hlayout h.layout_ne
    | cons l ls => simp [entryBlock, hlayout]
  rw [h.entryBlock_eq]
  cases hp : parent b₀.entryBlock with
  | none => rfl
  | some p =>
    have hge := (h.leaf _ _ hp).1
    have hlt := h.layout_lt _ hentry
    omega

/-- What is supplied has one definition, and that dominates. -/
theorem Supplied.dominates {v : Value} {p : Point} (hs : Supplied parent b v p)
    (h : Sound b₀ parent waiting b) : ∃ site, (∀ site', b.Defines site' v ↔ site' = site) ∧
      site.Covers (Dominates b.Edge b.entryBlock) p := by
  cases v with
  | cell c =>
    refine ⟨.alloca b.entryBlock, ?_, Dominates.of_entry _ _ _⟩
    intro site'
    constructor
    · intro hdef
      cases site' with
      | instr l k => cases hdef
      | alloca l =>
        cases h.cells_once _ hdef _ hs rfl
        rfl
    · rintro rfl
      exact hs
  | reg r =>
    obtain ⟨d, k, hdef, hcovers⟩ := hs
    refine ⟨.instr d k, ?_, hcovers.mono fun d l hd => hd.dominates h.certifies h.root⟩
    intro site'
    constructor
    · exact h.regs_once _ _ r hdef
    · rintro rfl
      exact hdef

theorem Sound.flowsFrom (h : Sound b₀ parent [] b) : FlowsFrom b₀ b where
  inserted := h.inserted
  unterminated := h.unterminated
  finished := fun l hl hnew hne => h.finished l hl hnew hne (by simp)
  others := by
    intro l hl hne
    refine ⟨h.appends.grows.others l hl hne, ?_⟩
    obtain ⟨new, hnew, hge⟩ := h.appends.layout
    rw [hnew, List.mem_append]
    constructor
    · rintro (hl' | hl')
      · exact hl'
      · have := hge l hl'
        omega
    · exact .inl
  phis := h.phis
  entry := h.entryBlock_eq
  allocas := by
    rw [h.entryBlock_eq]
    exact h.allocas
  uses := by
    intro l k i hsince use huse
    exact (h.uses l k i hsince use huse).dominates h

end AroundTheWorld.Llvm.Builder
