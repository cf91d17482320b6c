import AroundTheWorld.Athens.Emits
import AroundTheWorld.Llvm.Sound

/-!
# Athens emits sound control flow

The invariant of a builder at work, carried through `codegen`. The blocks of a
conditional hang in the dominator tree under the block that decides, a loop under
the block before it, and what follows the loop under the loop's last block.
-/

namespace AroundTheWorld.Athens

open AroundTheWorld.Base AroundTheWorld.Lex AroundTheWorld.Llvm

open AroundTheWorld.Llvm.Builder (Sound Passed Available Appends Inside FlowsFrom)

variable {D : Type}

/-! ## Conditionals -/

section
variable {b₀ b b₂ b₃ : Builder D Name} {parent : Nat → Option Nat} {waiting : List Nat}

/-- The three blocks of a conditional hang under the block that decides. -/
theorem ifHead_sound (h : Sound b₀ parent waiting b) {flag : Flag}
    (hflag : Available parent b flag.values) : ∃ parent', Extends parent parent' ∧
      Sound b₀ parent' ((b.nextLabel + 2) :: (b.nextLabel + 1) :: waiting) (ifHead b flag) ∧
      Appends b (ifHead b flag) ∧ ∀ k < 3, parent' (b.nextLabel + k) = some b.insertBlock := by
  have hle := h.appends.grows.label_le
  obtain ⟨p₁, hext₁, h₁, hp₁⟩ := h.reserve b.insertBlock
  obtain ⟨p₂, hext₂, h₂, hp₂⟩ := (h₁.appendBlock (l := b.nextLabel) hle).reserve b.insertBlock
  obtain ⟨p₃, hext₃, h₃, hp₃⟩ := h₂.reserve b.insertBlock
  have hp : ∀ k < 3, p₃ (b.nextLabel + k) = some b.insertBlock := by
    intro k hk
    match k, hk with
    | 0, _ => exact hext₃ _ _ (hext₂ _ _ hp₁)
    | 1, _ => exact hext₃ _ _ hp₂
    | 2, _ => exact hp₃
  have happends := ((((Appends.refl b).createBlock.appendBlock (Nat.le_refl _)).createBlock
    ).createBlock.emit (i := .condBr flag b.nextLabel (b.nextLabel + 1)) (Nat.le_refl _)
    (by simp [Instr.targets]) (by simp [Instr.isPhi])).setInsertPoint (Nat.le_refl b.nextLabel)
  refine ⟨p₃, hext₁.trans (hext₂.trans hext₃), ?_, happends, hp⟩
  refine h₃.branch (i := .condBr flag b.nextLabel (b.nextLabel + 1)) rfl ?_ ?_ ?_ ?_ ?_
  · intro l
    simp only [List.mem_cons]
    tauto
  · have hold : b.nextLabel ∉ waiting := fun hw => Nat.lt_irrefl _ (h.waits _ hw).1.lt
    simpa using hold
  · simp [Builder.createBlock, Builder.appendBlock]
  · intro t ht
    have ht' : t = b.nextLabel ∨ t = b.nextLabel + 1 := by simpa [Instr.targets] using ht
    have hlt : b.createBlock.2.createBlock.2.createBlock.2.nextLabel = b.nextLabel + 3 := rfl
    have hempty : b.code t = [] := h.wf.fresh t (by omega)
    refine ⟨by omega, ?_, ?_, ?_⟩
    · show t < b.nextLabel + 3
      omega
    · show ∀ j ∈ b.code t, j.isPhi = false
      simp [hempty]
    · intro p hpt
      obtain rfl : b.insertBlock = p := by
        rcases ht' with rfl | rfl
        · exact Option.some.inj ((hp 0 (by omega)).symm.trans hpt)
        · exact Option.some.inj ((hp 1 (by omega)).symm.trans hpt)
      exact .refl _ _
  · have havail : Available p₃ b.createBlockIn.2.createBlock.2.createBlock.2 flag.values := by
      intro v hv
      have hcarries := (((Appends.refl b).createBlock.appendBlock (Nat.le_refl _)).createBlock
        ).createBlock.carries (List.ne_nil_of_mem h.inserted)
      exact (hflag v hv).mono (hext₁.trans (hext₂.trans hext₃)) hcarries
    exact havail.uses

/-- The end of an arm: a jump to the block of the phi, and into the block `w`. -/
theorem armEnd_sound {ws ws' : List Nat} (h : Sound b₀ parent ws b) {m w d : Nat} (hm : m ∈ ws)
    (hw : ∀ l, l ∈ ws ↔ l = w ∨ l ∈ ws') (hnot : w ∉ ws') (hp : parent m = some d)
    (habove : Above parent d b.insertBlock) :
    Sound b₀ parent ws' (((b.createBr m).appendBlock w).setInsertPoint w) := by
  obtain ⟨hresm, hgem⟩ := h.waits m hm
  obtain ⟨-, hgew⟩ := h.waits w ((hw w).mpr (.inl rfl))
  refine (h.appendBlock hgew).branch (i := .br m) rfl hw hnot ?_ ?_ (by simp [Instr.uses])
  · simp [Builder.appendBlock]
  · intro t ht
    obtain rfl : t = m := by simpa [Instr.targets] using ht
    refine ⟨hgem, hresm.lt, ?_, ?_⟩
    · show ∀ j ∈ b.code t, j.isPhi = false
      simp [hresm.empty]
    · intro p hpt
      obtain rfl : d = p := Option.some.inj (hp.symm.trans hpt)
      exact habove

/-- What was defined before the end of an arm stays defined. -/
theorem armEnd_carries (hb : b.layout ≠ []) (m w : Nat) :
    Builder.Carries b (((b.createBr m).appendBlock w).setInsertPoint w) :=
  ⟨(Builder.Grows.emit b (.br m)).prefix_, Builder.entryBlock_append hb _ _,
    List.Subset.refl _⟩

/-- The phi of a conditional: its block has been left to by both arms and nobody else. -/
theorem ifMerge_complete {flag : Flag} (hwf : b.Wf) (hedge : ∀ u v, b.Edge u v → v < b.nextLabel)
    (hwf₂ : b₂.Wf) (h₂ : Appends (ifHead b flag) b₂) (hwf₃ : b₃.Wf)
    (h₃ : Appends (elseHead b b₂) b₃) (thenV elseV : Operand D) :
    (ifMerge b b₃).CompletePhi (b.nextLabel + 2)
      [(thenV, b₂.insertBlock), (elseV, b₃.insertBlock)] := by
  obtain ⟨-, -, -, hne⟩ := ifMerge_wf hwf hwf₂ h₂.grows hwf₃ h₃.grows
  have hlt : b.nextLabel + 2 < (ifHead b flag).nextLabel := Nat.lt_succ_self _
  have hlt' : b.nextLabel + 2 < (elseHead b b₂).nextLabel :=
    Nat.lt_of_lt_of_le hlt h₂.grows.label_le
  have hhead : ∀ u, ¬ (ifHead b flag).Edge u (b.nextLabel + 2) := by
    intro u he
    rcases Builder.emit_edge.mp he with he | ⟨-, hv⟩
    · have := hedge u _ he
      omega
    · simp [Instr.targets] at hv
  have helse : ∀ u, (elseHead b b₂).Edge u (b.nextLabel + 2) ↔ u = b₂.insertBlock := by
    intro u
    refine Builder.emit_edge.trans ?_
    simp [Instr.targets, h₂.edge_iff hlt, hhead]
  refine ⟨by simpa using hne, fun u => ?_⟩
  have hmerge : (ifMerge b b₃).Edge u (b.nextLabel + 2) ↔ u = b₂.insertBlock ∨
      u = b₃.insertBlock := by
    refine Builder.emit_edge.trans ?_
    simp [Instr.targets, h₃.edge_iff hlt', helse]
  rw [hmerge]
  simp

/-- The blocks of a conditional are all its own. -/
theorem ifMerge_appends (hhead : Appends b b₂) (harm : Appends (elseHead b b₂) b₃) :
    Appends b (ifMerge b b₃) := by
  have hend : ∀ {b' : Builder D Name} {w : Nat}, b.nextLabel ≤ w → Appends b b' →
      Appends b (((b'.createBr (b.nextLabel + 2)).appendBlock w).setInsertPoint w) := by
    intro b' w hw h
    have hbr := h.emit (i := .br (b.nextLabel + 2)) (Nat.le_refl _) (by simp [Instr.targets])
      (by simp [Instr.isPhi])
    exact (hbr.appendBlock hw).setInsertPoint hw
  have helse : Appends b (elseHead b b₂) := hend (Nat.le_succ _) hhead
  exact hend (Nat.le_add_right _ _) (helse.trans harm)

/-- From the end of the arms to behind the phi. -/
theorem ifPhi_sound {flag : Flag} {thenV elseV : Operand D} (hb : b.Wf)
    (hedge : ∀ u v, b.Edge u v → v < b.nextLabel) (hwf₂ : b₂.Wf)
    (h₂ : Appends (ifHead b flag) b₂) (hwf₃ : b₃.Wf) (h₃ : Appends (elseHead b b₂) b₃)
    (h : Sound b₀ parent waiting (ifMerge b b₃)) (hnew : b₀.nextLabel ≤ b.nextLabel)
    (hthen : ∀ x ∈ thenV.values, Builder.Supplied parent (ifMerge b b₃) x (.endOf b₂.insertBlock))
    (helse : ∀ x ∈ elseV.values, Builder.Supplied parent (ifMerge b b₃) x (.endOf b₃.insertBlock)) :
    Sound b₀ parent waiting ((ifMerge b b₃).createPhi
      [(thenV, b₂.insertBlock), (elseV, b₃.insertBlock)]).2 := by
  refine h.append (Nat.le_succ _) rfl ?_ ?_ ?_
  · intro r hr
    cases hr
    exact ⟨rfl, Nat.lt_succ_self _⟩
  · intro dst incoming heq
    cases heq
    refine ⟨?_, ifMerge_complete hb hedge hwf₂ h₂ hwf₃ h₃ thenV elseV⟩
    show b₀.nextLabel ≤ b.nextLabel + 2
    omega
  · intro use huse
    simp only [Instr.uses, List.flatMap_cons, List.flatMap_nil, List.append_nil, List.mem_append,
      List.mem_map] at huse
    rcases huse with ⟨x, hx, rfl⟩ | ⟨x, hx, rfl⟩
    · exact hthen x hx
    · exact helse x hx

/-! ## Loops -/

/-- A branch to a new block, and perhaps to one above that has no phi, with the
builder going on in the new block. -/
theorem enterNew_sound (h : Sound b₀ parent waiting b) {i : Instr D Name}
    (hterm : i.isTerminator = true)
    (htargets : ∀ t ∈ i.targets, t = b.nextLabel ∨ (b₀.nextLabel ≤ t ∧ t < b.nextLabel ∧
      (∀ j ∈ b.code t, j.isPhi = false) ∧ ∃ p, parent t = some p ∧ Above parent p b.insertBlock))
    (huses : ∀ use ∈ i.uses (.before b.insertBlock (b.code b.insertBlock).length),
      Builder.Supplied parent b use.1 use.2) :
    ∃ parent', Extends parent parent' ∧
      Sound b₀ parent' waiting ((b.createBlockIn.2.emit i).setInsertPoint b.nextLabel) ∧
      parent' b.nextLabel = some b.insertBlock := by
  have hle := h.appends.grows.label_le
  have hold : b.nextLabel ∉ waiting := fun hw => Nat.lt_irrefl _ (h.waits _ hw).1.lt
  obtain ⟨p₁, hext₁, h₁, hp₁⟩ := h.reserve b.insertBlock
  have happends := (Appends.refl b).createBlock.appendBlock (Nat.le_refl _)
  refine ⟨p₁, hext₁, ?_, hp₁⟩
  refine (h₁.appendBlock (l := b.nextLabel) hle).branch hterm (by simp) hold ?_ ?_ ?_
  · simp [Builder.appendBlock]
  · intro t ht
    have hlt : (b.createBlock.2.appendBlock b.nextLabel).nextLabel = b.nextLabel + 1 := rfl
    rcases htargets t ht with rfl | ⟨hge, hlt', hphi, q, hpt, habove⟩
    · refine ⟨hle, by omega, ?_, ?_⟩
      · show ∀ j ∈ b.code b.nextLabel, j.isPhi = false
        simp [h.wf.fresh]
      · intro p hp
        obtain rfl : b.insertBlock = p := Option.some.inj (hp₁.symm.trans hp)
        exact .refl _ _
    · refine ⟨hge, by omega, hphi, ?_⟩
      intro p hp
      obtain rfl : q = p := Option.some.inj ((hext₁ _ _ hpt).symm.trans hp)
      exact habove.extends hext₁
  · intro use huse
    exact (huses use huse).mono hext₁ (happends.carries (List.ne_nil_of_mem h.inserted))

end

/-! ## Expressions -/

/-- A slot in the entry block, if any. -/
def Slot (b : Builder D Name) (cell : Option Nat) : Prop :=
  ∀ c, cell = some c → (b.entryBlock, c) ∈ b.allocas

theorem Slot.carries {b b' : Builder D Name} {cell : Option Nat} (h : Slot b cell)
    (hc : Builder.Carries b b') : Slot b' cell := by
  intro c hcell
  rw [hc.entry]
  exact hc.allocas (h c hcell)

/-- Every name in scope has its slot in the entry block. -/
def Named (s : AthensState D) : Prop := ∀ x, Slot s.builder (s.namedValues x)

theorem Named.withName {s : AthensState D} (h : Named s) {name : Name} {cell : Option Nat}
    (hcell : Slot s.builder cell) : Named (s.withName name cell) := by
  intro x
  show Slot s.builder (if x = name then cell else s.namedValues x)
  split
  · exact hcell
  · exact h x

theorem Named.withBuilder {s : AthensState D} (h : Named s) {b : Builder D Name}
    (hc : Builder.Carries s.builder b) : Named (s.withBuilder b) := fun x => (h x).carries hc

/-- The code of `e` leaves the control flow sound, and its value at hand. -/
def Flows (ops : FloatOps D) (e : ExprAST D) : Prop :=
  ∀ s s' v, codegen ops e s = .ok v s' → ∀ b₀ parent waiting,
    Sound b₀ parent waiting s.builder → Named s → ∃ parent', Extends parent parent' ∧
      Passed b₀ parent' waiting s.builder s'.builder ∧ Available parent' s'.builder v.values ∧
      Named s'

theorem available_const (parent : Nat → Option Nat) (b : Builder D Name) (x : D) :
    Available parent b (Operand.const x).values := by simp [Available, Operand.values]

section
variable {ops : FloatOps D}

theorem flows_variable (name : Name) : Flows ops (.variableExpr name : ExprAST D) := by
  intro s s' v h b₀ parent waiting hs hnamed
  obtain ⟨a, ha, rfl, rfl⟩ := codegen_variable_ok h
  obtain ⟨hpassed, havail⟩ := Builder.passed_createLoad hs (hnamed name a ha)
  exact ⟨parent, .refl _, hpassed, havail,
    hnamed.withBuilder (hpassed.appends.carries hs.layout_ne')⟩

theorem flows_unary (op : Byte) {operand : ExprAST D} (ho : Flows ops operand) :
    Flows ops (.unaryExpr op operand) := by
  intro s s' v h b₀ parent waiting hs hnamed
  obtain ⟨operandV, s₁, m, hoperand, rfl, rfl⟩ := codegen_unary_ok h
  obtain ⟨p₁, hext₁, h₁, hv₁, hn₁⟩ := ho _ _ _ hoperand _ _ _ hs hnamed
  have hargs : ∀ a ∈ [operandV], Available p₁ s₁.builder a.values := by simpa using hv₁
  obtain ⟨h₂, hv₂⟩ := Builder.passed_createCall h₁.sound (text "unary" ++ [op]) hargs
  exact ⟨p₁, hext₁, h₁.trans (.refl _) h₂, hv₂, fun x =>
    (hn₁ x).carries (h₂.appends.carries h₁.sound.layout_ne')⟩

theorem flows_assign {lhs rhs : ExprAST D} (hr : Flows ops rhs) :
    Flows ops (.binaryExpr (byte '=') lhs rhs) := by
  intro s s' v h b₀ parent waiting hs hnamed
  obtain ⟨name, s₁, cell, -, hrhs, hcell, rfl⟩ := codegen_assign_ok h
  obtain ⟨p₁, hext₁, h₁, hv₁, hn₁⟩ := hr _ _ _ hrhs _ _ _ hs hnamed
  have h₂ := Builder.passed_createStore h₁.sound hv₁ (hn₁ name cell hcell)
  have hne := h₁.sound.layout_ne'
  exact ⟨p₁, hext₁, h₁.trans (.refl _) h₂, h₂.available (.refl _) hne hv₁,
    hn₁.withBuilder (h₂.appends.carries hne)⟩

theorem binaryOp_passed {op : Byte} {l r v : Operand D} {s s' : AthensState D}
    (h : binaryOp ops op l r s = .ok v s') {b₀ : Builder D Name} {parent : Nat → Option Nat}
    {waiting : List Nat} (hs : Sound b₀ parent waiting s.builder) (hnamed : Named s)
    (hl : Available parent s.builder l.values) (hr : Available parent s.builder r.values) :
    Passed b₀ parent waiting s.builder s'.builder ∧ Available parent s'.builder v.values ∧
      Named s' := by
  rcases binaryOp_ok h with ⟨fop, -, rfl, rfl⟩ | ⟨-, flag, b, hb, rfl, rfl⟩ | ⟨-, -, rfl, m, rfl⟩
  · obtain ⟨h₁, hv₁⟩ := Builder.passed_createFBin ops fop hs hl hr
    exact ⟨h₁, hv₁, hnamed.withBuilder (h₁.appends.carries hs.layout_ne')⟩
  · obtain ⟨h₁, hv₁⟩ := Builder.passed_createFCmp ops .ult hs hl hr
    rw [← hb] at h₁ hv₁
    obtain ⟨h₂, hv₂⟩ := Builder.passed_createUIToFP ops h₁.sound hv₁
    have h₃ := h₁.trans (.refl _) h₂
    exact ⟨h₃, hv₂, hnamed.withBuilder (h₃.appends.carries hs.layout_ne')⟩
  · have hargs : ∀ a ∈ [l, r], Available parent s.builder a.values := by simpa using ⟨hl, hr⟩
    obtain ⟨h₁, hv₁⟩ := Builder.passed_createCall hs (text "binary" ++ [op]) hargs
    exact ⟨h₁, hv₁, fun x => (hnamed x).carries (h₁.appends.carries hs.layout_ne')⟩

theorem flows_binary {op : Byte} (hop : op ≠ byte '=') {lhs rhs : ExprAST D} (hl : Flows ops lhs)
    (hr : Flows ops rhs) : Flows ops (.binaryExpr op lhs rhs) := by
  intro s s' v h b₀ parent waiting hs hnamed
  obtain ⟨l, s₁, r, s₂, hlhs, hrhs, h⟩ := codegen_binary_ok hop h
  obtain ⟨p₁, hext₁, h₁, hv₁, hn₁⟩ := hl _ _ _ hlhs _ _ _ hs hnamed
  obtain ⟨p₂, hext₂, h₂, hv₂, hn₂⟩ := hr _ _ _ hrhs _ _ _ h₁.sound hn₁
  have hv₁' := h₂.available hext₂ h₁.sound.layout_ne' hv₁
  obtain ⟨h₃, hv₃, hn₃⟩ := binaryOp_passed h h₂.sound hn₂ hv₁' hv₂
  exact ⟨p₂, hext₁.trans hext₂, (h₁.trans hext₂ h₂).trans (.refl _) h₃, hv₃, hn₃⟩

theorem flows_args {args : List (ExprAST D)} (hargs : ∀ a ∈ args, Flows ops a)
    {s s' : AthensState D} {vs : List (Operand D)} (h : codegenArgs ops args s = .ok vs s')
    {b₀ : Builder D Name} {parent : Nat → Option Nat} {waiting : List Nat}
    (hs : Sound b₀ parent waiting s.builder) (hnamed : Named s) :
    ∃ parent', Extends parent parent' ∧ Passed b₀ parent' waiting s.builder s'.builder ∧
      (∀ v ∈ vs, Available parent' s'.builder v.values) ∧ Named s' := by
  induction args generalizing s vs parent with
  | nil =>
    rw [codegenArgs] at h
    cases h
    exact ⟨parent, .refl _, .refl hs, by simp, hnamed⟩
  | cons arg args ih =>
    obtain ⟨v, s₁, rest, harg, hrest, rfl⟩ := codegenArgs_cons_ok h
    obtain ⟨p₁, hext₁, h₁, hv₁, hn₁⟩ := hargs arg (by simp) _ _ _ harg _ _ _ hs hnamed
    obtain ⟨p₂, hext₂, h₂, hv₂, hn₂⟩ := ih (fun a ha => hargs a (by simp [ha])) hrest h₁.sound hn₁
    refine ⟨p₂, hext₁.trans hext₂, h₁.trans hext₂ h₂, ?_, hn₂⟩
    intro w hw
    rcases List.mem_cons.mp hw with rfl | hw
    · exact h₂.available hext₂ h₁.sound.layout_ne' hv₁
    · exact hv₂ w hw

theorem flows_call (callee : Name) {args : List (ExprAST D)} (hargs : ∀ a ∈ args, Flows ops a) :
    Flows ops (.callExpr callee args) := by
  intro s s' v h b₀ parent waiting hs hnamed
  obtain ⟨m, argsV, s₁, hcode, rfl, rfl⟩ := codegen_call_ok h
  have hnamed' : Named ({ s with theModule := m } : AthensState D) := hnamed
  obtain ⟨p₁, hext₁, h₁, hv₁, hn₁⟩ := flows_args hargs hcode hs hnamed'
  obtain ⟨h₂, hv₂⟩ := Builder.passed_createCall h₁.sound callee hv₁
  exact ⟨p₁, hext₁, h₁.trans (.refl _) h₂, hv₂,
    hn₁.withBuilder (h₂.appends.carries h₁.sound.layout_ne')⟩

theorem flows_if {cond then_ else_ : ExprAST D} (hc : Flows ops cond) (ht : Flows ops then_)
    (he : Flows ops else_) : Flows ops (.ifExpr cond then_ else_) := by
  intro s s' v h b₀ parent waiting hs hnamed
  obtain ⟨condV, s₁, b, flag, thenV, s₂, elseV, s₃, hcond, hb, hthen, helse, rfl, rfl⟩ :=
    codegen_if_ok h
  obtain ⟨p₁, hext₁, h₁, hv₁, hn₁⟩ := hc _ _ _ hcond _ _ _ hs hnamed
  obtain ⟨hcmp, hflag⟩ := Builder.passed_createFCmp ops .one h₁.sound hv₁
    (available_const p₁ s₁.builder ops.zero)
  simp only [← hb] at hcmp hflag
  have hne := hcmp.sound.layout_ne'
  have hnb := hn₁.withBuilder (hcmp.appends.carries h₁.sound.layout_ne')
  have hbase := hcmp.sound.appends.grows.label_le
  have hold : ∀ k, b.nextLabel + k ∉ waiting := by
    intro k hk
    have := (hcmp.sound.waits _ hk).1.lt
    omega
  obtain ⟨p₂, hext₂, hhead, hahead, hp₂⟩ := ifHead_sound hcmp.sound hflag
  -- the then arm, entered from the block that decides
  obtain ⟨p₃, hext₃, h₂, hv₂, hn₂⟩ := ht _ _ _ hthen _ _ _ hhead
    (hnb.withBuilder (hahead.carries hne))
  have hp₃ : ∀ k < 3, p₃ (b.nextLabel + k) = some b.insertBlock :=
    fun k hk => hext₃ _ _ (hp₂ k hk)
  have habove₂ : Above p₃ b.insertBlock s₂.builder.insertBlock :=
    (Above.of_parent (hp₃ 0 (by omega))).trans h₂.above
  have helseHead : Sound b₀ p₃ ((b.nextLabel + 2) :: waiting) (elseHead b s₂.builder) := by
    refine armEnd_sound h₂.sound (by simp) ?_ ?_ (hp₃ 2 (by omega)) habove₂
    · intro l
      simp only [List.mem_cons]
      tauto
    · simpa using hold 1
  have hcarries₂ := armEnd_carries h₂.sound.layout_ne' (b.nextLabel + 2) (b.nextLabel + 1)
  -- the else arm
  obtain ⟨p₄, hext₄, h₃, hv₃, hn₃⟩ := he _ _ _ helse _ _ _ helseHead (hn₂.withBuilder hcarries₂)
  have hp₄ : ∀ k < 3, p₄ (b.nextLabel + k) = some b.insertBlock :=
    fun k hk => hext₄ _ _ (hp₃ k hk)
  have habove₃ : Above p₄ b.insertBlock s₃.builder.insertBlock :=
    (Above.of_parent (hp₄ 1 (by omega))).trans h₃.above
  have hmerge : Sound b₀ p₄ waiting (ifMerge b s₃.builder) :=
    armEnd_sound h₃.sound (by simp) (by simp) (hold 2) (hp₄ 2 (by omega)) habove₃
  have hcarries₃ := armEnd_carries h₃.sound.layout_ne' (b.nextLabel + 2) (b.nextLabel + 2)
  have hcarries := (hcarries₂.trans (h₃.appends.carries helseHead.layout_ne')).trans hcarries₃
  -- the phi
  have hphi := ifPhi_sound hcmp.sound.wf hcmp.sound.targets_lt h₂.sound.wf h₂.appends h₃.sound.wf
    h₃.appends hmerge hbase (fun x hx => (hv₂ x hx).mono hext₄ hcarries)
    (fun x hx => (hv₃ x hx).mono (.refl _) hcarries₃)
  have happends := (ifMerge_appends (hahead.trans h₂.appends) h₃.appends).emit
    (i := .phi (ifMerge b s₃.builder).nextReg [(thenV, s₂.builder.insertBlock),
      (elseV, s₃.builder.insertBlock)]) (Nat.le_succ _) (by simp [Instr.targets])
    (fun _ => Nat.le_add_right _ 2)
  have hall : Passed b₀ p₄ waiting b _ := ⟨happends, hphi, .of_parent (hp₄ 2 (by omega))⟩
  have hext := hext₂.trans (hext₃.trans hext₄)
  refine ⟨p₄, hext₁.trans hext, h₁.trans hext (hcmp.trans hext hall), ?_, ?_⟩
  · intro x hx
    obtain rfl := List.mem_singleton.mp hx
    refine ⟨b.nextLabel + 2, ((ifMerge b s₃.builder).code (b.nextLabel + 2)).length,
      ⟨_, Builder.emit_getElem?.mpr (.inr ⟨rfl, rfl, rfl⟩), rfl⟩, .refl _ _⟩
  · exact fun x => ((hn₃ x).carries hcarries₃).carries ⟨(Builder.Grows.emit _ _).prefix_, rfl,
      List.Subset.refl _⟩

theorem flows_or {e : ExprAST D} (he : Flows ops e) {default : D} {s s' : AthensState D}
    {v : Operand D} (h : codegenOr ops default e s = .ok v s') {b₀ : Builder D Name}
    {parent : Nat → Option Nat} {waiting : List Nat} (hs : Sound b₀ parent waiting s.builder)
    (hnamed : Named s) : ∃ parent', Extends parent parent' ∧
      Passed b₀ parent' waiting s.builder s'.builder ∧ Available parent' s'.builder v.values ∧
      Named s' := by
  rcases codegenOr_ok h with ⟨-, rfl, rfl⟩ | ⟨-, h⟩
  · exact ⟨parent, .refl _, .refl hs, available_const _ _ _, hnamed⟩
  · exact he _ _ _ h _ _ _ hs hnamed

/-- From the start value to the head of the loop. -/
theorem forHead_passed {b₀ b : Builder D Name} {parent : Nat → Option Nat} {waiting : List Nat}
    (h : Sound b₀ parent waiting b) {cell : Nat} {startVal : Operand D}
    (hv : Available parent b startVal.values) (hcell : (b.entryBlock, cell) ∈ b.allocas) :
    ∃ parent' d, Extends parent parent' ∧ parent' b.nextLabel = some d ∧
      Passed b₀ parent' waiting b (forHead b cell startVal) := by
  have hS := Builder.passed_createStore h hv hcell
  have hlt : ∀ t ∈ (Instr.br b.nextLabel : Instr D Name).targets,
      (b.createStore startVal cell).nextLabel ≤ t := by
    simp [Instr.targets, Builder.createStore, Builder.emit]
  obtain ⟨p₁, hext₁, h₁, hp₁⟩ := enterNew_sound hS.sound (i := .br b.nextLabel) rfl
    (by simp [Instr.targets, Builder.createStore, Builder.emit]) (by simp [Instr.uses])
  have happends := (((Appends.refl _).createBlock.appendBlock (Nat.le_refl _)).emit
    (i := .br b.nextLabel) (Nat.le_refl _) hlt (by simp [Instr.isPhi])).setInsertPoint
    (Nat.le_refl (b.createStore startVal cell).nextLabel)
  exact ⟨p₁, b.insertBlock, hext₁, hp₁, hS.trans hext₁ ⟨happends, h₁, .of_parent hp₁⟩⟩

/-- From the test of the loop to the store of its variable. -/
theorem forTail_passed {ops : FloatOps D} {b₀ b b₅ b₆ : Builder D Name} {parent : Nat → Option Nat}
    {waiting : List Nat} (h : Sound b₀ parent waiting b) {cell : Nat} {flag : Flag}
    {endV stepVal next : Operand D} (hendV : Available parent b endV.values)
    (hstepVal : Available parent b stepVal.values) (hcell : Slot b (some cell))
    (hb₅ : (flag, b₅) = Builder.createFCmp ops .one b endV (.const ops.zero))
    (hb₆ : (next, b₆) = Builder.createFBin ops .fadd (b₅.createLoad cell).2
      (b₅.createLoad cell).1 stepVal) :
    Passed b₀ parent waiting b (b₆.createStore next cell) ∧
      Available parent (b₆.createStore next cell) flag.values := by
  obtain ⟨hcmp, hflag⟩ := Builder.passed_createFCmp ops .one h hendV
    (available_const parent b ops.zero)
  simp only [← hb₅] at hcmp hflag
  have hne := h.layout_ne'
  have hne₅ := hcmp.sound.layout_ne'
  have hcell₅ := hcell.carries (hcmp.appends.carries hne)
  obtain ⟨hL, hcur⟩ := Builder.passed_createLoad hcmp.sound (hcell₅ _ rfl)
  have hstepVal' := (hcmp.trans (.refl _) hL).available (.refl _) hne hstepVal
  obtain ⟨hF, hnext⟩ := Builder.passed_createFBin ops .fadd hL.sound hcur hstepVal'
  simp only [← hb₆] at hF hnext
  have hround := (hcmp.trans (.refl _) hL).trans (.refl _) hF
  have hS := Builder.passed_createStore hF.sound hnext
    (hcell.carries (hround.appends.carries hne) _ rfl)
  refine ⟨hround.trans (.refl _) hS, ?_⟩
  exact ((hL.trans (.refl _) hF).trans (.refl _) hS).available (.refl _) hne₅ hflag

/-- From the last store of the loop to the block behind it. -/
theorem forEnd_passed {b₀ b b' : Builder D Name} {parent : Nat → Option Nat} {waiting : List Nat}
    (hpassed : Passed b₀ parent waiting b b') {flag : Flag} {loopBB d : Nat}
    (hflag : Available parent b' flag.values)
    (hnew : b.nextLabel ≤ loopBB) (hlt : loopBB < b'.nextLabel) (hle : b₀.nextLabel ≤ b.nextLabel)
    (hnophi : ∀ j ∈ b'.code loopBB, j.isPhi = false) (hparent : parent loopBB = some d)
    (habove : Above parent d b'.insertBlock) : ∃ parent', Extends parent parent' ∧
      Passed b₀ parent' waiting b ((b'.createBlockIn.2.createCondBr flag loopBB
        b'.nextLabel).setInsertPoint b'.nextLabel) := by
  have hbase := hpassed.appends.grows.label_le
  have htargets : ∀ t ∈ (Instr.condBr flag loopBB b'.nextLabel : Instr D Name).targets,
      t = loopBB ∨ t = b'.nextLabel := by simp [Instr.targets]
  have hnew' : ∀ t ∈ (Instr.condBr flag loopBB b'.nextLabel : Instr D Name).targets,
      b.nextLabel ≤ t := by
    intro t ht
    have := htargets t ht
    omega
  have hsound :=
    enterNew_sound hpassed.sound (i := .condBr flag loopBB b'.nextLabel) rfl ?_ hflag.uses
  · obtain ⟨p₁, hext₁, h₁, hp₁⟩ := hsound
    have happends := ((hpassed.appends.createBlock.appendBlock hbase).emit
      (i := .condBr flag loopBB b'.nextLabel) (Nat.le_refl _) hnew' (by simp [Instr.isPhi])
      ).setInsertPoint hbase
    refine ⟨p₁, hext₁, happends, h₁, ?_⟩
    exact (hpassed.above.extends hext₁).trans (.of_parent hp₁)
  · intro t ht
    rcases htargets t ht with rfl | rfl
    · exact .inr ⟨by omega, hlt, hnophi, d, hparent, habove⟩
    · exact .inl rfl

theorem flows_for (varName : Name) {start end_ step body : ExprAST D} (hst : Flows ops start)
    (hen : Flows ops end_) (hsp : Flows ops step) (hbo : Flows ops body) :
    Flows ops (.forExpr varName start end_ step body) := by
  intro s s' v h b₀ parent waiting hs hnamed
  obtain ⟨startVal, s₁, bodyVal, s₂, stepVal, s₃, endV, s₄, flag, b₅, next, b₆, hstart, hbody,
    hstep, hend, hb₅, hb₆, rfl, rfl⟩ := codegen_for_ok h
  -- in front of the loop
  have hA := Builder.passed_createAlloca hs
  have hslot : Slot s.builder.createAlloca.2 (some s.builder.nextCell) := by
    intro c hc
    cases hc
    exact List.mem_cons_self
  obtain ⟨p₁, hext₁, h₁, hv₁, hn₁⟩ := hst _ _ _ hstart _ _ _ hA.sound
    (hnamed.withBuilder (hA.appends.carries hs.layout_ne'))
  have hslot₁ := hslot.carries (h₁.appends.carries hA.sound.layout_ne')
  obtain ⟨p₂, d, hext₂, hp₂, hhead⟩ := forHead_passed h₁.sound hv₁ (hslot₁ _ rfl)
  have hchead := hhead.appends.carries h₁.sound.layout_ne'
  have hneHead := hhead.sound.layout_ne'
  have hslotHead := hslot₁.carries hchead
  -- the body, the step and the test
  obtain ⟨p₃, hext₃, h₂, -, hn₂⟩ := hbo _ _ _ hbody _ _ _ hhead.sound
    ((hn₁.withBuilder hchead).withName hslotHead)
  obtain ⟨p₄, hext₄, h₃, hv₃, hn₃⟩ := flows_or hsp hstep h₂.sound hn₂
  obtain ⟨p₅, hext₅, h₄, hv₄, hn₄⟩ := hen _ _ _ hend _ _ _ h₃.sound hn₃
  have hround := (h₂.trans hext₄ h₃).trans hext₅ h₄
  have hcround := hround.appends.carries hneHead
  obtain ⟨htail, hflag⟩ := forTail_passed h₄.sound hv₄ (h₄.available hext₅ h₃.sound.layout_ne' hv₃)
    (hslotHead.carries hcround) hb₅ hb₆
  have hloop := hround.trans (.refl _) htail
  -- back to the head of the loop, or on
  have hext := hext₃.trans (hext₄.trans hext₅)
  have hin := (hA.trans hext₁ h₁).trans (hext₂.trans hext) (hhead.trans hext hloop)
  have hempty : (forHead s₁.builder s.builder.nextCell startVal).code s₁.builder.nextLabel = [] :=
    (forHead_wf h₁.sound.wf s.builder.nextCell startVal).2.2
  have hlt : s₁.builder.nextLabel < (forHead s₁.builder s.builder.nextCell startVal).nextLabel :=
    Nat.lt_succ_self _
  have hnophi : ∀ j ∈ (b₆.createStore next s.builder.nextCell).code s₁.builder.nextLabel,
      j.isPhi = false := by
    intro j hj
    obtain ⟨k, hk⟩ := List.mem_iff_getElem?.mp hj
    cases hphi : j.isPhi with
    | false => rfl
    | true =>
      have hk' : ((forHead s₁.builder s.builder.nextCell startVal).code s₁.builder.nextLabel)[k]? =
        some j := hloop.appends.phis _ k j hlt hk hphi
      rw [hempty] at hk'
      cases hk'
  have habove : Above p₅ d (b₆.createStore next s.builder.nextCell).insertBlock :=
    (Above.of_parent (hext _ _ hp₂)).trans hloop.above
  obtain ⟨p₆, hext₆, hall⟩ := forEnd_passed hin hflag h₁.appends.grows.label_le
    (Nat.lt_of_lt_of_le hlt hloop.appends.grows.label_le) hs.appends.grows.label_le hnophi
    (hext _ _ hp₂) habove
  refine ⟨p₆, hext₁.trans ((hext₂.trans hext).trans hext₆), hall, available_const _ _ _, ?_⟩
  have hcend : Builder.Carries s₄.builder
      (forEnd b₆ s.builder.nextCell next flag s₁.builder.nextLabel) := by
    refine (htail.appends.carries h₄.sound.layout_ne').trans ?_
    exact ⟨(Builder.Grows.emit _ (.condBr flag s₁.builder.nextLabel b₆.nextLabel)).prefix_,
      Builder.entryBlock_append htail.sound.layout_ne' _ _, List.Subset.refl _⟩
  exact (hn₄.withBuilder hcend).withName
    ((hn₁ varName).carries ((hchead.trans hcround).trans hcend))

theorem flows_bindings {varNames : List (Name × ExprAST D)}
    (hinits : ∀ b ∈ varNames, Flows ops b.2) {s s' : AthensState D} {olds : List (Option Nat)}
    (h : codegenBindings ops varNames s = .ok olds s') {b₀ : Builder D Name}
    {parent : Nat → Option Nat} {waiting : List Nat} (hs : Sound b₀ parent waiting s.builder)
    (hnamed : Named s) : ∃ parent', Extends parent parent' ∧
      Passed b₀ parent' waiting s.builder s'.builder ∧ (∀ old ∈ olds, Slot s'.builder old) ∧
      Named s' := by
  induction varNames generalizing s olds parent with
  | nil =>
    rw [codegenBindings] at h
    cases h
    exact ⟨parent, .refl _, .refl hs, by simp, hnamed⟩
  | cons b rest ih =>
    obtain ⟨y, init⟩ := b
    obtain ⟨initVal, s₁, olds', hinit, hrest, rfl⟩ := codegenBindings_cons_ok h
    obtain ⟨p₁, hext₁, h₁, hv₁, hn₁⟩ := flows_or (hinits (y, init) (by simp)) hinit hs hnamed
    have hA := Builder.passed_createAlloca h₁.sound
    have hne₁ := h₁.sound.layout_ne'
    have hslot : Slot s₁.builder.createAlloca.2 (some s₁.builder.nextCell) := by
      intro c hc
      cases hc
      exact List.mem_cons_self
    have hS := Builder.passed_createStore hA.sound (hA.available (.refl _) hne₁ hv₁) (hslot _ rfl)
    have hin := hA.trans (.refl _) hS
    have hcin := hin.appends.carries hne₁
    have hslot' := hslot.carries (hS.appends.carries hA.sound.layout_ne')
    obtain ⟨p₂, hext₂, h₂, holds, hn₂⟩ := ih (fun b hb => hinits b (by simp [hb])) hrest hin.sound
      ((hn₁.withBuilder hcin).withName hslot')
    refine ⟨p₂, hext₁.trans hext₂, (h₁.trans hext₂ ((hin.trans hext₂ h₂))), ?_, hn₂⟩
    intro old hold
    rcases List.mem_cons.mp hold with rfl | hold
    · exact (hn₁ y).carries (hcin.trans (h₂.appends.carries hin.sound.layout_ne'))
    · exact holds old hold

theorem named_restoreNames {names : List Name} {olds : List (Option Nat)} {s s' : AthensState D}
    (h : restoreNames names olds s = .ok () s') (hnamed : Named s)
    (holds : ∀ old ∈ olds, Slot s.builder old) : s'.builder = s.builder ∧ Named s' := by
  induction names generalizing olds s with
  | nil =>
    cases olds <;> cases h <;> exact ⟨rfl, hnamed⟩
  | cons name names ih =>
    cases olds with
    | nil =>
      cases h
      exact ⟨rfl, hnamed⟩
    | cons old olds =>
      exact ih (s := s.withName name old) h (hnamed.withName (holds old (by simp)))
        fun o ho => holds o (by simp [ho])

theorem flows_var {varNames : List (Name × ExprAST D)} {body : ExprAST D}
    (hinits : ∀ b ∈ varNames, Flows ops b.2) (hb : Flows ops body) :
    Flows ops (.varExpr varNames body) := by
  intro s s' v h b₀ parent waiting hs hnamed
  obtain ⟨olds, s₁, s₂, hbindings, hbody, hrestore⟩ := codegen_var_ok h
  obtain ⟨p₁, hext₁, h₁, holds, hn₁⟩ := flows_bindings hinits hbindings hs hnamed
  obtain ⟨p₂, hext₂, h₂, hv₂, hn₂⟩ := hb _ _ _ hbody _ _ _ h₁.sound hn₁
  have hc := h₂.appends.carries h₁.sound.layout_ne'
  obtain ⟨hbuilder, hn₃⟩ := named_restoreNames hrestore hn₂ fun o ho => (holds o ho).carries hc
  rw [hbuilder]
  exact ⟨p₂, hext₁.trans hext₂, h₁.trans hext₂ h₂, hv₂, hn₃⟩

theorem codegen_flows (e : ExprAST D) : Flows ops e := by
  induction e using ExprAST.induction with
  | null =>
    intro s s' v h
    exact absurd h codegen_null
  | numberExpr val =>
    intro s s' v h b₀ parent waiting hs hnamed
    obtain ⟨rfl, rfl⟩ := codegen_number_ok h
    exact ⟨parent, .refl _, .refl hs, available_const _ _ _, hnamed⟩
  | variableExpr name => exact flows_variable name
  | unaryExpr op operand ih => exact flows_unary op ih
  | binaryExpr op lhs rhs ihl ihr =>
    by_cases hop : op = byte '='
    · subst hop
      exact flows_assign ihr
    · exact flows_binary hop ihl ihr
  | callExpr callee args ih => exact flows_call callee ih
  | ifExpr cond then_ else_ ihc iht ihe => exact flows_if ihc iht ihe
  | forExpr varName start end_ step body ihs ihe ihst ihb =>
    exact flows_for varName ihs ihe ihst ihb
  | varExpr varNames body ihs ihb => exact flows_var ihs ihb

/-- Sound control flow, whatever is generated and wherever in a function it starts:
blocks that were open behind the builder's back stay open, so that the block it ends
in is the only open one when the one it started in was. -/
theorem codegen_flowsFrom (e : ExprAST D) {s s' : AthensState D} {v : Operand D}
    (hs : s.builder.Inside) (hnamed : Named s) (h : codegen ops e s = .ok v s') :
    FlowsFrom s.builder s'.builder ∧
      ((∀ l, l < s.builder.nextLabel → l ≠ s.builder.insertBlock →
          l ∈ s.builder.layout ∧ Terminated (s.builder.code l)) →
        ∀ l, l < s'.builder.nextLabel → l ≠ s'.builder.insertBlock →
          l ∈ s'.builder.layout ∧ Terminated (s'.builder.code l)) := by
  obtain ⟨parent, -, hpassed, -, -⟩ := codegen_flows e _ _ _ h _ _ _ (Sound.start hs) hnamed
  have hflows := hpassed.sound.flowsFrom
  exact ⟨hflows, fun h₀ l hl hne => hflows.only_open h₀ hl hne⟩

end

/-- In an empty function. -/
def emptyFunction : AthensState Int := {}

theorem emptyFunction_inside : emptyFunction.builder.Inside where
  wf := ⟨by decide, fun _ _ => rfl⟩
  inserted := by decide
  unterminated := by simp [Unterminated, emptyFunction, Builder.entry]
  layout_lt := by simp [emptyFunction, Builder.entry]
  targets_lt := by simp [Builder.Edge, emptyFunction, Builder.entry]
  regs_lt := by simp [Builder.Defines, emptyFunction, Builder.entry]
  regs_once := by
    intro site site' r h
    cases site <;> simp [Builder.Defines, emptyFunction, Builder.entry] at h
  cells_lt := by simp [emptyFunction, Builder.entry]
  cells_once := by simp [emptyFunction, Builder.entry]

theorem emptyFunction_named : Named emptyFunction := by
  intro x c h
  cases h

theorem codegen_flowsFrom_if : ∃ s' v, codegen wholeOps
      (.ifExpr (.numberExpr 1) (.numberExpr 2) (.numberExpr 3)) emptyFunction = .ok v s' ∧
    FlowsFrom emptyFunction.builder s'.builder ∧
    ((∀ l, l < emptyFunction.builder.nextLabel → l ≠ emptyFunction.builder.insertBlock →
        l ∈ emptyFunction.builder.layout ∧ Terminated (emptyFunction.builder.code l)) →
      ∀ l, l < s'.builder.nextLabel → l ≠ s'.builder.insertBlock →
        l ∈ s'.builder.layout ∧ Terminated (s'.builder.code l)) := by
  obtain ⟨v, s', h⟩ : ∃ v s', codegen wholeOps
      (.ifExpr (.numberExpr 1) (.numberExpr 2) (.numberExpr 3)) emptyFunction = .ok v s' := by
    simp only [codegen]
    exact ⟨_, _, rfl⟩
  exact ⟨s', v, h, codegen_flowsFrom _ emptyFunction_inside emptyFunction_named h⟩

/-- Where `IfExprAST::codegen` has entered the then arm. -/
def thenArm : AthensState Int :=
  emptyFunction.withBuilder (ifHead emptyFunction.builder (.const true))

theorem thenArm_inside : thenArm.builder.Inside := by
  have hflag : Available (fun _ => none) emptyFunction.builder (Flag.const true).values := by
    simp [Available, Flag.values]
  obtain ⟨p, -, hs, -, -⟩ := ifHead_sound (Sound.start emptyFunction_inside) hflag
  refine ⟨hs.wf, hs.inserted, hs.unterminated, by decide, hs.targets_lt, hs.regs_lt, hs.regs_once,
    hs.cells_lt, hs.cells_once⟩

/-- The code of the then arm leaves the else block as it is: open, and not yet in the
function. -/
theorem elseBlock_waits : ∃ s' v l, thenArm.builder.Inside ∧ Named thenArm ∧
    codegen wholeOps (.numberExpr 1) thenArm = .ok v s' ∧ l < thenArm.builder.nextLabel ∧
    Unterminated (thenArm.builder.code l) ∧ l ≠ s'.builder.insertBlock ∧
    l ∉ s'.builder.layout ∧ ¬ Terminated (s'.builder.code l) := by
  refine ⟨thenArm, .const 1, 2, thenArm_inside, emptyFunction_named, ?_, by decide, ?_,
    by decide, by decide, ?_⟩
  · rw [codegen]
    rfl
  · intro i hi
    cases hi
  · rintro ⟨body, last, heq, -⟩
    have hempty : thenArm.builder.code 2 = [] := rfl
    rw [hempty] at heq
    simp at heq

end AroundTheWorld.Athens
