import AroundTheWorld.Cairo.Compiled

/-!
# The branches of Cairo

A branch is a path through blocks that nothing else is emitted into. It ends in a jump to
the block of the phi, which takes the value that belongs to where the machine came from.
-/

namespace AroundTheWorld.Cairo

open AroundTheWorld.Base AroundTheWorld.Lex AroundTheWorld.Llvm AroundTheWorld.Counted
open AroundTheWorld.Athens (ExprAST Name noRepeat)

variable {D W : Type}

section
variable {c : Setting D W} {N : Nat} {s s' s₁ s₂ : CairoState D} {scope : List (Name × Owned)}

/-- Behind the phi in which branches meet. -/
structure Met (c : Setting D W) (l dst n : Nat) (scope : List (Name × Owned)) (m : Machine D W)
    (r : D × State D W) (m' : Machine D W) : Prop where
  block : m'.block = l
  index : m'.index = 1
  agrees : (target c).Agrees scope r.2 m'
  value : m'.regs dst = r.1
  kept : m.Kept n m'

/-- A branch leads behind the phi. -/
theorem simulates_branch {f : State D W → Option (D × State D W)} {val : Operand D}
    (h : Computes c N s s₁ scope scope (fun _ => f) (fun m => m.val val)) {code : Code D}
    (hcode : Within c code (s.builder, s.kernelParams) (s₁.builder, s₁.kernelParams))
    {l k dst : Nat} {incoming : List (Operand D × Nat)}
    (hbr : (code s₁.builder.insertBlock)[(s₁.builder.code s₁.builder.insertBlock).length]? =
      some (.br l))
    (hphi : (code l)[0]? = some (.phi dst incoming))
    (hfind : incoming.find? (fun entry => entry.2 == s₁.builder.insertBlock) = some (val, k))
    (hdst : s.builder.nextReg ≤ dst) {m : Machine D W} {st : State D W} (hat : s.builder.At m)
    (hst : (target c).Agrees scope st m) :
    Simulates (Machine.step c.ops c.device code) N (Machine.Blocked c.device code) m (f st)
      (Met c l dst s.builder.nextReg scope m) := by
  refine (h.simulates code hcode m st hat hst).followed fun r m₁ hwent => ?_
  have hat₁ : s₁.builder.At m₁ := hwent.at_
  rw [← hat₁.index, ← hat₁.block] at hbr
  have hjump : m₁.step c.ops c.device code = some (m₁.jump l) := Machine.step_of_fetch hbr
  rw [← hat₁.block] at hfind
  let after : Machine D W := (m₁.jump l).setReg dst ((m₁.jump l).val val)
  have hexec : (m₁.jump l).exec c.ops c.device (.phi dst incoming) = some after := by
    show Option.map _ (incoming.find? fun entry => entry.2 == m₁.block) = _
    rw [hfind]
    rfl
  have hphi' : (m₁.jump l).step c.ops c.device code = some after :=
    (Machine.step_of_fetch hphi).trans hexec
  have hval : (m₁.jump l).val val = m₁.val val := by
    cases val <;> rfl
  have hkept : Machine.Kept s.builder.nextReg m m₁ := hwent.kept
  have hkept' : Machine.Kept s.builder.nextReg (m₁.jump l) after := .setReg hdst _
  have hjumped : Machine.Kept s.builder.nextReg m₁ (m₁.jump l) := .of_eq rfl rfl rfl
  refine ⟨after, (Reaches.one hjump).trans (Reaches.one hphi'), rfl, rfl, ?_, ?_, ?_⟩
  · exact hwent.agrees.same (fun _ _ => rfl) rfl rfl
  · have hread : m₁.val val = r.1 := hwent.read
    rw [← hread, ← hval]
    exact if_pos rfl
  · exact (hkept.trans hjumped).trans hkept'

theorem Met.went {b b' : Builder D × List KernelParam} {l dst n : Nat} {m m₁ m' : Machine D W}
    {r : D × State D W} (h : Met c l dst n scope m₁ r m') (hm : m.Kept b.1.nextReg m₁)
    (hn : b.1.nextReg ≤ n) (hl : b'.1.insertBlock = l) (hlength : (b'.1.code l).length = 1)
    (code : Code D) : (target c).Went code b b' scope m (fun m => m.val (.reg dst)) r m' := by
  refine ⟨⟨h.block.trans hl.symm, ?_⟩, h.agrees, h.value, hm.trans (h.kept.mono hn)⟩
  rw [h.index, hl, hlength]

theorem computes_branches {cond : Flag} {thenVal elseVal : Operand D}
    {f g : State D W → Option (D × State D W)} (hs : Ready c s scope)
    (hthen : Computes c N { s with builder := s.builder.enterThen cond } s₁ scope scope
      (fun _ => f) (fun m => m.val thenVal))
    (helse : Computes c N { s₁ with builder := s₁.builder.enterElse s.builder.nextLabel } s₂ scope
      scope (fun _ => g) (fun m => m.val elseVal)) :
    Computes c N s { s₂ with
        builder := (s₂.builder.merge s.builder.nextLabel thenVal s₁.builder.insertBlock elseVal).2 }
      scope scope (fun m st => if m.flag cond then f st else g st)
      (fun m => m.val (.reg s₂.builder.nextReg)) := by
  have hwf := hs.builder_wf
  have hthen' : (s.builder.enterThen cond).Grown s₁.builder := hthen.grown.grown
  have helse' : (s₁.builder.enterElse s.builder.nextLabel).Grown s₂.builder := helse.grown.grown
  have henter := Builder.enterThen_grown hwf cond
  have hlabels : s.builder.nextLabel + 3 ≤ s₁.builder.nextLabel := hthen'.labels
  have helseStart := Builder.enterElse_grown (henter.trans hthen') hlabels
  have hend := helseStart.trans helse'
  have hgrown := Builder.merge_grown hend (Nat.le_trans hlabels helse'.labels) thenVal
    s₁.builder.insertBlock elseVal
  have hblocks := ifBlocks hwf hthen' helse'
  obtain ⟨hbefore, hbr, hphi, hlength⟩ :=
    merge_code thenVal s₁.builder.insertBlock elseVal hblocks.merge_ne
  have hfirst := prefix_emit s₁.builder (.br (s.builder.nextLabel + 2))
  have hlate : ∀ l, s₁.builder.code l <+: (s₂.builder.merge s.builder.nextLabel thenVal
      s₁.builder.insertBlock elseVal).2.code l :=
    fun l => ((hfirst l).trans (helse'.prefix_ l)).trans (hbefore l)
  have hadds : Adds c (s.builder, s.kernelParams) ((s₂.builder.merge s.builder.nextLabel thenVal
      s₁.builder.insertBlock elseVal).2, s₂.kernelParams) := by
    have hcells : s.builder.nextCell ≤ s₁.builder.nextCell := hthen.grown.cells
    exact ⟨hgrown, helse.grown.function, Nat.le_trans hcells helse.grown.cells, helse.grown.params⟩
  constructor
  · exact hadds
  · exact ⟨⟨hgrown.wf, hadds.function, hadds.params⟩, helse.ready.names, hs.distinct,
      fun b hb => (target c).grown_has hadds (hs.has b hb)⟩
  · exact stable_val (v := .reg s₂.builder.nextReg) (Nat.lt_succ_self _)
  intro code hcode m st hat hst
  have hat : s.builder.At m := hat
  have hem : Emitted s.builder.code (s₂.builder.merge s.builder.nextLabel thenVal
      s₁.builder.insertBlock elseVal).2.code code := hcode.emitted
  -- where the jumps and the phi are in the end
  have hcond := hat.fetch hem (i := .condBr cond s.builder.nextLabel (s.builder.nextLabel + 1))
    ((emit_there _ _).trans ((hthen'.prefix_ _).trans (hlate _)))
  have hemEnd : Emitted s₂.builder.code _ code := hem.rest hend.prefix_
  have hbrElse := hemEnd.fetch hbr
  have hphi' := hemEnd.fetch hphi
  rw [hblocks.mergeBlock] at hphi' hlength
  have hbrThen := ((hem.rest (henter.trans hthen').prefix_).first
    fun l => (helse'.prefix_ l).trans (hbefore l)).fetch (emit_there s₁.builder _)
  have hjump : m.step c.ops c.device code =
      some (m.jump (if m.flag cond then s.builder.nextLabel else s.builder.nextLabel + 1)) :=
    Machine.step_of_fetch hcond
  refine Simulates.after (Reaches.one hjump) ?_
  have hkept : ∀ l, m.Kept s.builder.nextReg (m.jump l) := fun l => .of_eq rfl rfl rfl
  have hst' : ∀ l, (target c).Agrees scope st (m.jump l) := fun l =>
    hst.same (fun _ _ => rfl) rfl rfl
  cases m.flag cond with
  | true =>
    have hemThen := (hem.rest henter.prefix_).first hlate
    have hstart : (s.builder.enterThen cond).At (m.jump s.builder.nextLabel) :=
      ⟨rfl, (congrArg List.length hblocks.thenBlock).symm⟩
    refine (simulates_branch hthen ⟨hemThen, hcode.own⟩ hbrThen hphi'
      (k := s₁.builder.insertBlock) ?_ hend.regs hstart (hst' _)).mono fun r m₁ hmet => ?_
    · simp
    · exact hmet.went (hkept _) henter.regs rfl hlength code
  | false =>
    have hemElse := (hem.rest helseStart.prefix_).first hbefore
    have hstart :
        (s₁.builder.enterElse s.builder.nextLabel).At (m.jump (s.builder.nextLabel + 1)) :=
      ⟨rfl, (congrArg List.length hblocks.elseBlock).symm⟩
    refine (simulates_branch helse ⟨hemElse, hcode.own⟩ hbrElse hphi'
      (k := s₂.builder.insertBlock) ?_ helse'.regs hstart (hst' _)).mono fun r m₁ hmet => ?_
    · simp [hblocks.apart]
    · exact hmet.went (hkept _) helseStart.regs rfl hlength code

theorem preserved_if {cond then_ else_ : ExprAST D} (ihc : Preserved c N cond)
    (iht : Preserved c N then_) (ihe : Preserved c N else_) :
    Preserved c N (.ifExpr cond then_ else_) := by
  intro s v s' scope h hrep hs
  simp only [noRepeat, Bool.and_eq_true] at hrep
  obtain ⟨⟨hrepCond, hrepThen⟩, hrepElse⟩ := hrep
  rw [genIf_run] at h
  obtain ⟨condVal, s₁, hcond, h⟩ := Gen.bind_ok h
  obtain ⟨condCmp, s₂, hcmp, h⟩ := Gen.bind_ok h
  have h₁ := ihc s condVal s₁ scope hcond hrepCond hs
  have h₂ := computes_createFCmp (N := N) hcmp h₁.ready
  obtain ⟨thenVal, s₃, hthen, h⟩ := Gen.bind_ok h
  obtain ⟨elseVal, s₄, helse, h⟩ := Gen.bind_ok h
  cases h
  have hs₂ : Ready c s₂ scope := h₂.ready
  have henter := Builder.enterThen_grown hs₂.builder_wf condCmp
  have h₃ := iht _ _ _ _ hthen hrepThen (hs₂.built henter rfl (Nat.le_refl _))
  have hthen' : (s₂.builder.enterThen condCmp).Grown s₃.builder := h₃.grown.grown
  have hs₃ : Ready c s₃ scope := h₃.ready
  have helseStart := Builder.enterElse_grown (henter.trans hthen') hthen'.labels
  have helseReady : Ready c
      { s₃ with builder := s₃.builder.enterElse s₂.builder.nextLabel } scope :=
    ⟨⟨helseStart.wf, hs₃.wf.2.1, hs₃.wf.2.2⟩, hs₃.names, hs₃.distinct, hs₃.has⟩
  have h₄ := ihe _ _ _ _ helse hrepElse helseReady
  have htest := h₁.bind h₂ (k := fun _ x st => some (c.ops.une x c.ops.zero, st)) fun _ _ _ _ => rfl
  refine (htest.bind (computes_branches hs₂ h₃ h₄) (k := fun _ b st =>
    if b then eval c.dialect N then_ st else eval c.dialect N else_ st) fun _ _ _ _ => rfl).congr
      fun m st => ?_
  rw [eval, Option.bind_assoc]
  rfl

end

end AroundTheWorld.Cairo
