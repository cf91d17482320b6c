import AroundTheWorld.Cairo.Joins

/-!
# The loops of Cairo, followed to their end

The head of a loop takes the counter from where the machine came from, the latch counts and
compares. Between two iterations the machine stands at the head, with the next value of the
counter among the entries of the phi.
-/

namespace AroundTheWorld.Cairo

open AroundTheWorld.Base AroundTheWorld.Lex AroundTheWorld.Llvm AroundTheWorld.Counted
open AroundTheWorld.Athens (ExprAST Name noRepeat)

variable {D W : Type}

section
variable {c : Setting D W} {N : Nat} {s s' s₁ s₂ : CairoState D} {scope : List (Name × Owned)}

/-- A new slot, and a store to it, under no name. -/
theorem computes_slot {x : Operand D} {k : Owned} (hk : build (·.createAlloca) s = .ok k s₁)
    (hstore : emit (.store x k) s₁ = .ok () s₂) (hs : Ready c s scope) :
    Computes c N s s₂ scope scope (fun _ st => some ((), st)) (fun _ => ()) := by
  have hname : bindName [] (some k) s₂ = .ok () { s₂ with
      namedValues := fun y => if y = [] then some k else s₂.namedValues y } := rfl
  have hbound := computes_bound (N := N) hk hstore hname hs
  have hadds : Adds c (s.builder, s.kernelParams) (s₂.builder, s₂.kernelParams) := hbound.grown
  have hnames : s₂.namedValues = s.namedValues := by
    cases hk
    cases hstore
    rfl
  constructor
  · exact hadds
  · refine hs.grown hadds ?_
    funext y
    exact congrArg (Option.filter _) (congrFun hnames y)
  · exact fun _ _ _ => rfl
  · intro code hcode m st hat hst
    obtain ⟨m', hreach, hwent⟩ := hbound.simulates code hcode m st hat hst
    have hinner : (target c).Agrees ([([], k)] ++ scope) (st.push [] (m.val x)) m' := hwent.agrees
    exact ⟨m', hreach, hwent.at_, hinner.pop, rfl, hwent.kept⟩

end

namespace ForCode

variable {c : Setting D W} {N : Nat} {varName : Name} {start end_ step body : ExprAST D}
  {s : CairoState D} {scope : List (Name × Owned)} {code : Code D} {m : Machine D W}
    {st : State D W}
  (f : ForCode c.ops varName start end_ step body s)

/-- The generator where the body begins, and behind the loop. -/
def atBody : CairoState D :=
  { f.stepped with
    builder := f.inside
    namedValues := fun k => if k = varName then some f.pre.cell else f.stepped.namedValues k }

def behindLoop : CairoState D :=
  { f.behind with
    builder := f.final
    namedValues := fun k => if k = varName then none else f.behind.namedValues k }

variable {f}

/-! ## The code of the loop in the finished code -/

theorem final_prefix_ (hs : s.builder.Wf) (l : Nat) : f.pre.builder.code l <+: f.final.code l := by
  have hinside : f.pre.builder.Grown f.inside :=
    Preheader.enter_grown (.refl (grown_pre (c := f) hs).wf)
  obtain ⟨more, hmore⟩ := (hinside.trans (grown_behind hs)).prefix_ l
  have hsame : (f.pre.builder.code l).map (Instr.addIncoming f.pre.head.iv
      (.reg f.behind.builder.nextReg, f.behind.builder.insertBlock)) = f.pre.builder.code l :=
    map_addIncoming_of_lt ((grown_pre (c := f) hs).wf.regs l)
  show _ <+: (f.pre.head.leave f.behind.builder).code l
  rw [LoopHead.leave_code, ← hmore, List.append_assoc, List.map_append, hsame]
  exact List.prefix_append _ _

/-- The body is in the finished code as it was generated. -/
theorem emitted_body (hs : s.builder.Wf) (hem : Emitted f.stepped.builder.code f.final.code code) :
    Emitted f.inside.code f.behind.builder.code code := by
  intro l i x hi hx
  have hfirst := ((grown_inside (c := f) hs).prefix_ l).length_le
  apply hem l i x (Nat.le_trans hfirst hi)
  obtain ⟨more, hsplit, hmore⟩ := (grown_behind (c := f) hs).code l
  have hnew : f.inside.New x := by
    rw [hsplit, List.getElem?_append_right hi] at hx
    exact (hmore x (List.mem_of_getElem? hx)).2
  have hlt : i < (f.behind.builder.code l).length := (List.getElem?_eq_some_iff.mp hx).1
  show ((f.pre.head.leave f.behind.builder).code l)[i]? = some x
  rw [LoopHead.leave_code, List.getElem?_map, List.getElem?_append_left hlt, hx, Option.map_some,
    addIncoming_new _ hnew]

/-- The blocks of the loop are new. -/
theorem stepped_empty (hs : s.builder.Wf) {l : Nat} (hl : f.pre.head.loopBB ≤ l) :
    f.stepped.builder.code l = [] := by
  have hlabels : f.stepped.builder.nextLabel ≤ f.pre.head.loopBB := (grown_pre hs).labels
  exact (stepped_spec (c := f) hs).1.empty l (by omega)

/-- The block behind the loop is empty. -/
theorem after_empty (hs : s.builder.Wf) : f.final.code f.pre.head.afterBB = [] := by
  have hlt := pre_insert (c := f) hs
  have hinsert := behind_insert (c := f) hs
  have hafter : f.pre.head.afterBB = f.pre.head.loopBB + 1 := rfl
  have hinside : f.inside.code f.pre.head.afterBB = [] := by
    have hpre := (grown_pre (c := f) hs).wf.empty f.pre.head.afterBB (Nat.le_succ _)
    have hne : ¬ f.pre.head.afterBB = f.pre.head.loopBB := by omega
    have hne' : ¬ f.pre.head.afterBB = f.pre.builder.insertBlock := by omega
    unfold inside Preheader.enter
    simp only [Preheader.head] at hpre hne hne' ⊢
    simp [Builder.emitReg, Builder.emit, Builder.bumpReg, Builder.setInsertPoint, hpre, hne']
  have hbehind : f.behind.builder.code f.pre.head.afterBB = [] := by
    refine ((grown_behind (c := f) hs).untouched (l := f.pre.head.afterBB) ?_ ?_).trans hinside
    · exact Nat.lt_succ_self _
    · show f.pre.head.loopBB + 1 ≠ f.pre.head.loopBB
      omega
  have hne : ¬ f.pre.head.afterBB = f.behind.builder.insertBlock := by omega
  show (f.pre.head.leave f.behind.builder).code _ = []
  rw [LoopHead.leave_code, if_neg hne, hbehind]
  rfl

/-! ## In front of the loop -/

/-- The machine gets to the branch into the loop, with the bounds and the step in registers. -/
theorem preheader_reaches (hs : s.builder.Wf) (ht : Ready c f.stepped scope)
    (hem : Emitted f.stepped.builder.code f.final.code code) (hown : OwnCode c.number code)
    (hat : f.stepped.builder.At m) (hst : (target c).Agrees scope st m) :
    ∃ m', Reaches (Machine.step c.ops c.device code) m m' ∧ f.pre.builder.At m' ∧
      (target c).Agrees scope st m' ∧ m.Kept f.stepped.builder.nextReg m' ∧
      m'.int f.pre.startI64 = c.ops.fptosi (m.val f.startVal) ∧
      m'.int f.pre.endI64 = c.ops.fptosi (m.val f.endVal) ∧
      m'.int f.pre.stepI64 = c.ops.fptosi (m.val f.stepVal) := by
  obtain ⟨-, hstart, hend, hstep⟩ := stepped_spec (c := f) hs
  let s₁ : CairoState D := { f.stepped with builder := f.stepped.builder.createAlloca.2 }
  let s₂ : CairoState D := { s₁ with builder := s₁.builder.emit (.store f.startVal f.pre.cell) }
  let s₃ : CairoState D := { s₂ with builder := (s₂.builder.createFPToSI c.ops f.startVal).2 }
  let s₄ : CairoState D := { s₃ with builder := (s₃.builder.createFPToSI c.ops f.endVal).2 }
  let s₅ : CairoState D := { s₄ with builder := (s₄.builder.createFPToSI c.ops f.stepVal).2 }
  have halloca : build (·.createAlloca) f.stepped = .ok f.pre.cell s₁ := rfl
  have h₂ : Computes c 0 f.stepped s₂ scope scope (fun _ st => some ((), st)) (fun _ => ()) :=
    computes_slot halloca rfl ht
  have h₃ : Computes c 0 s₂ s₃ scope scope
      (fun m st => some (c.ops.fptosi (m.val f.startVal), st)) (fun m => m.int f.pre.startI64) :=
    computes_createFPToSI rfl h₂.ready
  have h₄ : Computes c 0 s₃ s₄ scope scope
      (fun m st => some (c.ops.fptosi (m.val f.endVal), st)) (fun m => m.int f.pre.endI64) :=
    computes_createFPToSI rfl h₃.ready
  have h₅ : Computes c 0 s₄ s₅ scope scope
      (fun m st => some (c.ops.fptosi (m.val f.stepVal), st)) (fun m => m.int f.pre.stepI64) :=
    computes_createFPToSI rfl h₄.ready
  have hcode :
      Within c code (f.stepped.builder, f.stepped.kernelParams) (s₅.builder, s₅.kernelParams) :=
    ⟨hem.first (final_prefix_ hs), hown⟩
  have hgrown₄ : Adds c _ _ := (target c).grown_trans h₄.grown h₅.grown
  have hgrown₃ : Adds c _ _ := (target c).grown_trans h₃.grown hgrown₄
  have hcode₃ := (target c).within_rest h₂.grown hgrown₃ hcode
  have hcode₄ := (target c).within_rest h₃.grown hgrown₄ hcode₃
  obtain ⟨m₂, hreach₂, hwent₂⟩ := h₂.simulates code
    ((target c).within_first h₂.grown hgrown₃ hcode) m st hat hst
  obtain ⟨m₃, hreach₃, hwent₃⟩ := h₃.simulates code
    ((target c).within_first h₃.grown hgrown₄ hcode₃) m₂ st hwent₂.at_ hwent₂.agrees
  obtain ⟨m₄, hreach₄, hwent₄⟩ := h₄.simulates code
    ((target c).within_first h₄.grown h₅.grown hcode₄) m₃ st hwent₃.at_ hwent₃.agrees
  obtain ⟨m₅, hreach₅, hwent₅⟩ := h₅.simulates code
    ((target c).within_rest h₄.grown h₅.grown hcode₄) m₄ st hwent₄.at_ hwent₄.agrees
  -- registers that have been handed out are not written again
  have hkept₂ : m.Kept f.stepped.builder.nextReg m₂ := hwent₂.kept
  have hkept₃ : m.Kept f.stepped.builder.nextReg m₃ :=
    (target c).kept_trans h₂.grown hkept₂ hwent₃.kept
  have hgrown₂₃ := (target c).grown_trans h₂.grown h₃.grown
  have hkept₄ : m.Kept f.stepped.builder.nextReg m₄ :=
    (target c).kept_trans hgrown₂₃ hkept₃ hwent₄.kept
  have hkept₅ : m.Kept f.stepped.builder.nextReg m₅ :=
    (target c).kept_trans ((target c).grown_trans hgrown₂₃ h₄.grown) hkept₄ hwent₅.kept
  have hread₃ : m₃.int f.pre.startI64 = c.ops.fptosi (m₂.val f.startVal) := hwent₃.read
  have hread₄ : m₄.int f.pre.endI64 = c.ops.fptosi (m₃.val f.endVal) := hwent₄.read
  have hread₅ : m₅.int f.pre.stepI64 = c.ops.fptosi (m₄.val f.stepVal) := hwent₅.read
  have hstart₄ : m₄.int f.pre.startI64 = m₃.int f.pre.startI64 := h₃.stable m₃ m₄ hwent₄.kept
  have hkeptEnd : (target c).Kept ((target c).builder s₃) m₃ m₅ :=
    (target c).kept_trans h₄.grown hwent₄.kept hwent₅.kept
  have hstart₅ : m₅.int f.pre.startI64 = m₃.int f.pre.startI64 := h₃.stable m₃ m₅ hkeptEnd
  have hend₅ : m₅.int f.pre.endI64 = m₄.int f.pre.endI64 := h₄.stable m₄ m₅ hwent₅.kept
  refine ⟨m₅, ((hreach₂.trans hreach₃).trans hreach₄).trans hreach₅, hwent₅.at_, hwent₅.agrees,
    hkept₅, ?_, ?_, ?_⟩
  · rw [hstart₅, hread₃, hkept₂.val hstart]
  · rw [hend₅, hread₄, hkept₃.val hend]
  · rw [hread₅, hkept₄.val hstep]

/-! ## The head and the latch -/

/-- The entries of the phi: from in front of the loop, and from behind the body. -/
def entries (f : ForCode c.ops varName start end_ step body s) : List (IntOperand × Nat) :=
  [(f.pre.startI64, f.pre.builder.insertBlock),
    (.reg f.behind.builder.nextReg, f.behind.builder.insertBlock)]

theorem find_first (f : ForCode c.ops varName start end_ step body s) :
    f.entries.find? (fun entry => entry.2 == f.pre.builder.insertBlock) =
      some (f.pre.startI64, f.pre.builder.insertBlock) := by
  simp [entries]

theorem find_again (hs : s.builder.Wf) :
    f.entries.find? (fun entry => entry.2 == f.behind.builder.insertBlock) =
      some (.reg f.behind.builder.nextReg, f.behind.builder.insertBlock) := by
  have hlt := pre_insert (c := f) hs
  have hinsert := behind_insert (c := f) hs
  have hne : f.pre.builder.insertBlock ≠ f.behind.builder.insertBlock := by omega
  simp [entries, hne]

/-- What the code has in the blocks of the loop. -/
theorem fetch_new (hs : s.builder.Wf) (hem : Emitted f.stepped.builder.code f.final.code code)
    {l i : Nat} {ins : Instr D} (hl : f.pre.head.loopBB ≤ l)
    (hi : (f.final.code l)[i]? = some ins) : (code l)[i]? = some ins := by
  apply hem l i ins _ hi
  rw [stepped_empty hs hl]
  exact Nat.zero_le i

/-- At the head the machine takes the value that belongs to where it came from, and gets to
the body. -/
theorem head_reaches (hs : s.builder.Wf) (hem : Emitted f.stepped.builder.code f.final.code code)
    (hblock : m.block = f.pre.head.loopBB) (hindex : m.index = 0) {entry : IntOperand × Nat}
    (hfind : f.entries.find? (fun entry => entry.2 == m.prev) = some entry) :
    ∃ m', Reaches (Machine.step c.ops c.device code) m m' ∧ f.inside.At m' ∧
      m'.mem = (fun k => if k = f.pre.cell then c.ops.sitofp (m.int entry.1) else m.mem k) ∧
      m'.world = m.world ∧ m'.calls = m.calls ∧ m'.ints f.pre.head.iv = m.int entry.1 ∧
      Machine.Kept f.pre.head.iv m m' := by
  obtain ⟨more, hhead⟩ := final_head (c := f) hs
  let m₁ := m.setInt f.pre.head.iv (m.int entry.1)
  let m₂ := m₁.setReg (f.pre.head.iv + 1) (c.ops.sitofp (m₁.ints f.pre.head.iv))
  let m₃ := m₂.setCell f.pre.cell (m₂.val (.reg (f.pre.head.iv + 1)))
  have hfetch : ∀ (m' : Machine D W) {k : Nat} {ins : Instr D}, m'.block = f.pre.head.loopBB →
      m'.index = k → (f.final.code f.pre.head.loopBB)[k]? = some ins →
      (code m'.block)[m'.index]? = some ins := by
    intro m' k ins hb hk hins
    rw [hb, hk]
    exact fetch_new hs hem (Nat.le_refl _) hins
  have hexec₁ : m.exec c.ops c.device (.phiInt f.pre.head.iv f.entries) = some m₁ := by
    show Option.map _ _ = _
    rw [hfind]
    rfl
  have hstep₁ : m.step c.ops c.device code = some m₁ :=
    (Machine.step_of_fetch (hfetch m hblock hindex (by rw [hhead]; rfl))).trans hexec₁
  have hstep₂ : m₁.step c.ops c.device code = some m₂ :=
    Machine.step_of_fetch (i := .sitofp (f.pre.head.iv + 1) f.pre.head.iv)
      (hfetch m₁ (k := 1) hblock (congrArg (· + 1) hindex) (by rw [hhead]; rfl))
  have hstep₃ : m₂.step c.ops c.device code = some m₃ :=
    Machine.step_of_fetch (i := .store (.reg (f.pre.head.iv + 1)) f.pre.cell)
      (hfetch m₂ (k := 2) hblock (congrArg (· + 2) hindex) (by rw [hhead]; rfl))
  have hlen : (f.inside.code f.inside.insertBlock).length = 3 :=
    congrArg List.length (inside_code hs)
  have hiv : m₁.ints f.pre.head.iv = m.int entry.1 := if_pos rfl
  have hval : m₂.val (.reg (f.pre.head.iv + 1)) = c.ops.sitofp (m.int entry.1) :=
    (if_pos rfl).trans (congrArg c.ops.sitofp hiv)
  refine ⟨m₃, ((Reaches.one hstep₁).trans (Reaches.one hstep₂)).trans (Reaches.one hstep₃),
    ⟨hblock, ?_⟩, ?_, rfl, rfl, hiv, ?_⟩
  · rw [hlen]
    exact congrArg (· + 3) hindex
  · rw [← hval]
    rfl
  · have hkept₁ : Machine.Kept f.pre.head.iv m m₁ := .setInt (Nat.le_refl _) _
    have hkept₂ : Machine.Kept f.pre.head.iv m₁ m₂ := .setReg (Nat.le_succ _) _
    exact (hkept₁.trans hkept₂).trans (.of_eq rfl rfl rfl)

/-- Behind the body the next value is computed and compared with the bound. -/
theorem latch_reaches (hs : s.builder.Wf) (hem : Emitted f.stepped.builder.code f.final.code code)
    (hat : f.behind.builder.At m) {next : Int}
    (hnext : next = wrap64 (m.ints f.pre.head.iv + m.int f.pre.stepI64)) :
    ∃ m', Reaches (Machine.step c.ops c.device code) m m' ∧
      m'.step c.ops c.device code = some (m'.jump
        (if next < m.int f.pre.endI64 then f.pre.head.loopBB else f.pre.head.afterBB)) ∧
      m'.block = f.behind.builder.insertBlock ∧ m'.ints f.behind.builder.nextReg = next ∧
      m'.mem = m.mem ∧ m'.world = m.world ∧ m'.calls = m.calls ∧
      Machine.Kept f.behind.builder.nextReg m m' := by
  have hinsert := behind_insert (c := f) hs
  have hle : f.pre.head.iv + 2 ≤ f.behind.builder.nextReg := (grown_behind hs).regs
  obtain ⟨hendBelow, -⟩ := pre_below (c := f) hs
  have hfetch : ∀ (m' : Machine D W) {k : Nat} {ins : Instr D}, m'.block = m.block →
      m'.index = m.index + k →
      (f.pre.head.test f.behind.builder.nextReg : List (Instr D))[k]? = some ins →
      (code m'.block)[m'.index]? = some ins := by
    intro m' k ins hblock hindex hk
    rw [hblock, hindex, hat.block, hat.index]
    refine fetch_new hs hem ?_ (final_test hs hk)
    omega
  let m₁ := m.setInt f.behind.builder.nextReg (wrap64 (m.ints f.pre.head.iv + m.int f.pre.stepI64))
  let m₂ := m₁.setFlag (f.behind.builder.nextReg + 1)
    (decide (m₁.ints f.behind.builder.nextReg < m₁.int f.pre.endI64))
  have hstep₁ : m.step c.ops c.device code = some m₁ :=
    Machine.step_of_fetch (hfetch m (k := 0) rfl rfl rfl)
  have hstep₂ : m₁.step c.ops c.device code = some m₂ :=
    Machine.step_of_fetch (hfetch m₁ (k := 1) rfl rfl rfl)
  have hstep₃ : m₂.step c.ops c.device code = some (m₂.jump (if m₂.flag (.reg
      (f.behind.builder.nextReg + 1)) then f.pre.head.loopBB else f.pre.head.afterBB)) :=
    Machine.step_of_fetch (hfetch m₂ (k := 2) rfl rfl rfl)
  have hkept₁ : Machine.Kept f.behind.builder.nextReg m m₁ := .setInt (Nat.le_refl _) _
  have hiv : m₁.ints f.behind.builder.nextReg = next := (if_pos rfl).trans hnext.symm
  have hend : m₁.int f.pre.endI64 = m.int f.pre.endI64 :=
    hkept₁.int fun r hr => Nat.lt_of_lt_of_le (hendBelow r hr) (by omega)
  have hflag : m₂.flag (.reg (f.behind.builder.nextReg + 1)) =
      decide (next < m.int f.pre.endI64) := by
    rw [← hiv, ← hend]
    exact if_pos rfl
  refine ⟨m₂, (Reaches.one hstep₁).trans (Reaches.one hstep₂), ?_, hat.block, hiv, rfl, rfl,
    rfl, ?_⟩
  · rw [hstep₃, hflag]
    simp only [decide_eq_true_eq]
  · exact hkept₁.trans (.setFlag (Nat.le_succ _) _)

/-! ## The iterations -/

/-- Between two iterations: the machine is at the head, where the phi is about to take the
value of the counter, or behind the loop. -/
structure Round (f : ForCode c.ops varName start end_ step body s) (scope : List (Name × Owned))
    (m₀ : Machine D W) (x : Bool × Int × State D W) (m : Machine D W) : Prop where
  block : m.block = if x.1 then f.pre.head.loopBB else f.pre.head.afterBB
  index : m.index = 0
  counter : x.1 = true → ∃ entry, f.entries.find? (fun entry => entry.2 == m.prev) = some entry ∧
    m.int entry.1 = x.2.1
  agrees : (target c).Agrees scope x.2.2 m
  kept : m₀.Kept f.pre.head.iv m

/-- One iteration, from the head to the jump behind the test. -/
theorem simulates_iteration (hs : s.builder.Wf) (ht : Ready c f.stepped scope)
    (hbody : Computes c N f.atBody f.behind ((varName, f.pre.cell) :: scope)
      ((varName, f.pre.cell) :: scope) (fun _ => eval c.dialect N body) (fun m => m.val f.bodyVal))
    (hem : Emitted f.stepped.builder.code f.final.code code) (hown : OwnCode c.number code)
    {ub step : Int} {m₀ : Machine D W} (hub : m₀.int f.pre.endI64 = ub)
    (hstep : m₀.int f.pre.stepI64 = step) {i : Int} (h : f.Round scope m₀ (true, i, st) m) :
    Simulates (Machine.step c.ops c.device code) N (Machine.Blocked c.device code) m
      (iteration c.dialect varName ub step (eval c.dialect N body) (i, st))
      (fun y m' => ∃ m'', m'.step c.ops c.device code = some m'' ∧ f.Round scope m₀ y m'') := by
  obtain ⟨hblock, hindex, hcounter, hst, hkept₀⟩ := h
  obtain ⟨entry, hfind, rfl⟩ := hcounter rfl
  obtain ⟨m₁, hreach, hat, hmem, hworld, hcalls, hiv, hkept₁⟩ :=
    head_reaches hs hem hblock hindex hfind
  obtain ⟨hendBelow, hstepBelow⟩ := pre_below (c := f) hs
  have hfresh : ∀ b ∈ scope, b.2 ≠ f.pre.cell := by
    intro b hb heq
    obtain ⟨-, hlt⟩ := ht.has b hb
    rw [heq] at hlt
    exact Nat.lt_irrefl _ hlt
  have hst₁ : (target c).Agrees ((varName, f.pre.cell) :: scope)
      (st.push varName (c.ops.sitofp (m.int entry.1))) m₁ := hst.push hfresh hmem hworld hcalls
  have hcode : Within c code (f.atBody.builder, f.atBody.kernelParams)
      (f.behind.builder, f.behind.kernelParams) := ⟨emitted_body hs hem, hown⟩
  refine Simulates.after hreach ((hbody.simulates code hcode m₁ _ hat hst₁).map_followed ?_)
  intro r m₂ hwent
  have hat₂ : f.behind.builder.At m₂ := hwent.at_
  have hkept₂ : Machine.Kept (f.pre.head.iv + 2) m₁ m₂ := hwent.kept
  have hkept : m₀.Kept f.pre.head.iv m₂ :=
    (hkept₀.trans hkept₁).trans (hkept₂.mono (Nat.le_add_right _ 2))
  have hend : m₂.int f.pre.endI64 = ub := (hkept.int hendBelow).trans hub
  have hnext : wrap64 (m.int entry.1 + step) =
      wrap64 (m₂.ints f.pre.head.iv + m₂.int f.pre.stepI64) := by
    rw [hkept.int hstepBelow, hstep, hkept₂.ints _ (Nat.lt_add_of_pos_right Nat.two_pos), hiv]
  obtain ⟨m₃, hreach₃, hjump, hblock₃, hint₃, hmem₃, hworld₃, hcalls₃, hkept₃⟩ :=
    latch_reaches hs hem hat₂ hnext
  have hinner : (target c).Agrees ([(varName, f.pre.cell)] ++ scope) r.2 m₂ := hwent.agrees
  have hpop : (target c).Agrees scope (r.2.pop 1) m₂ := hinner.pop
  have hle : f.pre.head.iv + 2 ≤ f.behind.builder.nextReg := (grown_behind hs).regs
  refine ⟨m₃, hreach₃, _, hjump, ?_⟩
  rw [hend]
  refine ⟨?_, rfl, fun _ =>
    ⟨(.reg f.behind.builder.nextReg, f.behind.builder.insertBlock), ?_, hint₃⟩,
    hpop.same (fun b _ => congrFun hmem₃ b.2) hworld₃ hcalls₃, ?_⟩
  · show (if wrap64 (m.int entry.1 + step) < ub then _ else _) =
      if decide (wrap64 (m.int entry.1 + step) < ub) then _ else _
    simp only [decide_eq_true_eq]
  · show f.entries.find? (fun entry => entry.2 == m₃.block) = _
    rw [hblock₃]
    exact find_again hs
  · have hlater : m₀.Kept f.pre.head.iv m₃ := hkept.trans (hkept₃.mono (by omega))
    exact ⟨hlater.regs, hlater.ints, hlater.flags⟩

/-! ## Loops -/

theorem createFPToSI_cells (ops : IntOps D) (src : Operand D) (b : Builder D) :
    (b.createFPToSI ops src).2.function = b.function ∧
      (b.createFPToSI ops src).2.nextCell = b.nextCell := by
  cases src <;> exact ⟨rfl, rfl⟩

theorem pre_cells (f : ForCode c.ops varName start end_ step body s) :
    f.pre.builder.function = f.stepped.builder.function ∧
      f.pre.builder.nextCell = f.stepped.builder.nextCell + 1 := by
  let b₁ := f.stepped.builder.createAlloca.2.emit (.store f.startVal f.pre.cell)
  let b₂ := (b₁.createFPToSI c.ops f.startVal).2
  let b₃ := (b₂.createFPToSI c.ops f.endVal).2
  obtain ⟨hfunction₁, hcell₁⟩ := createFPToSI_cells c.ops f.startVal b₁
  obtain ⟨hfunction₂, hcell₂⟩ := createFPToSI_cells c.ops f.endVal b₂
  obtain ⟨hfunction₃, hcell₃⟩ := createFPToSI_cells c.ops f.stepVal b₃
  exact ⟨hfunction₃.trans (hfunction₂.trans hfunction₁), hcell₃.trans (hcell₂.trans hcell₁)⟩

/-- The body sees the variable of the loop in its slot. -/
theorem atBody_ready (hs : s.builder.Wf) (ht : Ready c f.stepped scope) :
    Ready c f.atBody ((varName, f.pre.cell) :: scope) := by
  obtain ⟨hfunction, hcell⟩ := pre_cells f
  have hown : f.stepped.builder.function = c.number := ht.wf.2.1
  have hinside : Ready c { f.stepped with builder := f.inside } scope := by
    refine ht.built (grown_inside hs) hfunction ?_
    show f.stepped.builder.nextCell ≤ f.pre.builder.nextCell
    omega
  have hfresh : ∀ b ∈ scope, b.2 ≠ f.pre.cell := by
    intro b hb heq
    obtain ⟨-, hlt⟩ := ht.has b hb
    rw [heq] at hlt
    exact Nat.lt_irrefl _ hlt
  refine hinside.push (k := f.pre.cell) rfl (fun y => ?_) ⟨hown, ?_⟩ hfresh
  · show Option.filter _ (if y = varName then some f.pre.cell else f.stepped.namedValues y) = _
    split
    · exact Option.filter_some_pos (decide_eq_true hown)
    · rfl
  · show f.stepped.builder.nextCell < f.pre.builder.nextCell
    omega

theorem behindLoop_adds (hs : s.builder.Wf)
    (hbody : Adds c (f.atBody.builder, f.atBody.kernelParams)
    (f.behind.builder, f.behind.kernelParams)) :
    Adds c (f.stepped.builder, f.stepped.kernelParams)
      (f.behindLoop.builder, f.behindLoop.kernelParams) := by
  obtain ⟨-, hcell⟩ := pre_cells f
  have hgrown := (grown_inside (c := f) hs).trans hbody.grown
  have hlabels : f.stepped.builder.nextLabel ≤ f.pre.head.loopBB := (grown_pre hs).labels
  have hlabels' : f.pre.head.loopBB + 2 ≤ f.behind.builder.nextLabel := hbody.grown.labels
  have hafter : f.pre.head.afterBB = f.pre.head.loopBB + 1 := rfl
  refine ⟨LoopHead.leave_grown (stepped_spec hs).1 hgrown hlabels ?_ ?_ (grown_pre hs).regs,
    hbody.function, ?_, hbody.params⟩
  · show f.stepped.builder.nextLabel ≤ f.pre.head.afterBB
    omega
  · omega
  · have hcells : f.pre.builder.nextCell ≤ f.behind.builder.nextCell := hbody.cells
    show f.stepped.builder.nextCell ≤ f.behind.builder.nextCell
    omega

/-- What is generated behind the bounds and the step is the loop. -/
theorem computes_loop (hs : s.builder.Wf) (ht : Ready c f.stepped scope)
    (hcompiles : Preserved c N body) (hrep : noRepeat body = true) :
    Computes c N f.stepped f.behindLoop scope scope
      (fun m st => (loop c.dialect N varName (c.ops.fptosi (m.val f.startVal))
        (c.ops.fptosi (m.val f.endVal)) (c.ops.fptosi (m.val f.stepVal))
        (eval c.dialect N body) st).map fun st => (c.ops.zero, st))
      (fun m => m.val (.const c.ops.zero)) := by
  have hbody := hcompiles f.atBody f.bodyVal f.behind _ f.genBody hrep (atBody_ready hs ht)
  have hadds := behindLoop_adds hs hbody.grown
  constructor
  · exact hadds
  · refine ⟨⟨hadds.grown.wf, hadds.function, hadds.params⟩, fun x k hx => ?_, ht.distinct,
      fun b hb => (target c).grown_has hadds (ht.has b hb)⟩
    have hx : Option.filter _ (if x = varName then none else f.behind.namedValues x) = some k := hx
    by_cases hxv : x = varName
    · rw [if_pos hxv] at hx
      cases hx
    · rw [if_neg hxv] at hx
      have hlookup := hbody.ready.names x k hx
      have hbeq : (x == varName) = false := beq_eq_false_iff_ne.mpr hxv
      rwa [List.lookup_cons, hbeq] at hlookup
  · exact fun _ _ _ => rfl
  intro code hcode m st hat hst
  have hem : Emitted f.stepped.builder.code f.final.code code := hcode.emitted
  obtain ⟨m₀, hreach, hat₀, hst₀, hkept₀, hlb, hub, hstep⟩ :=
    preheader_reaches hs ht hem hcode.own hat hst
  -- the branch into the loop
  have hbr : (code m₀.block)[m₀.index]? = some (.br f.pre.head.loopBB) := by
    have hinsert := pre_insertBlock f
    have hgrown := (grown_pre (c := f) hs).prefix_ f.pre.builder.insertBlock
    rw [hat₀.block, hat₀.index]
    refine hem _ _ _ hgrown.length_le ?_
    rw [final_here hs]
    simp
  have hjump : m₀.step c.ops c.device code = some (m₀.jump f.pre.head.loopBB) :=
    Machine.step_of_fetch hbr
  have hround : f.Round scope m₀ (true, c.ops.fptosi (m.val f.startVal), st)
      (m₀.jump f.pre.head.loopBB) := by
    refine ⟨rfl, rfl, fun _ => ⟨(f.pre.startI64, f.pre.builder.insertBlock), ?_, hlb⟩,
      hst₀.same (fun _ _ => rfl) rfl rfl, .of_eq rfl rfl rfl⟩
    show f.entries.find? (fun entry => entry.2 == m₀.block) = _
    rw [hat₀.block]
    exact find_first f
  have hiterations : Simulates (Machine.step c.ops c.device code) N (Machine.Blocked c.device code)
      (m₀.jump f.pre.head.loopBB)
      (whileLoop (fun x => x.1)
        (fun x => iteration c.dialect varName (c.ops.fptosi (m.val f.endVal))
        (c.ops.fptosi (m.val f.stepVal)) (eval c.dialect N body) x.2) N
        (true, c.ops.fptosi (m.val f.startVal), st))
      (fun x m' => f.Round scope m₀ x m' ∧ x.1 = false) := by
    refine Simulates.whileLoop ?_ N (Nat.le_refl N) _ _ hround
    intro x m' hgo hx
    obtain ⟨go, i, st'⟩ := x
    obtain rfl : go = true := hgo
    exact simulates_iteration hs ht hbody hem hcode.own hub hstep hx
  refine Simulates.after (hreach.trans (Reaches.one hjump)) ?_
  show Simulates _ _ _ _ (Option.map _ (Option.map _ _)) _
  rw [Option.map_map]
  refine hiterations.map fun x m' hx => ?_
  obtain ⟨hx, hdone⟩ := hx
  obtain ⟨go, i, st'⟩ := x
  obtain rfl : go = false := hdone
  have hregs : f.stepped.builder.nextReg ≤ f.pre.head.iv := (grown_pre hs).regs
  refine ⟨⟨hx.block, ?_⟩, hx.agrees, rfl, hkept₀.trans (hx.kept.mono hregs)⟩
  show m'.index = (f.final.code f.pre.head.afterBB).length
  rw [hx.index, after_empty hs]
  rfl

end ForCode

/-! ## Expressions -/

section
variable {c : Setting D W} {N : Nat} {s s' s₁ : CairoState D} {scope : List (Name × Owned)}
  {v : Operand D}

/-- `genLoop` on what the bounds and the step have been generated to. -/
theorem ForCode.of_genLoop {varName : Name} {start end_ step body : ExprAST D}
    {s₂ s₃ : CairoState D}
    {startVal endVal stepVal : Operand D} (h₁ : gen c.ops start s = .ok startVal s₁)
    (h₂ : gen c.ops end_ s₁ = .ok endVal s₂)
    (h₃ : (if step.isNull then pure (.const c.ops.zero) else gen c.ops step : CairoGen D _) s₂ =
      .ok stepVal s₃)
    (h : genLoop c.ops varName startVal endVal stepVal (gen c.ops body) s₃ = .ok v s') :
    v = .const c.ops.zero ∧ ∃ f : ForCode c.ops varName start end_ step body s,
      f.startVal = startVal ∧ f.endVal = endVal ∧ f.stepVal = stepVal ∧ f.stepped = s₃ ∧
        s' = f.behindLoop := by
  obtain ⟨head, s₄, hhead, h⟩ := Gen.bind_ok h
  rw [genLoopHead_run] at hhead
  cases hhead
  obtain ⟨bodyVal, s₅, hbody, h⟩ := Gen.bind_ok h
  rw [Gen.bind_of_ok (genLoopLatch_run _ s₅)] at h
  cases h
  exact ⟨rfl, ⟨startVal, endVal, stepVal, bodyVal, s₁, s₂, s₃, s₅, h₁, h₂, h₃, hbody⟩,
    rfl, rfl, rfl, rfl, rfl⟩

theorem preserved_for {varName : Name} {start end_ step body : ExprAST D}
    (ihStart : Preserved c N start) (ihEnd : Preserved c N end_) (ihStep : Preserved c N step)
    (ihBody : Preserved c N body) : Preserved c N (.forExpr varName start end_ step body) := by
  intro s v s' scope h hrep hs
  simp only [noRepeat, Bool.and_eq_true] at hrep
  obtain ⟨⟨⟨hrepStart, hrepEnd⟩, hrepStep⟩, hrepBody⟩ := hrep
  rw [gen] at h
  obtain ⟨startVal, s₁, hstart, h⟩ := Gen.bind_ok h
  obtain ⟨endVal, s₂, hend, h⟩ := Gen.bind_ok h
  cases startVal with
  | none => cases h
  | some startVal =>
    cases endVal with
    | none => cases h
    | some endVal =>
      obtain ⟨stepVal, s₃, hstep, h⟩ := Gen.bind_ok h
      have hstart := Gen.attempt_some hstart
      have hend := Gen.attempt_some hend
      have h₁ := ihStart s startVal s₁ scope hstart hrepStart hs
      have h₂ := ihEnd s₁ endVal s₂ scope hend hrepEnd h₁.ready
      have h₃ := computes_init ihStep hrepStep hstep h₂.ready
      obtain ⟨rfl, f, rfl, rfl, rfl, rfl, rfl⟩ := ForCode.of_genLoop hstart hend hstep h
      have h₄ := f.computes_loop (Ready.builder_wf hs) h₃.ready ihBody hrepBody
      obtain ⟨-, hinStart⟩ := gen_extends c.ops start s _ s₁ (Ready.builder_wf hs) hstart
      obtain ⟨-, hinEnd⟩ := gen_extends c.ops end_ s₁ _ s₂ (Ready.builder_wf h₁.ready) hend
      have hinStart₂ : InRegs f.startVal s₂.builder :=
        Operand.Below.mono hinStart h₂.grown.grown.regs
      -- the bounds have survived the code behind them
      have hlast := h₃.bind h₄ (k := fun m z st => (loop c.dialect N varName
        (c.ops.fptosi (m.val f.startVal)) (c.ops.fptosi (m.val f.endVal)) (c.ops.fptosi z)
        (eval c.dialect N body) st).map fun st => (c.ops.zero, st))
        fun m m₁ hkept st => by
          rw [Machine.Kept.val hkept hinStart₂, Machine.Kept.val hkept hinEnd]
      have hrest := h₂.bind hlast (k := fun m y st =>
        (if step.isNull then some (c.ops.zero, st) else eval c.dialect N step st).bind
          fun z => (loop c.dialect N varName (c.ops.fptosi (m.val f.startVal)) (c.ops.fptosi y)
            (c.ops.fptosi z.1) (eval c.dialect N body) z.2).map fun st => (c.ops.zero, st))
        fun m m₁ hkept st => by rw [Machine.Kept.val hkept hinStart]
      refine (h₁.bind hrest (k := fun _ x st => (eval c.dialect N end_ st).bind fun y =>
        (if step.isNull then some (c.ops.zero, y.2) else eval c.dialect N step y.2).bind
          fun z => (loop c.dialect N varName (c.ops.fptosi x) (c.ops.fptosi y.1)
            (c.ops.fptosi z.1) (eval c.dialect N body) z.2).map fun st => (c.ops.zero, st))
        fun _ _ _ _ => rfl).congr fun m st => ?_
      rw [eval]
      rfl

/-- Cairo's code for an expression does what the expression means, whatever loops, branches
and built-ins are in it. -/
theorem preserved (c : Setting D W) (N : Nat) (e : ExprAST D) : Preserved c N e := by
  induction e using ExprAST.induction with
  | null =>
    intro s v s' scope h
    rw [gen] at h
    cases h
  | numberExpr val =>
    intro s v s' scope h _ hs
    rw [gen] at h
    cases h
    refine (computes_const hs val).congr fun m st => ?_
    rw [eval]
  | variableExpr name => exact preserved_variable name
  | unaryExpr op operand ih => exact preserved_unary ih
  | binaryExpr op lhs rhs ihl ihr => exact preserved_binary ihl ihr
  | callExpr callee args ih => exact preserved_call ih
  | ifExpr cond then_ else_ ihc iht ihe => exact preserved_if ihc iht ihe
  | forExpr varName start end_ step body ihStart ihEnd ihStep ihBody =>
    exact preserved_for ihStart ihEnd ihStep ihBody
  | varExpr varNames body ihs ih => exact preserved_var ihs ih

end

end AroundTheWorld.Cairo
