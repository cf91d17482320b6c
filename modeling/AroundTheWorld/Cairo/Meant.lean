import AroundTheWorld.Cairo.Follows

/-!
# What Cairo generates for expressions

One lemma for each construct, and from them, by induction over expressions without loops
and built-ins, that what is generated for them does what they mean. A branch is a path
through blocks that nothing else is emitted into, and ends in the entry of a phi.
-/

namespace AroundTheWorld.Cairo

open AroundTheWorld.Base AroundTheWorld.Lex AroundTheWorld.Llvm AroundTheWorld.Agreement
open AroundTheWorld.Athens (ExprAST Name)

variable {D W : Type}

section
variable {ops : IntOps D} {device : Device D W} {s s₁ s₂ : CairoState D} {sc sc₁ sc₂ : NameScope}
  {cells cells₁ cells₂ : List Owned}

/-- What is generated for the expression does what it means. -/
abbrev Meant (ops : IntOps D) (device : Device D W) (e : ExprAST D) : Prop :=
  (cairo ops device).Meant ops.toFloatOps device.call (holds ops) (gen ops) (fun v m => m.val v) e

theorem meant_variable (name : Name) : Meant ops device (.variableExpr name) := by
  intro s v s' sc cells h hs
  rw [gen] at h
  obtain ⟨it, s₁, hit, h⟩ := Gen.bind_ok h
  cases hit
  cases hfound : s.namedValues name with
  | none =>
    rw [hfound] at h
    cases h
  | some cell =>
    rw [hfound] at h
    obtain ⟨c, hname, -, hc⟩ := hs.scope.find hfound
    refine ⟨?_, cells, ?_⟩
    · rw [Resolves, hname]
      rfl
    · refine (performs_createLoad ops device h hs hc hname).congr fun m st => ?_
      rw [eval]

theorem meant_unary {op : Byte} {operand : ExprAST D} (ih : Meant ops device operand) :
    Meant ops device (.unaryExpr op operand) := by
  intro s v s' sc cells h hs
  rw [gen, genUnary] at h
  split at h
  case isFalse => cases h
  case isTrue hop =>
    obtain ⟨x, s₁, hx, h⟩ := Gen.bind_ok h
    obtain ⟨hresolves, cells₁, h₁⟩ := ih s x s₁ sc cells hx hs
    have h₂ := performs_createFBin ops device h h₁.placed
    refine ⟨by rwa [Resolves], cells₁, ?_⟩
    rw [scopeAfter]
    refine (h₁.bind h₂ (k := fun _ x st => .done (ops.sub ops.zero x) st) ?_).congr ?_
    · exact fun _ _ _ _ => rfl
    · intro m st
      rw [eval]
      unfold evalUnary
      simp only [if_pos hop]

theorem meant_assignment {lhs rhs : ExprAST D} (ihr : Meant ops device rhs) :
    Meant ops device (.binaryExpr (byte '=') lhs rhs) := by
  intro s v s' sc cells h hs
  rw [gen, if_pos rfl] at h
  rw [Resolves, if_pos rfl]
  cases lhs with
  | variableExpr name =>
    obtain ⟨x, s₁, hx, h⟩ := Gen.bind_ok h
    obtain ⟨it, s₂, hit, h⟩ := Gen.bind_ok h
    cases hit
    cases hfound : s₁.namedValues name with
    | none =>
      rw [hfound] at h
      cases h
    | some cell =>
      rw [hfound] at h
      obtain ⟨_, s₃, hstore, h⟩ := Gen.bind_ok h
      cases h
      obtain ⟨hresolves, cells₁, h₁⟩ := ihr s v s₁ sc cells hx hs
      obtain ⟨c, hname, -, hc⟩ := h₁.placed.scope.find hfound
      have h₂ := performs_store ops device hstore h₁.placed hc
      refine ⟨⟨hresolves, ?_⟩, cells₁, ?_⟩
      · rw [Assignable, hname]
        rfl
      · exact BackEnd.Evaluates.assigned h₁ hname h₂
  | _ => cases h

theorem meant_binary {op : Byte} {lhs rhs : ExprAST D} (ihl : Meant ops device lhs)
    (ihr : Meant ops device rhs) : Meant ops device (.binaryExpr op lhs rhs) := by
  by_cases hop : op = byte '='
  · subst hop
    exact meant_assignment ihr
  intro s v s' sc cells h hs
  rw [gen, if_neg hop] at h
  obtain ⟨l, s₁, hl, h⟩ := Gen.bind_ok h
  obtain ⟨r, s₂, hr, h⟩ := Gen.bind_ok h
  cases l with
  | none => cases h
  | some x =>
    cases r with
    | none => cases h
    | some y =>
      have hx := Gen.attempt_some hl
      have hy := Gen.attempt_some hr
      obtain ⟨hresolves, cells₁, h₁⟩ := ihl s x s₁ sc cells hx hs
      obtain ⟨hresolves₂, cells₂, h₂⟩ := ihr s₁ y s₂ _ cells₁ hy h₁.placed
      obtain ⟨-, hin⟩ := gen_extends ops lhs s x s₁ hs.wf hx
      obtain ⟨harith, h₃⟩ := performs_binaryOp ops device h h₂.placed
      rw [Resolves, if_neg hop]
      refine ⟨⟨hresolves, hresolves₂, harith⟩, cells₂, ?_⟩
      exact BackEnd.Evaluates.operated hop h₁ (fun m m₁ hkept => hkept.val hin) h₂ h₃

/-! ## Lists of expressions -/

theorem meant_args {args : List (ExprAST D)} (ih : ∀ a ∈ args, Meant ops device a)
    {vals : List (Operand D)} (h : genAll (genArgs ops args) s = .ok vals s₁)
    (hs : s.Placed sc cells) :
    ResolvesArgs args sc ∧ ∃ cells',
      (cairo ops device).Performs s s₁ (scopeArgs args sc) cells cells'
      (fun _ st => evalArgs ops.toFloatOps device.call (holds ops) args sc st)
      (fun m => vals.map m.val) := by
  induction args generalizing s sc cells vals with
  | nil =>
    cases h
    refine ⟨trivial, cells, (performs_done ops device hs []).congr fun m st => ?_⟩
    rw [evalArgs]
  | cons arg args ihs =>
    obtain ⟨x, s₂, hx, h⟩ := Gen.bind_ok h
    obtain ⟨xs, s₃, hxs, h⟩ := Gen.bind_ok h
    cases h
    obtain ⟨hresolves, cells₂, h₂⟩ := ih arg (List.mem_cons_self ..) s x s₂ sc cells hx hs
    obtain ⟨hresolves₃, cells₃, h₃⟩ :=
      ihs (fun a ha => ih a (List.mem_cons_of_mem _ ha)) hxs h₂.placed
    obtain ⟨-, hin⟩ := gen_extends ops arg s x s₂ hs.wf hx
    refine ⟨⟨hresolves, hresolves₃⟩, cells₃, ?_⟩
    exact BackEnd.Evaluates.argument h₂ (fun m m₁ hkept => hkept.val hin) h₃

/-- A call of a function of the module. -/
theorem meant_call {callee : Name} {args : List (ExprAST D)}
    (hcallee : isBuiltinCall callee = false)
    (ih : ∀ a ∈ args, Meant ops device a) : Meant ops device (.callExpr callee args) := by
  intro s v s' sc cells h hs
  rw [gen, genCall, hcallee, if_neg Bool.false_ne_true] at h
  obtain ⟨signature, s₁, hsignature, h⟩ := Gen.bind_ok h
  cases hsignature
  cases hfound : s.theModule callee with
  | none =>
    rw [hfound] at h
    cases h
  | some signature =>
    rw [hfound] at h
    obtain ⟨xs, s₂, hxs, h⟩ := Gen.bind_ok h
    unfold createCall at h
    split at h
    case isFalse => cases h
    obtain ⟨r, s₃, hcall, h⟩ := Gen.bind_ok h
    cases h
    obtain ⟨hresolves, cells₁, h₁⟩ := meant_args ih hxs hs
    have h₂ := performs_createCall ops device hcall h₁.placed
    exact ⟨by rwa [Resolves], cells₁, BackEnd.Evaluates.called h₁ h₂⟩

/-- The initialiser of a binding. -/
theorem meant_init {init : ExprAST D} (ih : Meant ops device init) {v : Operand D}
    (h : (if init.isNull then pure (.const ops.zero) else gen ops init) s = .ok v s₁)
    (hs : s.Placed sc cells) : (init.isNull = true ∨ Resolves init sc) ∧ ∃ cells',
      (cairo ops device).Performs s s₁ (scopeAfter init sc) cells cells'
        (fun _ st => if init.isNull then .done ops.zero st
          else eval ops.toFloatOps device.call (holds ops) init sc st) (fun m => m.val v) := by
  split at h
  case isTrue hnull =>
    obtain rfl := ExprAST.eq_null_of_isNull hnull
    cases h
    exact ⟨.inl rfl, cells, performs_const ops device hs ops.zero⟩
  case isFalse hnull =>
    obtain ⟨hresolves, cells', h'⟩ := ih s v s₁ sc cells h hs
    refine ⟨.inr hresolves, cells', h'.congr fun m st => ?_⟩
    rw [if_neg hnull]

theorem bindName_placed {name : Name} {k : Owned} (hs : s.Placed sc.allocate (cells ++ [k]))
    (h : bindName name (some k) s = .ok () s₁) :
    s₁.builder = s.builder ∧ s₁.Placed (sc.bind name) (cells ++ [k]) := by
  cases h
  exact ⟨rfl, hs.wf, hs.scope.bind name, hs.old⟩

/-- A value in a new cell, and a name for the cell. -/
theorem performs_bound {name : Name} {x : Operand D} {k : Owned} {s₃ : CairoState D}
    (hx : InRegs x s.builder) (hk : build (·.createAlloca) s = .ok k s₁)
    (hstore : emit (.store x k) s₁ = .ok () s₂) (hname : bindName name (some k) s₂ = .ok () s₃)
    (hs : s.Placed sc cells) : s₂.Placed sc.allocate (cells ++ [k]) ∧
      (cairo ops device).Performs s s₃ (sc.bind name) cells (cells ++ [k])
        (fun m st => .done (m.val x) (st.write sc.next (m.val x))) (fun m => m.val x) := by
  have h₁ := performs_alloca ops device hk hs
  have h₂ := performs_store ops device hstore h₁.placed h₁.placed.scope.last
  obtain ⟨hb, hplaced⟩ := bindName_placed h₂.placed hname
  have hall := h₁.bind h₂ (k := fun m _ st => .done (m.val x) (st.write sc.next (m.val x)))
    fun m m₁ hkept st => by rw [hkept.val hx]
  exact ⟨h₂.placed, hall.renamed hplaced hb⟩

theorem meant_bindings {varNames : List (Name × ExprAST D)}
    (ih : ∀ b ∈ varNames, Meant ops device b.2) {olds : List (Name × Option Owned)}
    (h : genBindings ops varNames s = .ok olds s₁) (hs : s.Placed sc cells) :
    ResolvesBindings varNames sc ∧ ∃ cells', Saved (scopeBindings varNames sc).1 cells' olds ∧
      (cairo ops device).Performs s s₁ (scopeBindings varNames sc).2 cells cells'
        (fun _ st => evalBindings ops.toFloatOps device.call (holds ops) varNames sc st)
        (fun _ => ()) := by
  induction varNames generalizing s sc cells olds with
  | nil =>
    rw [genBindings] at h
    cases h
    refine ⟨trivial, cells, ⟨fun _ hp => (List.not_mem_nil hp).elim, rfl⟩, ?_⟩
    refine (performs_done ops device hs ()).congr fun m st => ?_
    rw [evalBindings]
  | cons b rest ihs =>
    obtain ⟨name, init⟩ := b
    rw [genBindings] at h
    obtain ⟨x, s₂, hx, h⟩ := Gen.bind_ok h
    obtain ⟨k, s₃, hk, h⟩ := Gen.bind_ok h
    obtain ⟨_, s₄, hstore, h⟩ := Gen.bind_ok h
    obtain ⟨it, s₅, hit, h⟩ := Gen.bind_ok h
    cases hit
    obtain ⟨_, s₅, hname, h⟩ := Gen.bind_ok h
    obtain ⟨olds', s₆, hrest, h⟩ := Gen.bind_ok h
    cases h
    have hin : InRegs x s₂.builder := by
      split at hx
      · cases hx
        trivial
      · exact (gen_extends ops init s x s₂ hs.wf hx).2
    obtain ⟨hresolves, cells₁, h₁⟩ := meant_init (ih _ (List.mem_cons_self ..)) hx hs
    obtain ⟨hold, h₂⟩ := performs_bound hin hk hstore hname h₁.placed
    obtain ⟨hresolves₂, cells₂, hsaved, h₃⟩ :=
      ihs (fun b hb => ih b (List.mem_cons_of_mem _ hb)) hrest h₂.placed
    refine ⟨⟨hresolves, hresolves₂⟩, cells₂, ?_, BackEnd.Evaluates.bound h₁ h₂ h₃⟩
    rw [scopeBindings]
    exact hsaved.cons name hold.scope h₃.cells

theorem restoreNames_run {olds : List (Name × Option Owned)} (h : restoreNames olds s = .ok () s₁) :
    s₁ = { s with namedValues := restoreTable olds s.namedValues } := by
  induction olds generalizing s with
  | nil =>
    cases h
    rfl
  | cons p olds ih => exact ih h

theorem meant_var {varNames : List (Name × ExprAST D)} {body : ExprAST D}
    (ihs : ∀ b ∈ varNames, Meant ops device b.2) (ih : Meant ops device body) :
    Meant ops device (.varExpr varNames body) := by
  intro s v s' sc cells h hs
  rw [gen] at h
  obtain ⟨olds, s₁, hbindings, h⟩ := Gen.bind_ok h
  obtain ⟨bodyVal, s₂, hbody, h⟩ := Gen.bind_ok h
  obtain ⟨_, s₃, hrestore, h⟩ := Gen.bind_ok h
  cases bodyVal with
  | none => cases h
  | some w =>
    cases h
    obtain ⟨hresolves, cells₁, hsaved, h₁⟩ := meant_bindings ihs hbindings hs
    obtain ⟨hresolves₂, cells₂, h₂⟩ := ih s₁ v s₂ _ cells₁ (Gen.attempt_some hbody) h₁.placed
    obtain rfl := restoreNames_run hrestore
    have hplaced : CairoState.Placed { s₂ with namedValues := restoreTable olds s₂.namedValues }
        (scopeAfter (.varExpr varNames body) sc) cells₂ := by
      rw [scopeAfter]
      exact ⟨h₂.placed.wf, h₂.placed.scope.restore (hsaved.mono h₂.cells), h₂.placed.old⟩
    exact ⟨⟨hresolves, hresolves₂⟩, cells₂, BackEnd.Evaluates.declared h₁ h₂ hplaced rfl⟩

/-! ## Branches -/

/-- Behind the phi that the branches meet in. -/
structure Joined (l dst n : Nat) (cells : List Owned) (m : Machine D W) (y : D) (st : State D W)
    (m' : Machine D W) : Prop where
  block : m'.block = l
  index : m'.index = 1
  mem : st.Matches cells m'.mem m'.world m'.calls
  value : m'.regs dst = y
  kept : m.Kept n m'

/-- A branch ends in a jump, and leads behind the phi. -/
theorem joins {ev : Machine D W → State D W → Value D W D} {val : Operand D}
    (h : (cairo ops device).Performs s s₁ sc cells cells₁ ev (fun m => m.val val))
    {final : List Owned} {code : Code D} (hfinal : cells₁ <+: final) (hnodup : final.Nodup)
    (hem : Emitted s.builder.code s₁.builder.code code) {l k dst : Nat}
    {incoming : List (Operand D × Nat)}
    (hbr : (code s₁.builder.insertBlock)[(s₁.builder.code s₁.builder.insertBlock).length]? =
      some (.br l))
    (hphi : (code l)[0]? = some (.phi dst incoming))
    (hfind : incoming.find? (fun entry => entry.2 == s₁.builder.insertBlock) = some (val, k))
    (hdst : s.builder.nextReg ≤ dst) {m : Machine D W} {st : State D W}
    (hst : (cairo ops device).Stands s.builder final code st m) :
    Follows (Machine.step ops device code) ((cairo ops device).Waits final code) m (ev m st)
      (Joined l dst s.builder.nextReg final m) := by
  refine (h.follows final code hfinal hnodup hem m st hst).followed fun y st₁ m₁ hwent => ?_
  have hat : s₁.builder.At m₁ := hwent.stands.at_
  rw [← hat.index, ← hat.block] at hbr
  have hjump : m₁.step ops device code = some (m₁.jump l) := Machine.step_of_fetch hbr
  rw [← hat.block] at hfind
  have hexec : (m₁.jump l).exec ops device (.phi dst incoming) =
      some ((m₁.jump l).setReg dst ((m₁.jump l).val val)) := by
    show Option.map _ (incoming.find? fun entry => entry.2 == m₁.block) = _
    rw [hfind]
    rfl
  have hstep : (m₁.jump l).step ops device code = _ := (Machine.step_of_fetch hphi).trans hexec
  refine ⟨_, (Reaches.one hjump).trans (.one hstep), rfl, rfl, hwent.stands.mem, ?_, ?_⟩
  · rw [← hwent.read]
    show (if dst = dst then _ else _) = _
    rw [if_pos rfl]
    cases val <;> rfl
  · have hkept : m.Kept s.builder.nextReg m₁ := hwent.kept
    have hsame : m₁.Kept s.builder.nextReg (m₁.jump l) := .of_eq rfl rfl rfl
    exact (hkept.trans hsame).trans (.setReg hdst _)

theorem Builder.Grown.untouched {b b' : Builder D} (h : b.Grown b') {l : Nat}
    (hlt : l < b.nextLabel) (hne : l ≠ b.insertBlock) : b'.code l = b.code l := by
  obtain ⟨more, hcode, hmore⟩ := h.code l
  have hnil : more = [] := by
    rw [List.eq_nil_iff_forall_not_mem]
    intro i hi
    rcases (hmore i hi).1 with heq | hle
    · exact hne heq
    · omega
  rw [hcode, hnil, List.append_nil]

theorem emit_code_of_ne {b : Builder D} {i : Instr D} {l : Nat} (hne : l ≠ b.insertBlock) :
    (b.emit i).code l = b.code l := if_neg hne

/-- The blocks of an `if`, between the two branches. -/
structure IfBlocks (b b₁ b₂ : Builder D) (cond : Flag) : Prop where
  thenBlock : (b.enterThen cond).code b.nextLabel = []
  elseBlock : (b₁.enterElse b.nextLabel).code (b.nextLabel + 1) = []
  mergeBlock : b₂.code (b.nextLabel + 2) = []
  apart : b₁.insertBlock ≠ b₂.insertBlock
  merge_ne : b₂.insertBlock ≠ b.nextLabel + 2

theorem ifBlocks {b b₁ b₂ : Builder D} {cond : Flag} (hwf : b.Wf)
    (hthen : (b.enterThen cond).Grown b₁) (helse : (b₁.enterElse b.nextLabel).Grown b₂) :
    IfBlocks b b₁ b₂ cond := by
  have hlt := hwf.insert
  have hlabels : b.nextLabel + 3 ≤ b₁.nextLabel := hthen.labels
  have hinsert : b₁.insertBlock = b.nextLabel ∨ b.nextLabel + 3 ≤ b₁.insertBlock := hthen.insert
  have hinsert₁ := hthen.wf.insert
  have hinsert₂ : b₂.insertBlock = b.nextLabel + 1 ∨ b₁.nextLabel ≤ b₂.insertBlock := helse.insert
  have hempty : ∀ l, b.nextLabel ≤ l → (b.enterThen cond).code l = [] := by
    intro l hl
    exact (emit_code_of_ne (b := { b with nextLabel := b.nextLabel + 3 })
      (show l ≠ b.insertBlock by omega)).trans (hwf.empty l hl)
  have hthere : ∀ l, b.nextLabel < l → l < b.nextLabel + 3 → b₁.code l = [] := by
    intro l hl hl'
    have hsame :=
      hthen.untouched (show l < b.nextLabel + 3 from hl') (show l ≠ b.nextLabel by omega)
    exact hsame.trans (hempty l (by omega))
  have hbetween : ∀ l, b.nextLabel < l → l < b.nextLabel + 3 →
      (b₁.enterElse b.nextLabel).code l = [] := by
    intro l hl hl'
    exact (emit_code_of_ne (b := b₁) (show l ≠ b₁.insertBlock by omega)).trans (hthere l hl hl')
  refine ⟨hempty _ (Nat.le_refl _), hbetween _ (by omega) (by omega), ?_, by omega, by omega⟩
  have hsame := helse.untouched (l := b.nextLabel + 2)
    (show b.nextLabel + 2 < b₁.nextLabel by omega)
    (show b.nextLabel + 2 ≠ b.nextLabel + 1 by omega)
  exact hsame.trans (hbetween _ (by omega) (by omega))

theorem prefix_emit (b : Builder D) (i : Instr D) (l : Nat) : b.code l <+: (b.emit i).code l := by
  show b.code l <+: if l = b.insertBlock then b.code l ++ [i] else b.code l
  split
  · exact List.prefix_append _ _
  · exact List.prefix_rfl

/-- The block of the phi has it alone, the last block of the second branch a jump there. -/
theorem merge_code {b : Builder D} {n : Nat} (thenVal : Operand D) (e₁ : Nat) (elseVal : Operand D)
    (hne : b.insertBlock ≠ n + 2) :
    (∀ l, b.code l <+: (b.merge n thenVal e₁ elseVal).2.code l) ∧
    b.code b.insertBlock ++ [.br (n + 2)] <+: (b.merge n thenVal e₁ elseVal).2.code b.insertBlock ∧
    b.code (n + 2) ++ [.phi b.nextReg [(thenVal, e₁), (elseVal, b.insertBlock)]] <+:
      (b.merge n thenVal e₁ elseVal).2.code (n + 2) ∧
    ((b.merge n thenVal e₁ elseVal).2.code (n + 2)).length = (b.code (n + 2)).length + 1 := by
  have hphi := prefix_emit ((b.emit (.br (n + 2))).setInsertPoint (n + 2))
    (.phi b.nextReg [(thenVal, e₁), (elseVal, b.insertBlock)])
  have hthere : (b.merge n thenVal e₁ elseVal).2.code (n + 2) =
      b.code (n + 2) ++ [.phi b.nextReg [(thenVal, e₁), (elseVal, b.insertBlock)]] := by
    show (if n + 2 = n + 2 then (b.emit (.br (n + 2))).code (n + 2) ++ _ else _) = _
    rw [if_pos rfl, emit_code_of_ne hne.symm]
    rfl
  refine ⟨fun l => (prefix_emit b _ l).trans (hphi l),
    (emit_there b (.br (n + 2))).trans (hphi b.insertBlock),
    ⟨[], (List.append_nil _).trans hthere.symm⟩, ?_⟩
  rw [hthere, List.length_append, List.length_singleton]

theorem Joined.went {b b' : Builder D} {l dst n : Nat} {m m₁ m' : Machine D W} {y : D}
    {st : State D W} (h : Joined l dst n cells m₁ y st m') (hm : m.Kept b.nextReg m₁)
    (hn : b.nextReg ≤ n)
    (hl : b'.insertBlock = l) (hlength : (b'.code l).length = 1) (code : Code D) :
    (cairo ops device).Went b b' cells code m (fun m => m.val (.reg dst)) y st m' := by
  refine ⟨⟨⟨h.block.trans hl.symm, ?_⟩, h.mem⟩, h.value, hm.trans (h.kept.mono hn)⟩
  rw [h.index, hl, hlength]

theorem performs_branches {cond : Flag} {thenVal elseVal : Operand D}
    {f g : State D W → Value D W D} (hs : s.Placed sc cells)
    (hthen : (cairo ops device).Performs { s with builder := s.builder.enterThen cond } s₁ sc₁ cells
      cells₁ (fun _ => f) (fun m => m.val thenVal))
    (helse : (cairo ops device).Performs
      { s₁ with builder := s₁.builder.enterElse s.builder.nextLabel } s₂ sc₂ cells₁ cells₂
      (fun _ => g) (fun m => m.val elseVal)) :
    (cairo ops device).Performs s { s₂ with
        builder := (s₂.builder.merge s.builder.nextLabel thenVal s₁.builder.insertBlock elseVal).2 }
      sc₂ cells cells₂ (fun m st => if m.flag cond then f st else g st)
      (fun m => m.val (.reg s₂.builder.nextReg)) := by
  have hthen' : (s.builder.enterThen cond).Grown s₁.builder := hthen.grown
  have helse' : (s₁.builder.enterElse s.builder.nextLabel).Grown s₂.builder := helse.grown
  have henter := Builder.enterThen_grown hs.wf cond
  have hlabels : s.builder.nextLabel + 3 ≤ s₁.builder.nextLabel := hthen'.labels
  have helseStart := Builder.enterElse_grown (henter.trans hthen') hlabels
  have hend := helseStart.trans helse'
  have hgrown := Builder.merge_grown hend (Nat.le_trans hlabels helse'.labels) thenVal
    s₁.builder.insertBlock elseVal
  have hblocks := ifBlocks hs.wf hthen' helse'
  obtain ⟨hbefore, hbr, hphi, hlength⟩ :=
    merge_code thenVal s₁.builder.insertBlock elseVal hblocks.merge_ne
  have hfirst := prefix_emit s₁.builder (.br (s.builder.nextLabel + 2))
  have hlate : ∀ l, s₁.builder.code l <+: (s₂.builder.merge s.builder.nextLabel thenVal
      s₁.builder.insertBlock elseVal).2.code l :=
    fun l => ((hfirst l).trans (helse'.prefix_ l)).trans (hbefore l)
  have hplaced :
      CairoState.Placed { s₂ with builder := (s₂.builder.merge s.builder.nextLabel thenVal
      s₁.builder.insertBlock elseVal).2 } sc₂ cells₂ :=
    ⟨hgrown.wf, helse.placed.scope, helse.placed.old⟩
  refine ⟨hgrown, hthen.cells.trans helse.cells, hplaced, ?_⟩
  intro final code hfinal hnodup hem m st hst
  -- where the jumps and the phi are in the end
  have hcond := hst.at_.fetch hem (i := .condBr cond s.builder.nextLabel (s.builder.nextLabel + 1))
    ((emit_there _ _).trans ((hthen'.prefix_ _).trans (hlate _)))
  have hemEnd : Emitted s₂.builder.code _ code := hem.rest hend.prefix_
  have hbrElse := hemEnd.fetch hbr
  have hphi' := hemEnd.fetch hphi
  rw [hblocks.mergeBlock] at hphi' hlength
  have hbrThen := ((hem.rest (henter.trans hthen').prefix_).first
    fun l => (helse'.prefix_ l).trans (hbefore l)).fetch (emit_there s₁.builder _)
  have hjump : m.step ops device code =
      some (m.jump (if m.flag cond then s.builder.nextLabel else s.builder.nextLabel + 1)) :=
    Machine.step_of_fetch hcond
  refine .after (.one hjump) ?_
  have hkept : ∀ l, m.Kept s.builder.nextReg (m.jump l) := fun l => .of_eq rfl rfl rfl
  cases m.flag cond with
  | true =>
    have hemThen := (hem.rest henter.prefix_).first hlate
    have hstart : (cairo ops device).Stands (s.builder.enterThen cond) final code st
        (m.jump s.builder.nextLabel) :=
      ⟨⟨rfl, (congrArg List.length hblocks.thenBlock).symm⟩, hst.mem⟩
    refine (joins hthen (helse.cells.trans hfinal) hnodup hemThen hbrThen hphi'
      (k := s₁.builder.insertBlock) ?_ hend.regs hstart).mono fun y st₁ m₁ hjoined => ?_
    · simp
    · exact hjoined.went (hkept _) henter.regs rfl hlength code
  | false =>
    have hemElse := (hem.rest helseStart.prefix_).first hbefore
    have hstart : (cairo ops device).Stands (s₁.builder.enterElse s.builder.nextLabel) final code st
        (m.jump (s.builder.nextLabel + 1)) :=
      ⟨⟨rfl, (congrArg List.length hblocks.elseBlock).symm⟩, hst.mem⟩
    refine (joins helse hfinal hnodup hemElse hbrElse hphi'
      (k := s₂.builder.insertBlock) ?_ helse'.regs hstart).mono fun y st₁ m₁ hjoined => ?_
    · simp [hblocks.apart]
    · exact hjoined.went (hkept _) helseStart.regs rfl hlength code

theorem meant_if {cond then_ else_ : ExprAST D} (ihc : Meant ops device cond)
    (iht : Meant ops device then_) (ihe : Meant ops device else_) :
    Meant ops device (.ifExpr cond then_ else_) := by
  intro s v s' sc cells h hs
  rw [genIf_run] at h
  obtain ⟨condVal, s₁, hcond, h⟩ := Gen.bind_ok h
  obtain ⟨condCmp, s₂, hcmp, h⟩ := Gen.bind_ok h
  obtain ⟨hresolves, cells₁, h₁⟩ := ihc s condVal s₁ sc cells hcond hs
  have h₂ := performs_createFCmp ops device hcmp h₁.placed
  obtain ⟨thenVal, s₃, hthen, h⟩ := Gen.bind_ok h
  obtain ⟨elseVal, s₄, helse, h⟩ := Gen.bind_ok h
  cases h
  have henter := Builder.enterThen_grown h₂.placed.wf condCmp
  obtain ⟨hresolves₃, cells₃, h₃⟩ := iht _ _ _ _ cells₁ hthen (h₂.placed.built henter rfl rfl)
  have hthen' : (s₂.builder.enterThen condCmp).Grown s₃.builder := h₃.grown
  have helseStart := Builder.enterElse_grown (henter.trans hthen') hthen'.labels
  have helsePlaced : CairoState.Placed
      { s₃ with builder := s₃.builder.enterElse s₂.builder.nextLabel } _ cells₃ :=
    ⟨helseStart.wf, h₃.placed.scope, h₃.placed.old⟩
  obtain ⟨hresolves₄, cells₄, h₄⟩ := ihe _ _ _ _ cells₃ helse helsePlaced
  refine ⟨⟨hresolves, hresolves₃, hresolves₄⟩, cells₄, ?_⟩
  exact BackEnd.Evaluates.branched h₁ h₂ (performs_branches h₂.placed h₃ h₄)

/-- Cairo's code for an expression without loops and built-ins does what the expression means. -/
theorem meant_of_loopFree (ops : IntOps D) (device : Device D W) (e : ExprAST D)
    (hfree : loopFree (fun callee => !isBuiltinCall callee) e = true) : Meant ops device e := by
  induction e using ExprAST.induction with
  | null =>
    intro s v s' sc cells h
    rw [gen] at h
    cases h
  | numberExpr val =>
    intro s v s' sc cells h hs
    rw [gen] at h
    cases h
    refine ⟨trivial, cells, (performs_const ops device hs val).congr fun m st => ?_⟩
    rw [eval]
  | variableExpr name => exact meant_variable name
  | unaryExpr op operand ih =>
    rw [loopFree] at hfree
    exact meant_unary (ih hfree)
  | binaryExpr op lhs rhs ihl ihr =>
    rw [loopFree, Bool.and_eq_true] at hfree
    exact meant_binary (ihl hfree.1) (ihr hfree.2)
  | callExpr callee args ih =>
    rw [loopFree, Bool.and_eq_true, loopFreeArgs_iff, Bool.not_eq_true'] at hfree
    exact meant_call hfree.1 fun a ha => ih a ha (hfree.2 a ha)
  | ifExpr cond then_ else_ ihc iht ihe =>
    rw [loopFree, Bool.and_eq_true, Bool.and_eq_true] at hfree
    exact meant_if (ihc hfree.1.1) (iht hfree.1.2) (ihe hfree.2)
  | forExpr varName start end_ step body _ _ _ _ => cases hfree
  | varExpr varNames body ihs ih =>
    rw [loopFree, Bool.and_eq_true, loopFreeBindings_iff] at hfree
    exact meant_var (fun b hb => ihs b hb (hfree.1 b hb)) (ih hfree.2)

end

end AroundTheWorld.Cairo
