import AroundTheWorld.Agreement.BackEnd
import AroundTheWorld.Cairo.Machine

/-!
# Cairo follows the reference

Cairo as a back end of the reference: its cells are the slots that the generator has
allocated, in the same order. What it emits piece by piece, up to the operators, does
what the reference does.
-/

namespace AroundTheWorld.Cairo

open AroundTheWorld.Base AroundTheWorld.Lex AroundTheWorld.Llvm AroundTheWorld.Agreement
open AroundTheWorld.Athens (ExprAST Name)

variable {D W : Type}

/-! ## Pieces of code -/

/-- The generator in a scope. -/
structure CairoState.Placed (s : CairoState D) (sc : NameScope) (cells : List Owned) : Prop where
  wf : s.builder.Wf
  scope : sc.Placed cells s.namedValues
  old : ∀ k ∈ cells, k.function = s.builder.function → k.index < s.builder.nextCell

theorem Builder.Grown.prefix_ {b b' : Builder D} (h : b.Grown b') (l : Nat) :
    b.code l <+: b'.code l := by
  obtain ⟨more, hcode, -⟩ := h.code l
  exact ⟨more, hcode.symm⟩

/-- The machine is about to make a call that does not come back. -/
structure Machine.Calls (device : Device D W) (code : Code D) (m : Machine D W)
    (what : Name × List D) : Prop where
  fetch : ∃ dst vals, (code m.block)[m.index]? = some (.call dst what.1 vals) ∧
    vals.map m.val = what.2
  lost : device.call what.1 what.2 m.world = none

theorem Machine.Calls.step {ops : IntOps D} {device : Device D W} {code : Code D} {m : Machine D W}
    {what : Name × List D} (h : m.Calls device code what) : m.step ops device code = none := by
  obtain ⟨⟨dst, vals, hfetch, hvals⟩, hlost⟩ := h
  rw [Machine.step_of_fetch hfetch]
  show Option.map _ (device.call what.1 (vals.map m.val) m.world) = none
  rw [hvals, hlost]
  rfl

abbrev cairo (ops : IntOps D) (device : Device D W) :
    BackEnd (CairoState D) (Builder D) (Machine D W) Owned (Instr D) D W where
  builder := CairoState.builder
  code := Builder.code
  step := Machine.step ops device
  mem := Machine.mem
  world := Machine.world
  calls := Machine.calls
  At b _ m := b.At m
  Calls := Machine.Calls device
  Placed := CairoState.Placed
  Grown := Builder.Grown
  Kept b m m' := m.Kept b.nextReg m'
  grown_refl hs := .refl hs.wf
  grown_trans := .trans
  grown_code := Builder.Grown.prefix_
  kept_refl := .refl
  kept_trans hgrown h h' := h.trans (h'.mono hgrown.regs)
  stops := Machine.Calls.step

section
variable {ops : IntOps D} {device : Device D W} {s s₁ s₂ : CairoState D} {sc sc₁ sc₂ : NameScope}
  {cells cells₁ cells₂ : List Owned} {α β : Type}

/-! ## Single instructions -/

/-- At the insertion point the machine meets what is emitted next. -/
theorem Builder.At.fetch {b b' : Builder D} {code : Code D} {m : Machine D W} (hat : b.At m)
    (hem : Emitted b.code b'.code code) {i : Instr D}
    (hi : b.code b.insertBlock ++ [i] <+: b'.code b.insertBlock) :
    (code m.block)[m.index]? = some i := by
  rw [hat.block, hat.index]
  exact hem.fetch hi

theorem emit_there (b : Builder D) (i : Instr D) :
    b.code b.insertBlock ++ [i] <+: (b.emit i).code b.insertBlock :=
  ⟨[], (List.append_nil _).trans (if_pos rfl).symm⟩

/-- The insertion point behind an instruction. -/
theorem Builder.At.emitted {b : Builder D} {m m' : Machine D W} {i : Instr D} (hat : b.At m)
    (hblock : m'.block = m.block) (hindex : m'.index = m.index + 1) : (b.emit i).At m' := by
  refine ⟨hblock.trans hat.block, ?_⟩
  show m'.index = ((b.emit i).code b.insertBlock).length
  rw [show (b.emit i).code b.insertBlock = b.code b.insertBlock ++ [i] from if_pos rfl,
    List.length_append, List.length_singleton, hindex, hat.index]

theorem CairoState.Placed.built (hs : s.Placed sc cells) {b : Builder D}
    (hgrown : s.builder.Grown b) (hfunction : b.function = s.builder.function)
    (hcell : b.nextCell = s.builder.nextCell) :
    CairoState.Placed { s with builder := b } sc cells := by
  refine ⟨hgrown.wf, hs.scope, fun k hk hown => ?_⟩
  show k.index < b.nextCell
  rw [hcell]
  exact hs.old k hk (hown.trans hfunction)

/-- Only registers are changed, and the next instruction comes next. -/
structure Silent (m m' : Machine D W) : Prop where
  block : m'.block = m.block
  index : m'.index = m.index + 1
  mem : m'.mem = m.mem
  world : m'.world = m.world
  calls : m'.calls = m.calls

variable (ops device)

/-- An instruction with a register, whose effect is `g`. -/
theorem performs_emitReg {i : Nat → Instr D} {r : Nat} (h : emitReg i s = .ok r s₁)
    (hs : s.Placed sc cells) (hdst : ∀ r, (i r).dst = some r) (htargets : ∀ r, (i r).targets = [])
    {g : Machine D W → Machine D W} (hexec : ∀ m, m.exec ops device (i r) = some (g m))
    (hg : ∀ m, Silent m (g m)) (read : Machine D W → β) :
    (cairo ops device).Performs s s₁ sc cells cells (fun m st => .done (read (g m)) st) read := by
  cases h
  have hgrown : s.builder.Grown (s.builder.emitReg i).2 :=
    (Builder.Grown.refl hs.wf).emitReg hdst htargets
  refine ⟨hgrown, List.prefix_rfl, hs.built hgrown rfl rfl, ?_⟩
  intro final code _ _ hem m st hst
  have hfetch := hst.at_.fetch hem (emit_there s.builder _)
  have hexec' := hexec m
  obtain ⟨hblock, hindex, hmem, hworld, hcalls⟩ := hg m
  have hstep := (Machine.step_of_fetch hfetch).trans hexec'
  refine .after (.one hstep) (.done ⟨⟨?_, ?_⟩, rfl, ?_⟩)
  · have hat := hst.at_.emitted (i := i s.builder.nextReg) hblock hindex
    exact ⟨hat.block, hat.index⟩
  · show st.Matches final (g m).mem (g m).world (g m).calls
    rw [hmem, hworld, hcalls]
    exact hst.mem
  · refine Machine.exec_kept hexec' fun r hr => ?_
    rw [hdst] at hr
    exact Nat.le_of_eq (Option.some.inj hr)

theorem performs_done (hs : s.Placed sc cells) (x : β) :
    (cairo ops device).Performs s s sc cells cells (fun _ st => .done x st) (fun _ => x) :=
  BackEnd.Performs.refl hs x

theorem performs_const (hs : s.Placed sc cells) (x : D) :
    (cairo ops device).Performs s s sc cells cells (fun _ st => .done x st)
      (fun m => m.val (.const x)) :=
  performs_done ops device hs x

theorem silent_setReg (m : Machine D W) (r : Nat) (d : D) : Silent m (m.setReg r d) :=
  ⟨rfl, rfl, rfl, rfl, rfl⟩

/-- An operation on doubles; one on constants is folded. -/
theorem performs_createFBin {op : FBinOp} {lhs rhs v : Operand D}
    (h : build (·.createFBin ops op lhs rhs) s = .ok v s₁) (hs : s.Placed sc cells) :
    (cairo ops device).Performs s s₁ sc cells cells
      (fun m st => .done (ops.fbin op (m.val lhs) (m.val rhs)) st) (fun m => m.val v) := by
  have hreg : ∀ {r}, emitReg (.fbin op · lhs rhs) s = .ok r s₁ →
      (cairo ops device).Performs s s₁ sc cells cells
        (fun m st => .done (ops.fbin op (m.val lhs) (m.val rhs)) st) (fun m => m.val (.reg r)) := by
    intro r hemit
    have hall := performs_emitReg ops device hemit hs (fun _ => rfl) (fun _ => rfl) (fun _ => rfl)
      (fun m => silent_setReg m r (ops.fbin op (m.val lhs) (m.val rhs))) fun m => m.val (.reg r)
    refine hall.congr fun m st => ?_
    simp [Machine.val, Machine.setReg]
  cases lhs with
  | reg l =>
    cases h
    exact hreg rfl
  | const x =>
    cases rhs with
    | reg r =>
      cases h
      exact hreg rfl
    | const y =>
      cases h
      exact performs_const ops device hs (ops.fbin op x y)

theorem performs_createFCmp {pred : FCmpPred} {lhs rhs : Operand D} {flag : Flag}
    (h : build (·.createFCmp ops pred lhs rhs) s = .ok flag s₁) (hs : s.Placed sc cells) :
    (cairo ops device).Performs s s₁ sc cells cells
      (fun m st => .done (Builder.fcmp ops pred (m.val lhs) (m.val rhs)) st)
      (fun m => m.flag flag) := by
  have hreg : ∀ {r}, emitReg (.fcmp pred · lhs rhs) s = .ok r s₁ →
      (cairo ops device).Performs s s₁ sc cells cells
        (fun m st => .done (Builder.fcmp ops pred (m.val lhs) (m.val rhs)) st)
        (fun m => m.flag (.reg r)) := by
    intro r hemit
    have hall := performs_emitReg ops device hemit hs (fun _ => rfl) (fun _ => rfl) (fun _ => rfl)
      (fun _ => ⟨rfl, rfl, rfl, rfl, rfl⟩) fun m => m.flag (.reg r)
    refine hall.congr fun m st => ?_
    simp [Machine.flag, Machine.setFlag]
  cases lhs with
  | reg l =>
    cases h
    exact hreg rfl
  | const x =>
    cases rhs with
    | reg r =>
      cases h
      exact hreg rfl
    | const y =>
      cases h
      exact performs_done ops device hs (Builder.fcmp ops pred x y)

theorem performs_createUIToFP {flag : Flag} {v : Operand D}
    (h : build (·.createUIToFP ops flag) s = .ok v s₁) (hs : s.Placed sc cells) :
    (cairo ops device).Performs s s₁ sc cells cells
      (fun m st => .done (ops.uitofp (m.flag flag)) st) (fun m => m.val v) := by
  cases flag with
  | const b =>
    cases h
    exact performs_const ops device hs (ops.uitofp b)
  | reg k =>
    have hemit : emitReg (.uitofp · (.reg k)) s = .ok s.builder.nextReg s₁ := by
      cases h
      rfl
    have hall := performs_emitReg ops device hemit hs (fun _ => rfl) (fun _ => rfl) (fun _ => rfl)
      (fun m => silent_setReg m _ _) fun m => m.val (.reg s.builder.nextReg)
    cases h
    refine hall.congr fun m st => ?_
    simp [Machine.val, Machine.setReg]

/-- A load of a cell whose value is known. -/
theorem performs_createLoad {cell : Owned} {v : Operand D} {c : Nat} {name : Name}
    (h : build (·.createLoad cell) s = .ok v s₁) (hs : s.Placed sc cells)
    (hc : cells[c]? = some cell) (hname : sc.table name = some c) :
    (cairo ops device).Performs s s₁ sc cells cells (fun _ st => evalVariable name sc st)
      (fun m => m.val v) := by
  have hemit : emitReg (.load · cell) s = .ok s.builder.nextReg s₁ := by
    cases h
    rfl
  have hload := performs_emitReg ops device hemit hs (fun _ => rfl) (fun _ => rfl) (fun _ => rfl)
    (fun m => silent_setReg m _ _) fun m => m.val (.reg s.builder.nextReg)
  cases h
  refine ⟨hload.grown, hload.cells, hload.placed, ?_⟩
  intro final code hfinal hnodup hem m st hst
  have hrun := hload.follows final code hfinal hnodup hem m st hst
  rw [evalVariable, hname, Option.bind_some]
  cases hx : st.mem c with
  | none => trivial
  | some x =>
    have hmem : m.mem cell = x := hst.mem.mem c cell x (getElem?_of_le hfinal hc) hx
    have hval : (m.setReg s.builder.nextReg (m.mem cell)).val (.reg s.builder.nextReg) = x := by
      simp [Machine.val, Machine.setReg, hmem]
    exact hval ▸ hrun

theorem performs_createCall {callee : Name} {args : List (Operand D)} {r : Nat}
    (h : emitReg (.call · callee args) s = .ok r s₁) (hs : s.Placed sc cells) :
    (cairo ops device).Performs s s₁ sc cells cells
      (fun m st => evalCall device.call callee (args.map m.val) st) (fun m => m.val (.reg r)) := by
  cases h
  have hgrown : s.builder.Grown (s.builder.emitReg (.call · callee args)).2 :=
    (Builder.Grown.refl hs.wf).emitReg (fun _ => rfl) fun _ => rfl
  refine ⟨hgrown, List.prefix_rfl, hs.built hgrown rfl rfl, ?_⟩
  intro final code _ _ hem m st hst
  have hfetch := hst.at_.fetch hem (emit_there s.builder _)
  obtain ⟨hmem, hworld, hcalls⟩ := hst.mem
  show Follows _ _ m (evalCall device.call callee (args.map m.val) st) _
  rw [evalCall, ← show m.world = st.world from hworld]
  cases hcall : device.call callee (args.map m.val) m.world with
  | none =>
    have hlost : m.Calls device code (callee, args.map m.val) := ⟨⟨_, args, hfetch, rfl⟩, hcall⟩
    exact BackEnd.Waits.follows (T := cairo ops device) ⟨hlost, hst.mem⟩
  | some x =>
    have hexec : m.exec ops device (.call s.builder.nextReg callee args) =
        some { m.setReg s.builder.nextReg x.1 with
          world := x.2, calls := m.calls ++ [(callee, args.map m.val)] } := by
      show Option.map _ (device.call callee (args.map m.val) m.world) = _
      rw [hcall]
      rfl
    refine .after (.one ((Machine.step_of_fetch hfetch).trans hexec)) (.done ⟨⟨?_, ?_⟩, ?_, ?_⟩)
    · have hat : (s.builder.emit (.call s.builder.nextReg callee args)).At
          { m.setReg s.builder.nextReg x.1 with
            world := x.2, calls := m.calls ++ [(callee, args.map m.val)] } :=
        hst.at_.emitted rfl rfl
      exact ⟨hat.block, hat.index⟩
    · exact ⟨hmem, rfl, congrArg (· ++ [(callee, args.map m.val)]) hcalls⟩
    · exact if_pos rfl
    · exact Machine.exec_kept hexec fun r hr => Nat.le_of_eq (Option.some.inj hr)

/-- A store into the cell of a name. -/
theorem performs_store {val : Operand D} {cell : Owned} {c : Nat}
    (h : emit (.store val cell) s = .ok () s₁) (hs : s.Placed sc cells)
    (hc : cells[c]? = some cell) : (cairo ops device).Performs s s₁ sc cells cells
      (fun m st => .done (m.val val) (st.write c (m.val val))) (fun m => m.val val) := by
  cases h
  have hgrown : s.builder.Grown (s.builder.emit (.store val cell)) :=
    (Builder.Grown.refl hs.wf).emit rfl (List.forall_mem_nil _)
  refine ⟨hgrown, List.prefix_rfl, hs.built hgrown rfl rfl, ?_⟩
  intro final code hfinal hnodup hem m st hst
  have hfetch := hst.at_.fetch hem (emit_there s.builder _)
  have hstep : m.step ops device code = some (m.setCell cell (m.val val)) :=
    Machine.step_of_fetch hfetch
  refine .after (.one hstep) (.done ⟨⟨hst.at_.emitted rfl rfl, ?_⟩, ?_, .of_eq rfl rfl rfl⟩)
  · exact hst.mem.write hnodup (getElem?_of_le hfinal hc) (m.val val)
  · cases val <;> rfl

/-- A new cell, of which nothing is known. -/
theorem performs_alloca {cell : Owned} (h : build (·.createAlloca) s = .ok cell s₁)
    (hs : s.Placed sc cells) :
    (cairo ops device).Performs s s₁ sc.allocate cells (cells ++ [cell]) (fun _ st => .done () st)
      (fun _ => ()) := by
  cases h
  have hgrown : s.builder.Grown s.builder.createAlloca.2 := (Builder.Grown.refl hs.wf).createAlloca
  have hfresh : s.builder.createAlloca.1 ∉ cells := by
    intro hmem
    exact Nat.lt_irrefl _ (hs.old _ hmem rfl)
  refine ⟨hgrown, List.prefix_append _ _, ⟨hgrown.wf, hs.scope.allocate hfresh, ?_⟩, ?_⟩
  · intro k hk hown
    show k.index < s.builder.nextCell + 1
    rcases List.mem_append.mp hk with hk | hk
    · exact Nat.lt_succ_of_lt (hs.old k hk hown)
    · rw [List.mem_singleton.mp hk]
      exact Nat.lt_succ_self _
  · intro final code hfinal hnodup hem m st hst
    have hfetch := hst.at_.fetch hem (emit_there s.builder _)
    have hstep : m.step ops device code = some m.next := Machine.step_of_fetch hfetch
    refine .after (.one hstep) (.done ⟨⟨?_, hst.mem⟩, rfl, .of_eq rfl rfl rfl⟩)
    have hat : (s.builder.emit (.alloca ⟨s.builder.function, s.builder.nextCell⟩)).At m.next :=
      hst.at_.emitted rfl rfl
    exact ⟨hat.block, hat.index⟩

/-! ## Operators -/

/-- The `switch` of `genBinary`, on two values. -/
theorem performs_binaryOp {op : Byte} {lhs rhs v : Operand D}
    (h : binaryOp ops op lhs rhs s = .ok v s₁) (hs : s.Placed sc cells) :
    Arithmetic op ∧ (cairo ops device).Performs s s₁ sc cells cells
      (fun m st => evalBinary ops.toFloatOps op (m.val lhs) (m.val rhs) st)
      (fun m => m.val v) := by
  unfold binaryOp at h
  unfold evalBinary Arithmetic
  split at h
  case isTrue hop =>
    subst hop
    exact ⟨.inl rfl, performs_createFBin ops device h hs⟩
  rename_i hadd
  split at h
  case isTrue hop =>
    subst hop
    exact ⟨.inr (.inl rfl), performs_createFBin ops device h hs⟩
  rename_i hsub
  split at h
  case isTrue hop =>
    subst hop
    exact ⟨.inr (.inr (.inl rfl)), performs_createFBin ops device h hs⟩
  rename_i hmul
  split at h
  case isFalse => cases h
  rename_i hop
  subst hop
  obtain ⟨cmp, s₂, hcmp, h⟩ := Gen.bind_ok h
  have h₂ := performs_createFCmp ops device hcmp hs
  have h₃ := performs_createUIToFP ops device h h₂.placed
  have hall := h₂.bind h₃ (k := fun _ b st => .done (ops.uitofp b) st) fun _ _ _ _ => rfl
  refine ⟨.inr (.inr (.inr rfl)), hall.congr fun m st => ?_⟩
  rw [if_neg hadd, if_neg hsub, if_neg hmul, if_pos rfl]
  rfl

end

end AroundTheWorld.Cairo
