import AroundTheWorld.Cairo.Loop
import AroundTheWorld.Cairo.Meant
import AroundTheWorld.Counted.Target

/-!
# Cairo's generator and the machine that runs its code

The single instructions that `NVPTXCodegen` emits, and what a machine that comes to them
does. The tables of the generator may have slots and pointers of earlier functions; the
code that is run refers to those of its own function only, so that the others have never
been used in it.
-/

namespace AroundTheWorld.Cairo

open AroundTheWorld.Base AroundTheWorld.Lex AroundTheWorld.Llvm AroundTheWorld.Counted
open AroundTheWorld.Athens (ExprAST Name)

variable {D W : Type}

/-- The slots and pointers that the code refers to are those of the function with this
number. -/
def OwnCode (number : Nat) (code : Code D) : Prop :=
  ∀ l, ∀ i ∈ code l, ∀ o ∈ i.owned, o.function = number

/-- What a function is generated and run among. -/
structure Setting (D W : Type) where
  ops : IntOps D
  device : Device D W
  number : Nat
  params : List KernelParam

/-- The function's own pointers. -/
def Setting.pointer (c : Setting D W) (index : Nat) : Option Owned :=
  (c.params[index]?.map (·.ptr)).filter fun ptr => ptr.function = c.number

/-- The machine is about to do something outside that does not come back. -/
inductive Machine.Blocked (device : Device D W) (code : Code D) (m : Machine D W) : Prop where
  | call (dst : Nat) (callee : Name) (args : List (Operand D))
    (fetch : (code m.block)[m.index]? = some (.call dst callee args))
    (lost : device.call callee (args.map m.val) m.world = none)
  | load (dst ptr : Nat) (fetch : (code m.block)[m.index]? = some (.loadPtr dst ptr))
    (lost : device.load (m.ptrs ptr).1 (m.ptrs ptr).2 m.world = none)
  | store (val : Operand D) (ptr : Nat)
    (fetch : (code m.block)[m.index]? = some (.storePtr val ptr))
    (lost : device.store (m.ptrs ptr).1 (m.ptrs ptr).2 (m.val val) m.world = none)

theorem Machine.Blocked.step_eq {ops : IntOps D} {device : Device D W} {code : Code D}
    {m : Machine D W} (h : m.Blocked device code) : m.step ops device code = none := by
  cases h with
  | call dst callee args fetch lost =>
    rw [Machine.step_of_fetch fetch, Machine.exec, lost]
    rfl
  | load dst ptr fetch lost =>
    rw [Machine.step_of_fetch fetch, Machine.exec, lost]
    rfl
  | store val ptr fetch lost =>
    rw [Machine.step_of_fetch fetch, Machine.exec, lost]
    rfl

/-- What is generated is added to the function, and the pointers stay. -/
structure Adds (c : Setting D W) (b b' : Builder D × List KernelParam) : Prop where
  grown : b.1.Grown b'.1
  function : b'.1.function = c.number
  cells : b.1.nextCell ≤ b'.1.nextCell
  params : b'.2 = c.params

/-- The code has what was added, and refers to nothing of other functions. -/
structure Within (c : Setting D W) (code : Code D) (b b' : Builder D × List KernelParam) :
    Prop where
  emitted : Emitted b.1.code b'.1.code code
  own : OwnCode c.number code

/-- The names in slots of the function itself. -/
def ownNames (number : Nat) (s : CairoState D) (name : Name) : Option Owned :=
  (s.namedValues name).filter fun cell => cell.function = number

def target (c : Setting D W) : Target (CairoState D) (Builder D × List KernelParam) (Code D)
    (Machine D W) Owned D W where
  builder s := (s.builder, s.kernelParams)
  names := ownNames c.number
  step := Machine.step c.ops c.device
  mem := Machine.mem
  world := Machine.world
  calls := Machine.calls
  At _ b m := b.1.At m
  Blocked := Machine.Blocked c.device
  Wf b := b.1.Wf ∧ b.1.function = c.number ∧ b.2 = c.params
  Has b cell := cell.function = c.number ∧ cell.index < b.1.nextCell
  Grown := Adds c
  Within := Within c
  Kept b m m' := m.Kept b.1.nextReg m'
  grown_refl hwf := ⟨.refl hwf.1, hwf.2.1, Nat.le_refl _, hwf.2.2⟩
  grown_trans h h' :=
    ⟨h.grown.trans h'.grown, h'.function, Nat.le_trans h.cells h'.cells, h'.params⟩
  grown_wf h := ⟨h.grown.wf, h.function, h.params⟩
  grown_has h hk := ⟨hk.1, Nat.lt_of_lt_of_le hk.2 h.cells⟩
  within_first _ h' hcode := ⟨hcode.emitted.first h'.grown.prefix_, hcode.own⟩
  within_rest h _ hcode := ⟨hcode.emitted.rest h.grown.prefix_, hcode.own⟩
  kept_refl := .refl
  kept_trans h hkept hkept' := hkept.trans (hkept'.mono h.grown.regs)

section
variable {c : Setting D W} {N : Nat} {s s' s₁ : CairoState D} {scope : List (Name × Owned)}
    {β : Type}

/-- The generator inside a scope. -/
abbrev Ready (c : Setting D W) (s : CairoState D) (scope : List (Name × Owned)) : Prop :=
  (target c).Ready s scope

/-- What has been generated does what `ev` says. -/
abbrev Computes (c : Setting D W) (N : Nat) {α : Type} (s s' : CairoState D)
    (scope scope' : List (Name × Owned))
    (ev : Machine D W → State D W → Option (α × State D W)) (read : Machine D W → α) : Prop :=
  (target c).Computes N s s' scope scope' ev read

namespace Ready

variable (hs : Ready c s scope)
include hs

theorem builder_wf : s.builder.Wf := hs.wf.1

/-- The function has grown, and nothing else is changed. -/
theorem adds {b : Builder D} (hgrown : s.builder.Grown b)
    (hfunction : b.function = s.builder.function) (hcell : s.builder.nextCell ≤ b.nextCell) :
    Adds c (s.builder, s.kernelParams) (b, s.kernelParams) :=
  ⟨hgrown, hfunction.trans hs.wf.2.1, hcell, hs.wf.2.2⟩

theorem built {b : Builder D} (hgrown : s.builder.Grown b)
    (hfunction : b.function = s.builder.function)
    (hcell : s.builder.nextCell ≤ b.nextCell) : Ready c { s with builder := b } scope := by
  have hadds :
      (target c).Grown ((target c).builder s) ((target c).builder { s with builder := b }) :=
    hs.adds hgrown hfunction hcell
  exact Target.Ready.grown hs hadds rfl

end Ready

/-! ## Single instructions -/

/-- An instruction that changes registers only. -/
theorem computes_emitReg {i : Nat → Instr D} {r : Nat} (h : emitReg i s = .ok r s₁)
    (hs : Ready c s scope) (hdst : ∀ r, (i r).dst = some r) (htargets : ∀ r, (i r).targets = [])
    {g : Machine D W → Machine D W} (hexec : ∀ m, m.exec c.ops c.device (i r) = some (g m))
    (hg : ∀ m, Silent m (g m)) {read : Machine D W → β}
    (hread : ∀ m m' : Machine D W, m.Kept (r + 1) m' → read m' = read m) :
    Computes c N s s₁ scope scope (fun m st => some (read (g m), st)) read := by
  cases h
  have hgrown : s.builder.Grown (s.builder.emitReg i).2 :=
    (Builder.Grown.refl hs.builder_wf).emitReg hdst htargets
  constructor
  · exact hs.adds hgrown rfl (Nat.le_refl _)
  · exact hs.built hgrown rfl (Nat.le_refl _)
  · exact fun m m' hkept => hread m m' hkept
  · intro code hcode m st hat hst
    have hat : s.builder.At m := hat
    have hemitted : Emitted s.builder.code (s.builder.emitReg i).2.code code := hcode.emitted
    have hfetch := hat.fetch hemitted (emit_there s.builder _)
    have hstep := (Machine.step_of_fetch hfetch).trans (hexec m)
    obtain ⟨hblock, hindex, hmem, hworld, hcalls⟩ := hg m
    have hat' := hat.emitted (i := i s.builder.nextReg) hblock hindex
    refine Simulates.after (Reaches.one hstep)
      (Simulates.pure ⟨⟨hat'.block, hat'.index⟩, ?_, rfl, ?_⟩)
    · exact hst.same (fun b _ => congrFun hmem b.2) hworld hcalls
    · refine Machine.exec_kept (hexec m) fun r hr => ?_
      rw [hdst] at hr
      exact Nat.le_of_eq (Option.some.inj hr)

theorem stable_val {n : Nat} {v : Operand D} (hv : v.Below n) :
    ∀ m m' : Machine D W, m.Kept n m' → m'.val v = m.val v :=
  fun _ _ hkept => hkept.val hv

/-- An instruction whose result is a double. -/
theorem computes_reg {i : Nat → Instr D} {r : Nat} (h : emitReg i s = .ok r s₁)
    (hs : Ready c s scope) (hdst : ∀ r, (i r).dst = some r) (htargets : ∀ r, (i r).targets = [])
    {x : Machine D W → D}
    (hexec : ∀ m : Machine D W, m.exec c.ops c.device (i r) = some (m.setReg r (x m))) :
    Computes c N s s₁ scope scope (fun m st => some (x m, st)) (fun m => m.val (.reg r)) := by
  have hall := computes_emitReg (N := N) h hs hdst htargets hexec
    (fun m => silent_setReg m r (x m)) (stable_val (v := .reg r) (Nat.lt_succ_self r))
  refine hall.congr fun m st => ?_
  simp [Machine.val, Machine.setReg]

theorem computes_const (hs : Ready c s scope) (x : D) : Computes c N s s scope scope
    (fun _ st => some (x, st)) (fun m => m.val (.const x)) :=
  Target.Computes.refl hs x

/-- An operation on doubles; one on constants is folded. -/
theorem computes_createFBin {op : FBinOp} {lhs rhs v : Operand D}
    (h : build (·.createFBin c.ops op lhs rhs) s = .ok v s₁) (hs : Ready c s scope) :
    Computes c N s s₁ scope scope
      (fun m st => some (c.ops.fbin op (m.val lhs) (m.val rhs), st)) (fun m => m.val v) := by
  have hreg : ∀ {r}, emitReg (.fbin op · lhs rhs) s = .ok r s₁ → Computes c N s s₁ scope scope
      (fun m st => some (c.ops.fbin op (m.val lhs) (m.val rhs), st)) (fun m => m.val (.reg r)) :=
    fun hemit => computes_reg hemit hs (fun _ => rfl) (fun _ => rfl) fun _ => rfl
  cases lhs with
  | reg l =>
    cases h
    exact hreg rfl
  | const x =>
    cases rhs with
    | reg r =>
      cases h
      exact hreg rfl
    | const y =>
      cases h
      exact computes_const hs (c.ops.fbin op x y)

theorem computes_createFCmp {pred : FCmpPred} {lhs rhs : Operand D} {flag : Flag}
    (h : build (·.createFCmp c.ops pred lhs rhs) s = .ok flag s₁) (hs : Ready c s scope) :
    Computes c N s s₁ scope scope
      (fun m st => some (Builder.fcmp c.ops pred (m.val lhs) (m.val rhs), st))
      (fun m => m.flag flag) := by
  have hreg : ∀ {r}, emitReg (.fcmp pred · lhs rhs) s = .ok r s₁ → Computes c N s s₁ scope scope
      (fun m st => some (Builder.fcmp c.ops pred (m.val lhs) (m.val rhs), st))
      (fun m => m.flag (.reg r)) := by
    intro r hemit
    have hread : ∀ m m' : Machine D W, m.Kept (r + 1) m' → m'.flag (.reg r) = m.flag (.reg r) :=
      fun m m' hkept => hkept.flags r (Nat.lt_succ_self r)
    have hall := computes_emitReg (c := c) (N := N) hemit hs (fun _ => rfl) (fun _ => rfl)
      (fun _ => rfl) (fun _ => ⟨rfl, rfl, rfl, rfl, rfl⟩) hread
    refine hall.congr fun m st => ?_
    simp [Machine.flag, Machine.setFlag]
  cases lhs with
  | reg l =>
    cases h
    exact hreg rfl
  | const x =>
    cases rhs with
    | reg r =>
      cases h
      exact hreg rfl
    | const y =>
      cases h
      exact Target.Computes.refl hs (Builder.fcmp c.ops pred x y)

theorem computes_createUIToFP {flag : Flag} {v : Operand D}
    (h : build (·.createUIToFP c.ops flag) s = .ok v s₁) (hs : Ready c s scope) :
    Computes c N s s₁ scope scope (fun m st => some (c.ops.uitofp (m.flag flag), st))
      (fun m => m.val v) := by
  cases flag with
  | const b =>
    cases h
    exact computes_const hs (c.ops.uitofp b)
  | reg k =>
    have hemit : emitReg (.uitofp · (.reg k)) s = .ok s.builder.nextReg s₁ := by
      cases h
      rfl
    have hall := computes_reg (c := c) (N := N) hemit hs (fun _ => rfl) (fun _ => rfl) fun _ => rfl
    cases h
    exact hall

theorem computes_createFPToSI {src : Operand D} {n : IntOperand}
    (h : build (·.createFPToSI c.ops src) s = .ok n s₁) (hs : Ready c s scope) :
    Computes c N s s₁ scope scope (fun m st => some (c.ops.fptosi (m.val src), st))
      (fun m => m.int n) := by
  cases src with
  | const x =>
    cases h
    exact Target.Computes.refl hs (c.ops.fptosi x)
  | reg k =>
    have hemit : emitReg (.fptosi · (.reg k)) s = .ok s.builder.nextReg s₁ := by
      cases h
      rfl
    have hread : ∀ m m' : Machine D W, m.Kept (s.builder.nextReg + 1) m' →
        m'.int (.reg s.builder.nextReg) = m.int (.reg s.builder.nextReg) :=
      fun m m' hkept => hkept.ints s.builder.nextReg (Nat.lt_succ_self _)
    have hall := computes_emitReg (c := c) (N := N) hemit hs (fun _ => rfl) (fun _ => rfl)
      (fun _ => rfl) (fun _ => ⟨rfl, rfl, rfl, rfl, rfl⟩) hread
    cases h
    refine hall.congr fun m st => ?_
    simp [Machine.int, Machine.setInt]

/-- A load of the slot of a name. -/
theorem computes_createLoad {name : Name} {cell : Owned} {v : Operand D}
    (hname : s.namedValues name = some cell) (h : build (·.createLoad cell) s = .ok v s₁)
    (hs : Ready c s scope) :
    Computes c N s s₁ scope scope (fun _ st => (st.read name).map fun x => (x, st))
      (fun m => m.val v) := by
  have hemit : emitReg (.load · cell) s = .ok s.builder.nextReg s₁ := by
    cases h
    rfl
  have hload := computes_reg (c := c) (N := N) hemit hs (fun _ => rfl) (fun _ => rfl)
    (x := fun m => m.mem cell) fun _ => rfl
  cases h
  refine ⟨hload.grown, hload.ready, hload.stable, ?_⟩
  intro code hcode m st hat hst
  have hat₀ : s.builder.At m := hat
  have hemitted : Emitted s.builder.code (s.builder.emitReg (.load · cell)).2.code code :=
    hcode.emitted
  have hfetch := hat₀.fetch hemitted (emit_there s.builder _)
  have hown : cell.function = c.number :=
    hcode.own m.block _ (List.mem_of_getElem? hfetch) cell (List.mem_singleton.mpr rfl)
  have hfound : ownNames c.number s name = some cell := by
    rw [ownNames, hname]
    exact Option.filter_some_pos (decide_eq_true hown)
  have hread : st.read name = some (m.mem cell) := hst.read hs hfound
  rw [hread]
  exact hload.simulates code hcode m st hat hst

/-- A store to the slot of a name. -/
theorem computes_store {name : Name} {cell : Owned} {val : Operand D}
    (hname : s.namedValues name = some cell) (h : emit (.store val cell) s = .ok () s₁)
    (hval : InRegs val s.builder) (hs : Ready c s scope) :
    Computes c N s s₁ scope scope
      (fun m st => (st.write name (m.val val)).map fun st => (m.val val, st))
      (fun m => m.val val) := by
  cases h
  have hgrown : s.builder.Grown (s.builder.emit (.store val cell)) :=
    (Builder.Grown.refl hs.builder_wf).emit rfl (List.forall_mem_nil _)
  constructor
  · exact hs.adds hgrown rfl (Nat.le_refl _)
  · exact hs.built hgrown rfl (Nat.le_refl _)
  · exact stable_val hval
  · intro code hcode m st hat hst
    have hat : s.builder.At m := hat
    have hemitted : Emitted s.builder.code (s.builder.emit (.store val cell)).code code :=
      hcode.emitted
    have hfetch := hat.fetch hemitted (emit_there s.builder _)
    have hown : cell.function = c.number :=
      hcode.own m.block _ (List.mem_of_getElem? hfetch) cell (List.mem_singleton.mpr rfl)
    have hfound : ownNames c.number s name = some cell := by
      rw [ownNames, hname]
      exact Option.filter_some_pos (decide_eq_true hown)
    have hstep : m.step c.ops c.device code = some (m.setCell cell (m.val val)) :=
      Machine.step_of_fetch hfetch
    obtain ⟨st', hwrite, hst'⟩ : ∃ st', st.write name (m.val val) = some st' ∧
        (target c).Agrees scope st' (m.setCell cell (m.val val)) := hst.write hs hfound rfl rfl rfl
    have hkept : Machine.Kept s.builder.nextReg m (m.setCell cell (m.val val)) := .of_eq rfl rfl rfl
    rw [hwrite]
    refine Simulates.after (Reaches.one hstep)
      (Simulates.pure ⟨hat.emitted rfl rfl, hst', hkept.val hval, hkept⟩)

theorem computes_createCall {callee : Name} {args : List (Operand D)} {r : Nat}
    (h : emitReg (.call · callee args) s = .ok r s₁) (hs : Ready c s scope) :
    Computes c N s s₁ scope scope
      (fun m => callFunction c.device.call callee (args.map m.val)) (fun m => m.val (.reg r)) := by
  cases h
  have hgrown : s.builder.Grown (s.builder.emitReg (.call · callee args)).2 :=
    (Builder.Grown.refl hs.builder_wf).emitReg (fun _ => rfl) fun _ => rfl
  constructor
  · exact hs.adds hgrown rfl (Nat.le_refl _)
  · exact hs.built hgrown rfl (Nat.le_refl _)
  · exact stable_val (v := .reg s.builder.nextReg) (Nat.lt_succ_self _)
  · intro code hcode m st hat hst
    have hat : s.builder.At m := hat
    have hemitted : Emitted s.builder.code (s.builder.emitReg (.call · callee args)).2.code code :=
      hcode.emitted
    have hfetch := hat.fetch hemitted (emit_there s.builder _)
    have hworld : st.world = m.world := hst.world
    rw [callFunction, hworld]
    cases hcall : c.device.call callee (args.map m.val) m.world with
    | none => exact Simulates.of_blocked (.call _ callee args hfetch hcall)
    | some x =>
      let after : Machine D W := { m.setReg s.builder.nextReg x.1 with
        world := x.2, calls := m.calls ++ [(callee, args.map m.val)] }
      have hexec : m.exec c.ops c.device (.call s.builder.nextReg callee args) = some after := by
        show Option.map _ (c.device.call callee (args.map m.val) m.world) = _
        rw [hcall]
        rfl
      have hat' : (s.builder.emit (.call s.builder.nextReg callee args)).At after :=
        hat.emitted rfl rfl
      refine Simulates.after (Reaches.one ((Machine.step_of_fetch hfetch).trans hexec))
        (Simulates.pure ⟨⟨hat'.block, hat'.index⟩, ?_, if_pos rfl, ?_⟩)
      · exact ⟨hst.locals, rfl, congrArg (· ++ [(callee, args.map m.val)]) hst.calls⟩
      · exact Machine.exec_kept hexec fun r hr => Nat.le_of_eq (Option.some.inj hr)

end

end AroundTheWorld.Cairo
