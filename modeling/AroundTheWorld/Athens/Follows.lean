import AroundTheWorld.Agreement.BackEnd
import AroundTheWorld.Athens.Emits
import AroundTheWorld.Llvm.Run

/-!
# Athens follows the reference

Athens as a back end of the reference: its cells are the slots of the function, in the
order in which they are allocated. What it emits piece by piece, up to the branches of an
`if`, does what the reference does.
-/

namespace AroundTheWorld.Athens

open AroundTheWorld.Base AroundTheWorld.Lex AroundTheWorld.Llvm AroundTheWorld.Agreement

variable {D W : Type}

/-- The generator in a scope. -/
structure AthensState.Placed (s : AthensState D) (sc : NameScope) (cells : List Nat) : Prop where
  wf : s.builder.Wf
  scope : sc.Placed cells s.namedValues
  old : ∀ k ∈ cells, k < s.builder.nextCell

abbrev athens (ops : FloatOps D) (callees : Callees D Name W) :
    BackEnd (AthensState D) (Builder D Name) (Machine D Name W) Nat (Instr D Name) D W where
  builder := AthensState.builder
  code := Builder.code
  step := Machine.step ops callees
  mem := Machine.mem
  world := Machine.world
  calls := Machine.calls
  At b _ m := b.At m
  Calls := Machine.Calls callees
  Placed := AthensState.Placed
  Grown := Builder.Grows
  Kept b m m' := ∀ r < b.nextReg, m'.regs r = m.regs r
  grown_refl _ := .refl _
  grown_trans := .trans
  grown_code := Builder.Grows.prefix_
  kept_refl _ _ := rfl
  kept_trans hgrown h h' r hr := (h' r (Nat.lt_of_lt_of_le hr hgrown.reg_le)).trans (h r hr)
  stops := Machine.Calls.step

section
variable {ops : FloatOps D} {callees : Callees D Name W} {s s₁ s₂ s₃ : AthensState D}
  {sc sc₁ sc₂ : NameScope} {cells cells₁ cells₂ : List Nat} {α β : Type}

/-! ## Pieces of code -/

theorem AthensState.Placed.built (hs : s.Placed sc cells) {b : Builder D Name} (hwf : b.Wf)
    (hle : s.builder.nextCell ≤ b.nextCell) : (s.withBuilder b).Placed sc cells :=
  ⟨hwf, hs.scope, fun k hk => Nat.lt_of_lt_of_le (hs.old k hk) hle⟩

theorem stands_of_eq {b b' : Builder D Name} {code : Code D Name} {st : State D W}
    {m m' : Machine D Name W} (hst : (athens ops callees).Stands b cells code st m)
    (hat : b'.At m') (hmem : m'.mem = m.mem) (hworld : m'.world = m.world)
    (hcalls : m'.calls = m.calls) : (athens ops callees).Stands b' cells code st m' := by
  refine ⟨hat, ?_⟩
  show st.Matches cells m'.mem m'.world m'.calls
  rw [hmem, hworld, hcalls]
  exact hst.mem

variable (ops callees)

/-- Instructions that write registers only. -/
theorem performs_run (hs : s.Placed sc cells) {b : Builder D Name} (hgrows : s.builder.Grows b)
    (hwf : b.Wf) {x read : Machine D Name W → β}
    (hrun : ∀ code m, s.builder.At m → Base.Emitted s.builder.code b.code code →
      ∃ m', Reaches (Machine.step ops callees code) m m' ∧ b.At m' ∧ read m' = x m ∧
        m.Kept s.builder.nextReg m') :
    (athens ops callees).Performs s (s.withBuilder b) sc cells cells (fun m st => .done (x m) st)
      read where
  grown := hgrows
  cells := List.prefix_rfl
  placed := hs.built hwf hgrows.cell_le
  follows := by
    intro final code _ _ hem m st hst
    obtain ⟨m', hreach, hat, hread, hkept⟩ := hrun code m hst.at_ hem
    have hst' := stands_of_eq hst hat hkept.mem hkept.world hkept.calls
    exact .after hreach (.done ⟨hst', hread, hkept.regs⟩)

theorem performs_const (hs : s.Placed sc cells) (x : D) :
    (athens ops callees).Performs s s sc cells cells (fun _ st => .done x st)
      (·.val (.const x)) :=
  BackEnd.Performs.refl hs x

theorem performs_createFBin (hs : s.Placed sc cells) (op : FBinOp) (l r : Operand D) :
    (athens ops callees).Performs s (s.withBuilder (Builder.createFBin ops op s.builder l r).2) sc
      cells cells (fun m st => .done (ops.fbin op (m.val l) (m.val r)) st)
      (·.val (Builder.createFBin ops op s.builder l r).1) :=
  performs_run ops callees hs (.createFBin ops op _ l r) (hs.wf.createFBin ops op l r)
    fun _ _ hm hem => Builder.run_createFBin ops callees hm op l r hem

/-- A comparison, whose result is a flag. -/
theorem performs_createFCmp (hs : s.Placed sc cells) (pred : FCmpPred) (l r : Operand D) :
    (athens ops callees).Performs s (s.withBuilder (Builder.createFCmp ops pred s.builder l r).2)
      sc cells cells (fun m st => .done (ops.fcmp pred (m.val l) (m.val r)) st)
      (·.flag (Builder.createFCmp ops pred s.builder l r).1) :=
  performs_run ops callees hs (.createFCmp ops pred _ l r) (hs.wf.createFCmp ops pred l r)
    fun _ _ hm hem => Builder.run_createFCmp ops callees hm pred l r hem

theorem performs_createUIToFP (hs : s.Placed sc cells) (flag : Flag) :
    (athens ops callees).Performs s (s.withBuilder (Builder.createUIToFP ops s.builder flag).2) sc
      cells cells (fun m st => .done (ops.uitofp (m.flag flag)) st)
      (·.val (Builder.createUIToFP ops s.builder flag).1) :=
  performs_run ops callees hs (.createUIToFP ops _ flag) (hs.wf.createUIToFP ops flag)
    fun _ _ hm hem => Builder.run_createUIToFP ops callees hm flag hem

/-- A load of a cell whose value is known. -/
theorem performs_createLoad (hs : s.Placed sc cells) {k c : Nat} (hk : cells[c]? = some k)
    {name : Name} (hname : sc.table name = some c) :
    (athens ops callees).Performs s (s.withBuilder (s.builder.createLoad k).2) sc cells cells
      (fun _ st => Agreement.evalVariable name sc st) (·.val (s.builder.createLoad k).1) := by
  have hload := performs_run ops callees hs
    ((Builder.Grows.emit s.builder (.load s.builder.nextReg k)).trans (.bumpReg _))
    (hs.wf.emit _).bumpReg fun _ _ hm hem => Builder.run_createLoad ops callees hm k hem
  refine ⟨hload.grown, hload.cells, hload.placed, ?_⟩
  intro final code hfinal hnodup hem m st hst
  have hrun := hload.follows final code hfinal hnodup hem m st hst
  rw [Agreement.evalVariable, hname, Option.bind_some]
  cases hx : st.mem c with
  | none => trivial
  | some x =>
    have hmem : m.mem k = x := hst.mem.mem c k x (getElem?_of_le hfinal hk) hx
    rwa [hmem] at hrun

/-- A store into a cell. -/
theorem performs_createStore (hs : s.Placed sc cells) {k c : Nat} (hk : cells[c]? = some k)
    (val : Operand D) :
    (athens ops callees).Performs s (s.withBuilder (s.builder.createStore val k)) sc cells cells
      (fun m st => .done (m.val val) (st.write c (m.val val))) (·.val val) where
  grown := .emit _ _
  cells := List.prefix_rfl
  placed := hs.built (hs.wf.emit _) (Nat.le_refl _)
  follows := by
    intro final code hfinal hnodup hem m st hst
    obtain ⟨hreach, hat⟩ := Builder.run_createStore ops callees hst.at_ val k hem
    have hmem := hst.mem.write hnodup (getElem?_of_le hfinal hk) (m.val val)
    refine .after hreach (.done ⟨⟨hat, hmem⟩, ?_, fun _ _ => rfl⟩)
    cases val <;> rfl

theorem performs_createCall (hs : s.Placed sc cells) (callee : Name) (args : List (Operand D)) :
    (athens ops callees).Performs s (s.withBuilder (s.builder.createCall callee args).2) sc cells
      cells (fun m st => Agreement.evalCall callees callee (args.map m.val) st)
      (·.val (s.builder.createCall callee args).1) where
  grown := (Builder.Grows.emit _ _).trans (.bumpReg _)
  cells := List.prefix_rfl
  placed := hs.built (hs.wf.emit _).bumpReg (Nat.le_refl _)
  follows := by
    intro final code _ _ hem m st hst
    obtain ⟨hmem, hworld, hcalls⟩ := hst.mem
    have hat : s.builder.At m := hst.at_
    rw [Agreement.evalCall, ← hworld]
    cases hcall : callees callee (args.map m.val) m.world with
    | none =>
      have hlost : m.Calls callees code (callee, args.map m.val) :=
        ⟨⟨_, args, hat.fetch hem, rfl⟩, hcall⟩
      exact BackEnd.Waits.follows (T := athens ops callees) ⟨hlost, hst.mem⟩
    | some r =>
      obtain ⟨m', hreach, hat', hval, hregs, hmem', hworld', hcalls'⟩ :=
        Builder.run_createCall ops callees hat hcall hem
      refine .after hreach (.done ⟨⟨hat', ?_, hworld', ?_⟩, hval, hregs⟩)
      · show ∀ c k x, final[c]? = some k → st.mem c = some x → m'.mem k = x
        rw [hmem']
        exact hmem
      · show m'.calls = _
        rw [hcalls', show m.calls = st.calls from hcalls]

/-- A new cell, of which nothing is known. -/
theorem performs_createAlloca (hs : s.Placed sc cells) :
    (athens ops callees).Performs s (s.withBuilder s.builder.createAlloca.2) sc.allocate cells
      (cells ++ [s.builder.nextCell]) (fun _ st => .done () st) (fun _ => ()) where
  grown := .createAlloca _
  cells := List.prefix_append _ _
  placed := by
    have hfresh : s.builder.nextCell ∉ cells := fun h => Nat.lt_irrefl _ (hs.old _ h)
    refine ⟨hs.wf.createAlloca, hs.scope.allocate hfresh, fun k hk => ?_⟩
    rcases List.mem_append.mp hk with hk | hk
    · exact Nat.lt_succ_of_lt (hs.old k hk)
    · rw [List.mem_singleton.mp hk]
      exact Nat.lt_succ_self _
  follows _ _ _ _ _ m _ hst :=
    .done ⟨stands_of_eq hst ⟨hst.at_.block, hst.at_.index⟩ rfl rfl rfl, rfl, fun _ _ => rfl⟩

/-- A value in a new cell, and a name for the cell. -/
theorem performs_bound (hs : s.Placed sc cells) {x : Operand D} (hx : x.Below s.builder.nextReg)
    (name : Name) :
    sc.allocate.Placed (cells ++ [s.builder.nextCell]) s.namedValues ∧
      (athens ops callees).Performs s
        ((s.withBuilder (s.builder.createAlloca.2.createStore x s.builder.nextCell)).withName name
          (some s.builder.nextCell))
        (sc.bind name) cells (cells ++ [s.builder.nextCell])
        (fun m st => .done (m.val x) (st.write sc.next (m.val x))) (·.val x) := by
  have h₁ := performs_createAlloca ops callees hs
  have h₂ := performs_createStore ops callees h₁.placed h₁.placed.scope.last x
  have hall := h₁.bind h₂ (k := fun m _ st => .done (m.val x) (st.write sc.next (m.val x)))
    fun m m₁ hkept st => by rw [hx.val_eq hkept]
  refine ⟨h₁.placed.scope, hall.renamed ?_ rfl⟩
  exact ⟨h₂.placed.wf, h₂.placed.scope.bind name, h₂.placed.old⟩

/-! ## Operators -/

/-- The `switch` of `BinaryExprAST::codegen`, up to its default. -/
theorem performs_binaryOp {op : Byte} {l r v : Operand D} (hop : Arithmetic op)
    (h : binaryOp ops op l r s = .ok v s₁) (hs : s.Placed sc cells) :
    (athens ops callees).Performs s s₁ sc cells cells
      (fun m st => Agreement.evalBinary ops op (m.val l) (m.val r) st) (·.val v) := by
  rcases hop with rfl | rfl | rfl | rfl
  · cases h
    exact performs_createFBin ops callees hs .fadd l r
  · cases h
    exact performs_createFBin ops callees hs .fsub l r
  · cases h
    exact performs_createFBin ops callees hs .fmul l r
  · cases h
    have h₁ := performs_createFCmp ops callees hs .ult l r
    have h₂ := performs_createUIToFP ops callees h₁.placed
      (Builder.createFCmp ops .ult s.builder l r).1
    exact h₁.bind h₂ (k := fun _ b st => .done (ops.uitofp b) st) fun _ _ _ _ => rfl

end

end AroundTheWorld.Athens
