import AroundTheWorld.Cairo.Target

/-!
# Cairo's code does what expressions mean

The pieces of code for everything but branches and loops, run from the insertion point
where their generation started. One lemma for each construct, for all scopes and states of
the generator at once.
-/

namespace AroundTheWorld.Cairo

open AroundTheWorld.Base AroundTheWorld.Lex AroundTheWorld.Llvm AroundTheWorld.Counted
open AroundTheWorld.Athens (ExprAST Name noRepeat noRepeatVar noRepeatArgs_iff)

variable {D W : Type}

/-! ## The dialect -/

section
variable (ops : IntOps D) (device : Device D W) (pointer : Nat → Option Owned)

/-- A register of the device. -/
def evalRegister (intrinsic : Text) : Meaning D W := fun st =>
  some (ops.sitofp (device.special intrinsic st.world), st)

/-- `cairoLoad`: the pointer is chosen by a literal, which is not evaluated. -/
def evalLoad (args : List (ExprAST D)) (meanings : List (Meaning D W)) : Meaning D W :=
  match args, meanings with
  | [ptrArg, _], [_, elem] => fun st =>
    (literalIndex ops ptrArg).bind fun ptrIdx =>
    (elem st).bind fun r =>
    (pointer ptrIdx).bind fun ptr =>
    (device.load ptr (ops.fptosi r.1) r.2.world).map fun x => (x, r.2)
  | _, _ => fun _ => none

/-- `cairoStore`: its value is what has been stored. -/
def evalStore (args : List (ExprAST D)) (meanings : List (Meaning D W)) : Meaning D W :=
  match args, meanings with
  | [ptrArg, _, _], [_, elem, val] => fun st =>
    (literalIndex ops ptrArg).bind fun ptrIdx =>
    (elem st).bind fun r =>
    (val r.2).bind fun v =>
    (pointer ptrIdx).bind fun ptr =>
    (device.store ptr (ops.fptosi r.1) v.1 v.2.world).map fun world => (v.1, { v.2 with world })
  | _, _ => fun _ => none

def evalCall (callee : Name) (args : List (ExprAST D)) (meanings : List (Meaning D W)) :
    Meaning D W :=
  match findRegisterBuiltin callee with
  | some intrinsic => evalRegister ops device intrinsic
  | none =>
    if callee = text "cairoLoad" then evalLoad ops device pointer args meanings
    else if callee = text "cairoStore" then evalStore ops device pointer args meanings
    else fun st => (evalAll meanings st).bind fun r => callFunction device.call callee r.1 r.2

/-- Loops of Cairo test their end behind every iteration, and count in 64 bits. -/
def dialect : Dialect D W where
  ops := ops
  noStep := ops.zero
  first _ _ := true
  next i step := wrap64 (i + step)
  unary op x st := if op = byte '-' then some (ops.sub ops.zero x, st) else none
  call := evalCall ops device pointer

end

section
variable {c : Setting D W} {N : Nat} {s s' s₁ s₂ s₃ : CairoState D} {scope : List (Name × Owned)}

/-- The dialect of the functions in a setting. -/
abbrev Setting.dialect (c : Setting D W) : Dialect D W := Cairo.dialect c.ops c.device c.pointer

/-- What is generated for the expression does what it means. -/
abbrev Preserved (c : Setting D W) (N : Nat) (e : ExprAST D) : Prop :=
  (target c).Compiles N (eval c.dialect N) (gen c.ops) (fun v m => m.val v) e

/-! ## Operators -/

/-- The `switch` of `genBinary`, on two values. -/
theorem computes_binaryOp {op : Byte} {lhs rhs v : Operand D}
    (h : binaryOp c.ops op lhs rhs s = .ok v s₁) (hs : Ready c s scope) :
    Computes c N s s₁ scope scope
      (fun m => evalBinary c.dialect op (m.val lhs) (m.val rhs)) (fun m => m.val v) := by
  unfold binaryOp at h
  unfold evalBinary
  split at h
  case isTrue hadd =>
    refine (computes_createFBin h hs).congr fun m st => ?_
    rw [if_pos hadd]
    rfl
  rename_i hadd
  split at h
  case isTrue hsub =>
    refine (computes_createFBin h hs).congr fun m st => ?_
    rw [if_neg hadd, if_pos hsub]
    rfl
  rename_i hsub
  split at h
  case isTrue hmul =>
    refine (computes_createFBin h hs).congr fun m st => ?_
    rw [if_neg hadd, if_neg hsub, if_pos hmul]
    rfl
  rename_i hmul
  split at h
  case isFalse => cases h
  rename_i hlt
  obtain ⟨cmp, s₂, hcmp, h⟩ := Gen.bind_ok h
  have h₂ := computes_createFCmp (N := N) hcmp hs
  have h₃ := computes_createUIToFP (N := N) h h₂.ready
  have hall := h₂.bind h₃ (k := fun _ b st => some (c.ops.uitofp b, st)) fun _ _ _ _ => rfl
  refine hall.congr fun m st => ?_
  rw [if_neg hadd, if_neg hsub, if_neg hmul, if_pos hlt]
  rfl

theorem preserved_variable (name : Name) : Preserved c N (.variableExpr name) := by
  intro s v s' scope h _ hs
  rw [gen] at h
  obtain ⟨it, s₁, hit, h⟩ := Gen.bind_ok h
  cases hit
  cases hfound : s.namedValues name with
  | none =>
    rw [hfound] at h
    cases h
  | some cell =>
    rw [hfound] at h
    refine (computes_createLoad hfound h hs).congr fun m st => ?_
    rw [eval]

theorem preserved_unary {op : Byte} {operand : ExprAST D} (ih : Preserved c N operand) :
    Preserved c N (.unaryExpr op operand) := by
  intro s v s' scope h hrep hs
  rw [gen, genUnary] at h
  rw [noRepeat] at hrep
  split at h
  case isFalse => cases h
  rename_i hop
  obtain ⟨x, s₁, hx, h⟩ := Gen.bind_ok h
  have h₁ := ih s x s₁ scope hx hrep hs
  have h₂ := computes_createFBin (N := N) h h₁.ready
  refine (h₁.bind h₂ (k := fun _ x => c.dialect.unary op x) fun m m₁ _ st => ?_).congr
    fun m st => ?_
  · exact (if_pos hop).symm
  · rw [eval]

theorem preserved_assignment {lhs rhs : ExprAST D} (ih : Preserved c N rhs) :
    Preserved c N (.binaryExpr (byte '=') lhs rhs) := by
  intro s v s' scope h hrep hs
  rw [gen, if_pos rfl] at h
  rw [noRepeat, Bool.and_eq_true] at hrep
  cases lhs with
  | variableExpr name =>
    obtain ⟨x, s₁, hx, h⟩ := Gen.bind_ok h
    obtain ⟨it, s₂, hit, h⟩ := Gen.bind_ok h
    cases hit
    cases hfound : s₁.namedValues name with
    | none =>
      rw [hfound] at h
      cases h
    | some cell =>
      rw [hfound] at h
      obtain ⟨_, s₃, hstore, h⟩ := Gen.bind_ok h
      cases h
      have h₁ := ih s v s₁ scope hx hrep.2 hs
      obtain ⟨-, hin⟩ := gen_extends c.ops rhs s v s₁ (Ready.builder_wf hs) hx
      have h₂ := computes_store (N := N) hfound hstore hin h₁.ready
      refine (h₁.bind h₂ (k := fun _ x st => (st.write name x).map fun st => (x, st))
        fun _ _ _ _ => rfl).congr fun m st => ?_
      rw [eval]
      exact if_pos rfl
  | _ => cases h

theorem preserved_binary {op : Byte} {lhs rhs : ExprAST D} (ihl : Preserved c N lhs)
    (ihr : Preserved c N rhs) : Preserved c N (.binaryExpr op lhs rhs) := by
  by_cases hop : op = byte '='
  · subst hop
    exact preserved_assignment ihr
  intro s v s' scope h hrep hs
  rw [gen, if_neg hop] at h
  rw [noRepeat, Bool.and_eq_true] at hrep
  obtain ⟨l, s₁, hl, h⟩ := Gen.bind_ok h
  obtain ⟨r, s₂, hr, h⟩ := Gen.bind_ok h
  cases l with
  | none => cases h
  | some x =>
    cases r with
    | none => cases h
    | some y =>
      have hx := Gen.attempt_some hl
      have h₁ := ihl s x s₁ scope hx hrep.1 hs
      have h₂ := ihr s₁ y s₂ scope (Gen.attempt_some hr) hrep.2 h₁.ready
      obtain ⟨-, hin⟩ := gen_extends c.ops lhs s x s₁ (Ready.builder_wf hs) hx
      have h₃ := computes_binaryOp (N := N) h h₂.ready
      -- the left value has survived the code of the right side
      have hrest := h₂.bind h₃ (k := fun m y st => evalBinary c.dialect op (m.val x) y st)
        fun m m₁ hkept st => by
          rw [← Machine.Kept.val hkept hin]
      refine (h₁.bind hrest (k := fun _ x st => (eval c.dialect N rhs st).bind fun r =>
        evalBinary c.dialect op x r.1 r.2) fun _ _ _ _ => rfl).congr fun m st => ?_
      rw [eval]
      exact if_neg hop

/-! ## Lists of expressions -/

theorem computes_args {args : List (ExprAST D)} (ih : ∀ a ∈ args, Preserved c N a)
    (hrep : ∀ a ∈ args, noRepeat a = true) {vals : List (Operand D)}
    (h : genAll (genArgs c.ops args) s = .ok vals s₁) (hs : Ready c s scope) :
    Computes c N s s₁ scope scope (fun _ => evalAll (evals c.dialect N args))
      (fun m => vals.map m.val) := by
  induction args generalizing s vals with
  | nil =>
    rw [genArgs] at h
    cases h
    refine (Target.Computes.refl hs []).congr fun m st => ?_
    rw [evals, evalAll]
  | cons arg args ihs =>
    rw [genArgs] at h
    obtain ⟨x, s₂, hx, h⟩ := Gen.bind_ok h
    obtain ⟨xs, s₃, hxs, h⟩ := Gen.bind_ok h
    cases h
    have h₂ := ih arg (List.mem_cons_self ..) s x s₂ scope hx (hrep arg (List.mem_cons_self ..)) hs
    have h₃ := ihs (fun a ha => ih a (List.mem_cons_of_mem _ ha))
      (fun a ha => hrep a (List.mem_cons_of_mem _ ha)) hxs h₂.ready
    obtain ⟨-, hin⟩ := gen_extends c.ops arg s x s₂ (Ready.builder_wf hs) hx
    have hin₃ : InRegs x s₁.builder := Operand.Below.mono hin h₃.grown.grown.regs
    have hrest : Computes c N s₂ s₁ scope scope
        (fun m st => (evalAll (evals c.dialect N args) st).map fun r => (m.val x :: r.1, r.2))
        (fun m => (x :: xs).map m.val) := by
      apply h₃.reading (f := fun m ys => m.val x :: ys)
      · exact fun _ _ => rfl
      · intro m m₁ hkept
        rw [List.map_cons, Machine.Kept.val hkept hin]
      · intro m m' hkept
        rw [List.map_cons, List.map_cons, Machine.Kept.val hkept hin₃]
        exact congrArg (m.val x :: ·) (h₃.stable m m' hkept)
    refine (h₂.bind hrest (k := fun _ x st => (evalAll (evals c.dialect N args) st).map
      fun r => (x :: r.1, r.2)) fun _ _ _ _ => rfl).congr fun m st => ?_
    rw [evals, evalAll]

/-! ## Built-ins -/

theorem computes_register {intrinsic : Text} {v : Operand D}
    (h : genRegisterBuiltin intrinsic s = .ok v s₁) (hs : Ready c s scope) :
    Computes c N s s₁ scope scope (fun _ => evalRegister c.ops c.device intrinsic)
      (fun m => m.val v) := by
  obtain ⟨_, s₂, hdeclare, h⟩ := Gen.bind_ok h
  cases hdeclare
  obtain ⟨val, s₃, hval, h⟩ := Gen.bind_ok h
  obtain ⟨reg, s₄, hreg, h⟩ := Gen.bind_ok h
  cases h
  have hs₂ : Ready c { s with builtins := if s.builtins.contains intrinsic then s.builtins
      else intrinsic :: s.builtins } scope := hs.grown ((target c).grown_refl hs.wf) rfl
  have hread : ∀ m m' : Machine D W, m.Kept (val + 1) m' → m'.ints val = m.ints val :=
    fun m m' hkept => hkept.ints val (Nat.lt_succ_self val)
  have h₁ := computes_emitReg (c := c) (N := N) hval hs₂ (fun _ => rfl) (fun _ => rfl)
    (g := fun m => m.setInt val (c.device.special intrinsic m.world)) (fun _ => rfl)
    (fun _ => ⟨rfl, rfl, rfl, rfl, rfl⟩) hread
  have h₂ := computes_reg (c := c) (N := N) hreg h₁.ready (fun _ => rfl) (fun _ => rfl)
    (x := fun m => c.ops.sitofp (m.ints val)) fun _ => rfl
  have hall := h₁.bind h₂ (k := fun _ n st => some (c.ops.sitofp n, st)) fun _ _ _ _ => rfl
  refine ⟨hall.grown, hall.ready, hall.stable, ?_⟩
  intro code hcode m st hat hst
  have hrun := hall.simulates code hcode m st hat hst
  have hworld : st.world = m.world := hst.world
  have hint : (m.setInt val (c.device.special intrinsic m.world)).ints val =
      c.device.special intrinsic st.world := by
    simp [Machine.setInt, hworld]
  rw [hint] at hrun
  exact hrun

/-- The pointer that an element is addressed with is the function's own. -/
theorem Setting.pointer_of_own {ptrIdx : Nat} {param : KernelParam}
    (hparam : s.kernelParams[ptrIdx]? = some param) (hs : Ready c s scope)
    (hown : param.ptr.function = c.number) : c.pointer ptrIdx = some param.ptr := by
  have hparams : s.kernelParams = c.params := hs.wf.2.2
  rw [Setting.pointer, ← hparams, hparam]
  exact Option.filter_some_pos (decide_eq_true hown)

/-- The address of an element, and what is done with it there. -/
theorem reaches_gep {ptrIdx p : Nat} {param : KernelParam} {elemI64 : IntOperand}
    (hparam : s.kernelParams[ptrIdx]? = some param)
    (h : emitReg (.gep · param.ptr elemI64) s = .ok p s₁) (hs : Ready c s scope) {code : Code D}
    {b : Builder D × List KernelParam} (hcode : Within c code (s.builder, s.kernelParams) b)
    (hlater : s₁.builder.Grown b.1) {m : Machine D W} (hat : s.builder.At m) :
    c.pointer ptrIdx = some param.ptr ∧
      m.step c.ops c.device code = some (m.setPtr p (param.ptr, m.int elemI64)) ∧
      s₁.builder.At (m.setPtr p (param.ptr, m.int elemI64)) := by
  cases h
  have hemitted :
      Emitted s.builder.code (s.builder.emitReg (.gep · param.ptr elemI64)).2.code code :=
    hcode.emitted.first hlater.prefix_
  have hfetch := hat.fetch hemitted (emit_there s.builder _)
  have hown : param.ptr.function = c.number :=
    hcode.own m.block _ (List.mem_of_getElem? hfetch) param.ptr (List.mem_singleton.mpr rfl)
  have hat' : (s.builder.emit (.gep s.builder.nextReg param.ptr elemI64)).At
      (m.setPtr s.builder.nextReg (param.ptr, m.int elemI64)) := hat.emitted rfl rfl
  exact ⟨Setting.pointer_of_own hparam hs hown, Machine.step_of_fetch hfetch, hat'.block,
    hat'.index⟩

theorem gep_adds {p : Nat} {ptr : Owned} {elemI64 : IntOperand}
    (h : emitReg (.gep · ptr elemI64) s = .ok p s₁) (hs : Ready c s scope) :
    Adds c (s.builder, s.kernelParams) (s₁.builder, s₁.kernelParams) ∧ Ready c s₁ scope := by
  cases h
  have hgrown : s.builder.Grown (s.builder.emitReg (.gep · ptr elemI64)).2 :=
    (Builder.Grown.refl hs.builder_wf).emitReg (fun _ => rfl) fun _ => rfl
  exact ⟨hs.adds hgrown rfl (Nat.le_refl _), hs.built hgrown rfl (Nat.le_refl _)⟩

theorem computes_loadPtr {ptrIdx p r : Nat} {param : KernelParam} {elemI64 : IntOperand}
    (hparam : s.kernelParams[ptrIdx]? = some param)
    (hp : emitReg (.gep · param.ptr elemI64) s = .ok p s₁)
    (hr : emitReg (.loadPtr · p) s₁ = .ok r s₂) (hs : Ready c s scope) :
    Computes c N s s₂ scope scope
      (fun m st => (c.pointer ptrIdx).bind fun ptr =>
        (c.device.load ptr (m.int elemI64) st.world).map fun x => (x, st))
      (fun m => m.val (.reg r)) := by
  obtain ⟨hadds, hs₁⟩ := gep_adds hp hs
  cases hr
  have hgrown : s₁.builder.Grown (s₁.builder.emitReg (.loadPtr · p)).2 :=
    (Builder.Grown.refl hs₁.builder_wf).emitReg (fun _ => rfl) fun _ => rfl
  have hadds₁ := hs₁.adds hgrown rfl (Nat.le_refl _)
  constructor
  · exact (target c).grown_trans hadds hadds₁
  · exact hs₁.built hgrown rfl (Nat.le_refl _)
  · exact stable_val (v := .reg s₁.builder.nextReg) (Nat.lt_succ_self _)
  · intro code hcode m st hat hst
    obtain ⟨hown, hgep, hat₁⟩ := reaches_gep hparam hp hs hcode hgrown hat
    have hemitted : Emitted s₁.builder.code (s₁.builder.emitReg (.loadPtr · p)).2.code code :=
      hcode.emitted.rest hadds.grown.prefix_
    have hfetch := hat₁.fetch hemitted (emit_there s₁.builder _)
    have hworld : st.world = m.world := hst.world
    have hptr : (m.setPtr p (param.ptr, m.int elemI64)).ptrs p = (param.ptr, m.int elemI64) :=
      if_pos rfl
    refine Simulates.after (Reaches.one hgep) ?_
    rw [hown, Option.bind_some, hworld]
    cases hload : c.device.load param.ptr (m.int elemI64) m.world with
    | none =>
      apply Simulates.of_blocked
      refine .load _ p hfetch ?_
      rw [hptr]
      exact hload
    | some x =>
      let after : Machine D W := (m.setPtr p (param.ptr, m.int elemI64)).setReg s₁.builder.nextReg x
      have hexec : (m.setPtr p (param.ptr, m.int elemI64)).exec c.ops c.device
          (.loadPtr s₁.builder.nextReg p) = some after := by
        show Option.map _ (c.device.load _ _ m.world) = _
        rw [hptr, hload]
        rfl
      have hat₂ : (s₁.builder.emit (.loadPtr s₁.builder.nextReg p)).At after := hat₁.emitted rfl rfl
      have hkept : Machine.Kept s₁.builder.nextReg _ after :=
        Machine.exec_kept hexec fun r hr => Nat.le_of_eq (Option.some.inj hr)
      have hkept' : Machine.Kept s.builder.nextReg m after :=
        ⟨(hkept.mono hadds.grown.regs).regs, (hkept.mono hadds.grown.regs).ints,
          (hkept.mono hadds.grown.regs).flags⟩
      refine Simulates.after (Reaches.one ((Machine.step_of_fetch hfetch).trans hexec))
        (Simulates.pure ⟨⟨hat₂.block, hat₂.index⟩, ?_, if_pos rfl, hkept'⟩)
      exact hst.same (fun _ _ => rfl) rfl rfl

theorem computes_storePtr {ptrIdx p : Nat} {param : KernelParam} {elemI64 : IntOperand}
    {val : Operand D} (hparam : s.kernelParams[ptrIdx]? = some param)
    (hp : emitReg (.gep · param.ptr elemI64) s = .ok p s₁)
    (hstore : emit (.storePtr val p) s₁ = .ok () s₂) (hval : InRegs val s.builder)
    (hs : Ready c s scope) :
    Computes c N s s₂ scope scope
      (fun m st => (c.pointer ptrIdx).bind fun ptr =>
        (c.device.store ptr (m.int elemI64) (m.val val) st.world).map
          fun world => (m.val val, { st with world }))
      (fun m => m.val val) := by
  obtain ⟨hadds, hs₁⟩ := gep_adds hp hs
  cases hstore
  have hgrown : s₁.builder.Grown (s₁.builder.emit (.storePtr val p)) :=
    (Builder.Grown.refl hs₁.builder_wf).emit rfl (List.forall_mem_nil _)
  have hadds₁ := hs₁.adds hgrown rfl (Nat.le_refl _)
  constructor
  · exact (target c).grown_trans hadds hadds₁
  · exact hs₁.built hgrown rfl (Nat.le_refl _)
  · exact stable_val (Operand.Below.mono hval hadds.grown.regs)
  · intro code hcode m st hat hst
    obtain ⟨hown, hgep, hat₁⟩ := reaches_gep hparam hp hs hcode hgrown hat
    have hemitted : Emitted s₁.builder.code (s₁.builder.emit (.storePtr val p)).code code :=
      hcode.emitted.rest hadds.grown.prefix_
    have hfetch := hat₁.fetch hemitted (emit_there s₁.builder _)
    have hworld : st.world = m.world := hst.world
    have hptr : (m.setPtr p (param.ptr, m.int elemI64)).ptrs p = (param.ptr, m.int elemI64) :=
      if_pos rfl
    have hsame : (m.setPtr p (param.ptr, m.int elemI64)).val val = m.val val := by
      cases val <;> rfl
    refine Simulates.after (Reaches.one hgep) ?_
    rw [hown, Option.bind_some, hworld]
    cases hstored : c.device.store param.ptr (m.int elemI64) (m.val val) m.world with
    | none =>
      apply Simulates.of_blocked
      refine .store val p hfetch ?_
      rw [hptr, hsame]
      exact hstored
    | some world =>
      let after : Machine D W := { (m.setPtr p (param.ptr, m.int elemI64)).next with world }
      have hexec : (m.setPtr p (param.ptr, m.int elemI64)).exec c.ops c.device (.storePtr val p) =
          some after := by
        show Option.map _ (c.device.store _ _ _ m.world) = _
        rw [hptr, hsame, hstored]
        rfl
      have hat₂ : (s₁.builder.emit (.storePtr val p)).At after := hat₁.emitted rfl rfl
      have hkept : Machine.Kept s.builder.nextReg m after := .of_eq rfl rfl rfl
      refine Simulates.after (Reaches.one ((Machine.step_of_fetch hfetch).trans hexec))
        (Simulates.pure ⟨hat₂, ⟨hst.locals, rfl, hst.calls⟩, hkept.val hval, hkept⟩)

/-- `genElement` is the address of an element of a pointer that is known. -/
theorem genElement_ok {name : Name} {ptrIdx p : Nat} {elemI64 : IntOperand}
    (h : genElement name ptrIdx elemI64 s = .ok p s₁) : ∃ param,
      s.kernelParams[ptrIdx]? = some param ∧ emitReg (.gep · param.ptr elemI64) s = .ok p s₁ := by
  obtain ⟨param, s₂, hparam, h⟩ := Gen.bind_ok h
  cases hparam
  cases hfound : s.kernelParams[ptrIdx]? with
  | none =>
    rw [hfound] at h
    cases h
  | some param =>
    rw [hfound] at h
    exact ⟨param, rfl, h⟩

theorem computes_genLoad {args : List (ExprAST D)} (ih : ∀ a ∈ args, Preserved c N a)
    (hrep : ∀ a ∈ args, noRepeat a = true) {v : Operand D}
    (h : genLoad c.ops args (genArgs c.ops args) s = .ok v s₁) (hs : Ready c s scope) :
    Computes c N s s₁ scope scope
      (fun _ => evalLoad c.ops c.device c.pointer args (evals c.dialect N args))
      (fun m => m.val v) := by
  match args with
  | [ptrArg, elem] =>
    simp only [genArgs, genLoad] at h
    cases hlit : literalIndex c.ops ptrArg with
    | none =>
      rw [hlit] at h
      cases h
    | some ptrIdx =>
      rw [hlit] at h
      obtain ⟨elemIdx, s₂, helem, h⟩ := Gen.bind_ok h
      obtain ⟨elemI64, s₃, hint, h⟩ := Gen.bind_ok h
      obtain ⟨p, s₄, hp, h⟩ := Gen.bind_ok h
      obtain ⟨r, s₅, hr, h⟩ := Gen.bind_ok h
      cases h
      obtain ⟨param, hparam, hgep⟩ := genElement_ok hp
      have h₁ := ih elem (by simp) s elemIdx s₂ scope helem (hrep elem (by simp)) hs
      have h₂ := computes_createFPToSI (N := N) hint h₁.ready
      have h₃ := computes_loadPtr (N := N) hparam hgep hr h₂.ready
      have hrest := h₂.bind h₃ (k := fun _ n st => (c.pointer ptrIdx).bind fun ptr =>
        (c.device.load ptr n st.world).map fun x => (x, st)) fun _ _ _ _ => rfl
      refine (h₁.bind hrest (k := fun _ x st => (c.pointer ptrIdx).bind fun ptr =>
        (c.device.load ptr (c.ops.fptosi x) st.world).map fun x => (x, st))
          fun _ _ _ _ => rfl).congr fun m st => ?_
      simp only [evals, evalLoad, hlit, Option.bind_some]
  | [] => cases h
  | [_] =>
    simp only [genLoad] at h
    cases h
  | _ :: _ :: _ :: _ =>
    simp only [genLoad] at h
    cases h

theorem computes_genStore {args : List (ExprAST D)} (ih : ∀ a ∈ args, Preserved c N a)
    (hrep : ∀ a ∈ args, noRepeat a = true) {v : Operand D}
    (h : genStore c.ops args (genArgs c.ops args) s = .ok v s₁) (hs : Ready c s scope) :
    Computes c N s s₁ scope scope
      (fun _ => evalStore c.ops c.device c.pointer args (evals c.dialect N args))
      (fun m => m.val v) := by
  match args with
  | [ptrArg, elem, val] =>
    simp only [genArgs, genStore] at h
    cases hlit : literalIndex c.ops ptrArg with
    | none =>
      rw [hlit] at h
      cases h
    | some ptrIdx =>
      rw [hlit] at h
      obtain ⟨elemIdx, s₂, helem, h⟩ := Gen.bind_ok h
      obtain ⟨elemI64, s₃, hint, h⟩ := Gen.bind_ok h
      obtain ⟨x, s₄, hx, h⟩ := Gen.bind_ok h
      obtain ⟨p, s₅, hp, h⟩ := Gen.bind_ok h
      obtain ⟨_, s₆, hstore, h⟩ := Gen.bind_ok h
      cases h
      obtain ⟨param, hparam, hgep⟩ := genElement_ok hp
      have h₁ := ih elem (by simp) s elemIdx s₂ scope helem (hrep elem (by simp)) hs
      have h₂ := computes_createFPToSI (N := N) hint h₁.ready
      have h₃ := ih val (by simp) s₃ v s₄ scope hx (hrep val (by simp)) h₂.ready
      obtain ⟨-, hin⟩ := gen_extends c.ops val s₃ v s₄ (Ready.builder_wf h₂.ready) hx
      have h₄ := computes_storePtr (N := N) hparam hgep hstore hin h₃.ready
      -- the index has survived the code of the value
      have hstored := h₃.bind h₄ (k := fun m x st => (c.pointer ptrIdx).bind fun ptr =>
        (c.device.store ptr (m.int elemI64) x st.world).map fun world => (x, { st with world }))
        fun m m₁ hkept st => by
          rw [h₂.stable m m₁ hkept]
      have hrest := h₂.bind hstored (k := fun _ n st => (eval c.dialect N val st).bind fun v =>
        (c.pointer ptrIdx).bind fun ptr =>
          (c.device.store ptr n v.1 v.2.world).map fun world => (v.1, { v.2 with world }))
        fun _ _ _ _ => rfl
      refine (h₁.bind hrest (k := fun _ x st => (eval c.dialect N val st).bind fun v =>
        (c.pointer ptrIdx).bind fun ptr =>
          (c.device.store ptr (c.ops.fptosi x) v.1 v.2.world).map
            fun world => (v.1, { v.2 with world })) fun _ _ _ _ => rfl).congr fun m st => ?_
      simp only [evals, evalStore, hlit, Option.bind_some]
  | [] => cases h
  | [_] =>
    simp only [genStore] at h
    cases h
  | [_, _] =>
    simp only [genStore] at h
    cases h
  | _ :: _ :: _ :: _ :: _ =>
    simp only [genStore] at h
    cases h

theorem preserved_call {callee : Name} {args : List (ExprAST D)}
    (ih : ∀ a ∈ args, Preserved c N a) : Preserved c N (.callExpr callee args) := by
  intro s v s' scope h hrep hs
  rw [gen, genCall] at h
  rw [noRepeat, noRepeatArgs_iff] at hrep
  have hmeans : eval c.dialect N (.callExpr callee args) =
      evalCall c.ops c.device c.pointer callee args (evals c.dialect N args) := by
    rw [eval]
    rfl
  split at h
  case isTrue hbuiltin =>
    unfold genBuiltinCall at h
    cases hreg : findRegisterBuiltin callee with
    | some intrinsic =>
      rw [hreg] at h
      refine (computes_register h hs).congr fun m st => ?_
      rw [hmeans, evalCall, hreg]
    | none =>
      rw [hreg] at h
      dsimp only at h
      split at h
      case isTrue hload =>
        refine (computes_genLoad ih hrep h hs).congr fun m st => ?_
        rw [hmeans, evalCall, hreg]
        exact congrFun (if_pos hload) st
      rename_i hload
      split at h
      case isFalse => cases h
      rename_i hstore
      refine (computes_genStore ih hrep h hs).congr fun m st => ?_
      rw [hmeans, evalCall, hreg]
      exact congrFun ((if_neg hload).trans (if_pos hstore)) st
  case isFalse hbuiltin =>
    obtain ⟨signature, s₁, hsignature, h⟩ := Gen.bind_ok h
    cases hsignature
    cases hfound : s.theModule callee with
    | none =>
      rw [hfound] at h
      cases h
    | some signature =>
      rw [hfound] at h
      obtain ⟨xs, s₂, hxs, h⟩ := Gen.bind_ok h
      unfold createCall at h
      split at h
      case isFalse => cases h
      obtain ⟨r, s₃, hcall, h⟩ := Gen.bind_ok h
      cases h
      have h₁ := computes_args ih hrep hxs hs
      have h₂ := computes_createCall (N := N) hcall h₁.ready
      refine (h₁.bind h₂ (k := fun _ => callFunction c.device.call callee)
        fun _ _ _ _ => rfl).congr fun m st => ?_
      simp only [isBuiltinCall, Bool.or_eq_true, beq_iff_eq, not_or] at hbuiltin
      obtain ⟨⟨hreg, hload⟩, hstore⟩ := hbuiltin
      rw [hmeans, evalCall, Option.not_isSome_iff_eq_none.mp hreg]
      exact congrFun ((if_neg hload).trans (if_neg hstore)) st

/-! ## Bindings -/

/-- The initialiser of a binding. -/
theorem computes_init {init : ExprAST D} (ih : Preserved c N init) (hrep : noRepeat init = true)
    {v : Operand D}
    (h : (if init.isNull then pure (.const c.ops.zero) else gen c.ops init) s = .ok v s₁)
    (hs : Ready c s scope) : Computes c N s s₁ scope scope
      (fun _ st => if init.isNull then some (c.ops.zero, st) else eval c.dialect N init st)
      (fun m => m.val v) := by
  split at h
  case isTrue hnull =>
    cases h
    exact (computes_const hs c.ops.zero).congr fun m st => if_pos hnull
  case isFalse hnull => exact (ih s v s₁ scope h hrep hs).congr fun m st => if_neg hnull

/-- A new slot, a store to it, and the name in the slot. -/
theorem computes_bound {name : Name} {x : Operand D} {k : Owned}
    (hk : build (·.createAlloca) s = .ok k s₁) (hstore : emit (.store x k) s₁ = .ok () s₂)
    (hname : bindName name (some k) s₂ = .ok () s') (hs : Ready c s scope) :
    Computes c N s s' scope ((name, k) :: scope)
      (fun m st => some ((), st.push name (m.val x))) (fun _ => ()) := by
  cases hk
  cases hstore
  cases hname
  have hwf := hs.builder_wf
  let k : Owned := ⟨s.builder.function, s.builder.nextCell⟩
  have hgrown : s.builder.Grown s.builder.createAlloca.2 := (Builder.Grown.refl hwf).createAlloca
  have hgrown' : s.builder.createAlloca.2.Grown (s.builder.createAlloca.2.emit (.store x k)) :=
    (Builder.Grown.refl hgrown.wf).emit rfl (List.forall_mem_nil _)
  have hfunction : s.builder.function = c.number := hs.wf.2.1
  have hfresh : ∀ b ∈ scope, b.2 ≠ k := by
    intro b hb heq
    obtain ⟨-, hlt⟩ := hs.has b hb
    rw [heq] at hlt
    exact Nat.lt_irrefl _ hlt
  have hs₂ : Ready c { s with builder := s.builder.createAlloca.2.emit (.store x k) } scope :=
    hs.built (hgrown.trans hgrown') rfl (Nat.le_succ _)
  constructor
  · exact hs.adds (hgrown.trans hgrown') rfl (Nat.le_succ _)
  · refine hs₂.push (k := k) rfl (fun y => ?_) ⟨hfunction, Nat.lt_succ_self _⟩ hfresh
    show Option.filter _ (if y = name then some k else s.namedValues y) = _
    split
    · exact Option.filter_some_pos (decide_eq_true hfunction)
    · rfl
  · exact fun _ _ _ => rfl
  · intro code hcode m st hat hst
    have hat : s.builder.At m := hat
    have hem : Emitted s.builder.code (s.builder.createAlloca.2.emit (.store x k)).code code :=
      hcode.emitted
    have hem₁ : Emitted s.builder.code s.builder.createAlloca.2.code code :=
      hem.first hgrown'.prefix_
    have hem₂ : Emitted s.builder.createAlloca.2.code
        (s.builder.createAlloca.2.emit (.store x k)).code code := hem.rest hgrown.prefix_
    have hstep : m.step c.ops c.device code = some m.next :=
      Machine.step_of_fetch (hat.fetch hem₁ (emit_there s.builder (.alloca k)))
    have hat₀ : (s.builder.emit (.alloca k)).At m.next := hat.emitted rfl rfl
    have hat₁ : s.builder.createAlloca.2.At m.next := ⟨hat₀.block, hat₀.index⟩
    have hstep' : m.next.step c.ops c.device code = some (m.next.setCell k (m.next.val x)) :=
      Machine.step_of_fetch (hat₁.fetch hem₂ (emit_there _ (.store x k)))
    have hval : m.next.val x = m.val x := by
      cases x <;> rfl
    rw [hval] at hstep'
    have hst' : (target c).Agrees ((name, k) :: scope) (st.push name (m.val x))
        (m.next.setCell k (m.val x)) := hst.push hfresh rfl rfl rfl
    refine Simulates.after ((Reaches.one hstep).trans (Reaches.one hstep'))
      (Simulates.pure ⟨hat₁.emitted rfl rfl, hst', rfl, .of_eq rfl rfl rfl⟩)

/-- What is put back is put back among the function's own names. -/
theorem ownNames_restored (number : Nat) (olds : List (Name × Option Owned)) (s : CairoState D) :
    ownNames number { s with namedValues := Agreement.restoreTable olds s.namedValues } =
      Agreement.restoreTable
        (olds.map fun p => (p.1, p.2.filter fun cell => cell.function = number))
        (ownNames number s) := by
  induction olds generalizing s with
  | nil => rfl
  | cons p olds ih =>
    rw [List.map_cons, Agreement.restoreTable, Agreement.restoreTable]
    refine (ih { s with namedValues := fun k => if k = p.1 then p.2 else s.namedValues k }).trans ?_
    congr 1
    funext y
    show Option.filter _ (if y = p.1 then p.2 else s.namedValues y) = _
    split <;> rfl

/-- The bindings of a `var`: `inner` is what they add to the scope. -/
theorem computes_bindings {varNames : List (Name × ExprAST D)}
    (ih : ∀ b ∈ varNames, Preserved c N b.2) (hrep : noRepeatVar varNames = true)
    {olds : List (Name × Option Owned)} (h : genBindings c.ops varNames s = .ok olds s₁)
    (hs : Ready c s scope) :
    olds.map Prod.fst = varNames.map Prod.fst ∧ ∃ inner : List (Name × Owned),
      inner.length = varNames.length ∧
      Undoes (olds.map fun p => (p.1, p.2.filter fun cell => cell.function = c.number))
        inner scope ∧
      Computes c N s s₁ scope (inner ++ scope)
        (fun _ st => (evalBindings c.dialect N varNames st).map fun st => ((), st))
        (fun _ => ()) := by
  induction varNames generalizing s scope olds with
  | nil =>
    rw [genBindings] at h
    cases h
    refine ⟨rfl, [], rfl, .nil, (Target.Computes.refl hs ()).congr fun m st => ?_⟩
    rw [evalBindings]
    rfl
  | cons b rest ihs =>
    obtain ⟨name, init⟩ := b
    rw [genBindings] at h
    obtain ⟨x, s₂, hx, h⟩ := Gen.bind_ok h
    obtain ⟨k, s₃, hk, h⟩ := Gen.bind_ok h
    obtain ⟨_, s₄, hstore, h⟩ := Gen.bind_ok h
    obtain ⟨it, s₅, hit, h⟩ := Gen.bind_ok h
    cases hit
    obtain ⟨_, s₅, hname, h⟩ := Gen.bind_ok h
    obtain ⟨olds', s₆, hrest, h⟩ := Gen.bind_ok h
    cases h
    rw [noRepeatVar, Bool.and_eq_true, Bool.and_eq_true] at hrep
    obtain ⟨⟨hnew, hrepInit⟩, hrepRest⟩ := hrep
    have h₁ := computes_init (ih _ (List.mem_cons_self ..)) hrepInit hx hs
    have h₂ := computes_bound (N := N) hk hstore hname h₁.ready
    obtain ⟨hmap, inner, hlength, hundoes, h₃⟩ :=
      ihs (fun b hb => ih b (List.mem_cons_of_mem _ hb)) hrepRest hrest h₂.ready
    have hnames : s₄.namedValues = s₂.namedValues := by
      cases hk
      cases hstore
      rfl
    refine ⟨by simp [hmap], inner ++ [(name, k)], by simp [hlength], ?_, ?_⟩
    · apply hundoes.cons
      · rw [List.map_map]
        show name ∉ olds'.map Prod.fst
        rw [hmap]
        simpa using hnew
      · rw [hnames]
        exact h₁.ready.names name
    · rw [List.append_assoc, List.singleton_append]
      refine ((h₁.bind h₂ (k := fun _ x st => some ((), st.push name x)) fun _ _ _ _ => rfl).bind h₃
        (k := fun _ _ st => (evalBindings c.dialect N rest st).map fun st => ((), st))
          fun _ _ _ _ => rfl).congr fun m st => ?_
      rw [evalBindings, Option.bind_assoc, Option.map_bind]
      cases init.isNull <;> rfl

theorem preserved_var {varNames : List (Name × ExprAST D)} {body : ExprAST D}
    (ihs : ∀ b ∈ varNames, Preserved c N b.2) (ih : Preserved c N body) :
    Preserved c N (.varExpr varNames body) := by
  intro s v s' scope h hrep hs
  rw [gen] at h
  rw [noRepeat, Bool.and_eq_true] at hrep
  obtain ⟨olds, s₁, hbindings, h⟩ := Gen.bind_ok h
  obtain ⟨bodyVal, s₂, hbody, h⟩ := Gen.bind_ok h
  obtain ⟨_, s₃, hrestore, h⟩ := Gen.bind_ok h
  cases bodyVal with
  | none => cases h
  | some w =>
    cases h
    obtain ⟨-, inner, hlength, hundoes, h₁⟩ := computes_bindings ihs hrep.1 hbindings hs
    have h₂ := ih s₁ v s₂ _ (Gen.attempt_some hbody) hrep.2 h₁.ready
    have hall := h₁.bind h₂ (k := fun _ _ st => eval c.dialect N body st) fun _ _ _ _ => rfl
    obtain rfl := restoreNames_run hrestore
    have hpop : Ready c { s₂ with namedValues := Agreement.restoreTable olds s₂.namedValues }
        scope := by
      refine h₂.ready.pop rfl ?_
      have hrestored := ownNames_restored c.number olds s₂
      intro y j hy
      exact hundoes _ h₂.ready.names y j ((congrFun hrestored y).symm.trans hy)
    refine (hall.popped hpop rfl).congr fun m st => ?_
    rw [eval, hlength]
    simp [Option.map_eq_bind, Option.bind_assoc]

end

end AroundTheWorld.Cairo
