import AroundTheWorld.Cairo.Isolation
import AroundTheWorld.Cairo.Iterations
import AroundTheWorld.Cairo.Params
import AroundTheWorld.Cairo.Scope

/-!
# The functions of a translation unit

How the generator comes through a list of functions. Each of them has its own number, and
what the tables still have of earlier ones belongs to other numbers.
-/

namespace AroundTheWorld.Cairo

open AroundTheWorld.Base AroundTheWorld.Lex AroundTheWorld.Llvm AroundTheWorld.Counted
open AroundTheWorld.Athens (ExprAST FunctionAST PrototypeAST Name)

variable {D W α β : Type}

/-! ## What bodies leave alone -/

/-- No function has been created, and a kernel has the pointers it had. -/
structure CairoState.Same (s s' : CairoState D) : Prop where
  nextFunction : s'.nextFunction = s.nextFunction
  symbols : s'.symbols = s.symbols
  kernelParams : s'.kernelParams = s.kernelParams

theorem CairoState.Same.trans {s s' s'' : CairoState D} (h : s.Same s') (h' : s'.Same s'') :
    s.Same s'' :=
  ⟨h'.nextFunction.trans h.nextFunction, h'.symbols.trans h.symbols,
    h'.kernelParams.trans h.kernelParams⟩

instance : Std.Refl (CairoState.Same (D := D)) := ⟨fun _ => ⟨rfl, rfl, rfl⟩⟩

instance : Trans (CairoState.Same (D := D)) CairoState.Same CairoState.Same := ⟨.trans⟩

abbrev Stays (x : CairoGen D α) : Prop := Gen.Relates CairoState.Same x

theorem complain_stays (line : Text) : Stays (complain line : CairoGen D α) := .failed fun _ => rfl

theorem build_stays (f : Builder D → α × Builder D) : Stays (build f) := by
  intro s a s' h
  cases h
  exact ⟨rfl, rfl, rfl⟩

theorem emit_stays (i : Instr D) : Stays (emit i) := by
  intro s a s' h
  cases h
  exact ⟨rfl, rfl, rfl⟩

theorem emitReg_stays (i : Nat → Instr D) : Stays (emitReg i) := build_stays _

/-- The state is only read. -/
theorem read_stays {g : CairoState D → α} : Stays (fun s => .ok (g s) s : CairoGen D α) := by
  intro s a s' h
  cases h
  exact ⟨rfl, rfl, rfl⟩

theorem bindName_stays (name : Name) (cell : Option Owned) :
    Stays (bindName name cell : CairoGen D Unit) := by
  intro s a s' h
  cases h
  exact ⟨rfl, rfl, rfl⟩

theorem getOrDeclareIntrinsic_stays (name : Text) :
    Stays (getOrDeclareIntrinsic name : CairoGen D Unit) := by
  intro s a s' h
  cases h
  exact ⟨rfl, rfl, rfl⟩

theorem genElement_stays (name : Name) (ptrIdx : Nat) (elemI64 : IntOperand) :
    Stays (genElement name ptrIdx elemI64 : CairoGen D Nat) := by
  refine .bind read_stays fun param => ?_
  cases param with
  | none => exact complain_stays _
  | some param => exact emitReg_stays _

theorem restoreNames_stays (olds : List (Name × Option Owned)) :
    Stays (restoreNames olds : CairoGen D Unit) := by
  induction olds with
  | nil => exact .pure ()
  | cons p olds ih => exact .bind (bindName_stays _ _) fun _ => ih

section
variable {ops : IntOps D}

theorem genAll_stays {gens : List (CairoGen D (Operand D))} (h : ∀ g ∈ gens, Stays g) :
    Stays (genAll gens) := by
  induction gens with
  | nil => exact .pure _
  | cons g gens ih =>
    refine .bind (h g (List.mem_cons_self ..)) fun x => ?_
    exact .bind (ih fun g hg => h g (List.mem_cons_of_mem _ hg)) fun xs => .pure _

theorem genCall_stays (callee : Name) (args : List (ExprAST D))
    {gens : List (CairoGen D (Operand D))} (h : ∀ g ∈ gens, Stays g) :
    Stays (genCall ops callee args gens) := by
  unfold genCall
  split
  · unfold genBuiltinCall
    cases findRegisterBuiltin callee with
    | some intrinsic =>
      refine .bind (getOrDeclareIntrinsic_stays _) fun _ => .bind (emitReg_stays _) fun val => ?_
      exact .bind (emitReg_stays _) fun reg => .pure _
    | none =>
      dsimp only
      split
      · unfold genLoad
        split
        · rename_i ptrArg _ ptr elem
          cases literalIndex ops ptrArg with
          | none => exact complain_stays _
          | some ptrIdx =>
            refine .bind (h elem (by simp)) fun x => .bind (build_stays _) fun n => ?_
            exact .bind (genElement_stays _ ptrIdx n) fun p =>
              .bind (emitReg_stays _) fun reg => .pure _
        · exact complain_stays _
      split
      · unfold genStore
        split
        · rename_i ptrArg _ _ ptr elem val
          cases literalIndex ops ptrArg with
          | none => exact complain_stays _
          | some ptrIdx =>
            refine .bind (h elem (by simp)) fun x => .bind (build_stays _) fun n => ?_
            refine .bind (h val (by simp)) fun y => .bind (genElement_stays _ ptrIdx n) fun p => ?_
            exact .bind (emit_stays _) fun _ => .pure _
        · exact complain_stays _
      · exact .failed fun _ => rfl
  · refine .bind read_stays fun signature => ?_
    cases signature with
    | none => exact complain_stays _
    | some signature =>
      refine .bind (genAll_stays h) fun xs => ?_
      unfold createCall
      split
      · exact .bind (emitReg_stays _) fun reg => .pure _
      · exact .failed fun _ => rfl

theorem genAssignment_stays (lhs : ExprAST D) {rhs : CairoGen D (Operand D)}
    (h : Stays rhs) : Stays (genAssignment lhs rhs) := by
  cases lhs with
  | null => exact .failed fun _ => rfl
  | variableExpr name =>
    refine .bind h fun x => .bind read_stays fun it => ?_
    cases it with
    | none => exact complain_stays _
    | some cell => exact .bind (emit_stays _) fun _ => .pure _
  | _ => exact complain_stays _

theorem binaryOp_stays (op : Byte) (lhs rhs : Operand D) : Stays (binaryOp ops op lhs rhs) := by
  unfold binaryOp
  split
  · exact build_stays _
  split
  · exact build_stays _
  split
  · exact build_stays _
  split
  · exact .bind (build_stays _) fun cmp => build_stays _
  · exact complain_stays _

theorem genLoop_stays (varName : Name) (start end_ step : Operand D)
    {body : CairoGen D (Operand D)} (h : Stays body) :
    Stays (genLoop ops varName start end_ step body) := by
  have hhead : Stays (genLoopHead ops varName start end_ step) := by
    intro s head s' hrun
    rw [genLoopHead_run] at hrun
    cases hrun
    exact ⟨rfl, rfl, rfl⟩
  refine .bind hhead fun head => .bind h fun _ => ?_
  have hlatch : Stays (genLoopLatch head : CairoGen D Unit) := by
    intro s _ s' hrun
    rw [genLoopLatch_run] at hrun
    cases hrun
    exact ⟨rfl, rfl, rfl⟩
  exact .bind hlatch fun _ => .bind (bindName_stays _ _) fun _ => .pure _

theorem genInit_stays {init : ExprAST D} (h : Stays (gen ops init)) :
    Stays (if init.isNull then pure (.const ops.zero) else gen ops init) := by
  split
  · exact .pure _
  · exact h

theorem gen_stays (ops : IntOps D) (e : ExprAST D) : Stays (gen ops e) := by
  induction e using ExprAST.induction with
  | null =>
    rw [gen]
    exact .failed fun _ => rfl
  | numberExpr val =>
    rw [gen]
    exact .pure _
  | variableExpr name =>
    rw [gen]
    refine .bind read_stays fun it => ?_
    cases it with
    | none => exact complain_stays _
    | some cell => exact build_stays _
  | unaryExpr op operand ih =>
    rw [gen]
    unfold genUnary
    split
    · exact .bind ih fun x => build_stays _
    · exact complain_stays _
  | binaryExpr op lhs rhs ihl ihr =>
    rw [gen]
    split
    · exact genAssignment_stays lhs ihr
    · apply ihl.attempt_bind
      · exact fun s => Gen.bind_never fun _ _ => rfl
      · exact fun l => ihr.attempt_bind (fun _ => rfl) fun r => binaryOp_stays op l r
  | callExpr callee args ih =>
    rw [gen]
    apply genCall_stays
    induction args with
    | nil => exact List.forall_mem_nil _
    | cons arg args ihs =>
      intro g hg
      rcases List.mem_cons.mp hg with rfl | hg
      · exact ih arg (List.mem_cons_self ..)
      · exact ihs (fun a ha => ih a (List.mem_cons_of_mem _ ha)) g hg
  | ifExpr cond then_ else_ ihc iht ihe =>
    rw [genIf_run]
    refine .bind ihc fun condVal => .bind (build_stays _) fun condCmp => ?_
    intro s v s' h
    obtain ⟨thenVal, s₁, hthen, h⟩ := Gen.bind_ok h
    obtain ⟨elseVal, s₂, helse, h⟩ := Gen.bind_ok h
    cases h
    have hfirst := iht { s with builder := s.builder.enterThen condCmp } _ _ hthen
    have hsecond :=
      ihe { s₁ with builder := s₁.builder.enterElse s.builder.nextLabel } _ _ helse
    exact ⟨hsecond.nextFunction.trans hfirst.nextFunction,
      hsecond.symbols.trans hfirst.symbols, hsecond.kernelParams.trans hfirst.kernelParams⟩
  | forExpr varName start end_ step body ihStart ihEnd ihStep ihBody =>
    rw [gen]
    apply ihStart.attempt_bind
    · exact fun s => Gen.bind_never fun _ _ => rfl
    · intro a
      apply ihEnd.attempt_bind (fun _ => rfl)
      exact fun b => .bind (genInit_stays ihStep) fun z => genLoop_stays varName a b z ihBody
  | varExpr varNames body ihs ih =>
    have hbindings : Stays (genBindings ops varNames) := by
      induction varNames with
      | nil =>
        rw [genBindings]
        exact .pure _
      | cons b rest ihrest =>
        rw [genBindings]
        refine .bind (genInit_stays (ihs b (List.mem_cons_self ..))) fun x => ?_
        refine .bind (build_stays _) fun cell => .bind (emit_stays _) fun _ =>
          .bind read_stays fun it => ?_
        refine .bind (bindName_stays _ _) fun _ => ?_
        exact .bind (ihrest fun b hb => ihs b (List.mem_cons_of_mem _ hb)) fun olds => .pure _
    rw [gen]
    refine .bind hbindings fun olds => ?_
    intro s v s' h
    obtain ⟨bodyVal, s₁, hbody, h⟩ := Gen.bind_ok h
    obtain ⟨_, s₂, hrestore, h⟩ := Gen.bind_ok h
    cases bodyVal with
    | none => cases h
    | some w =>
      cases h
      exact (ih _ _ _ (Gen.attempt_some hbody)).trans (restoreNames_stays olds _ _ _ hrestore)

end

theorem genDeviceParams_stays (idx : Nat) (args : List Name) :
    Stays (genDeviceParams idx args : CairoGen D Unit) := by
  induction args generalizing idx with
  | nil => exact .pure ()
  | cons arg args ih =>
    refine .bind (build_stays _) fun argName => .bind (build_stays _) fun cell =>
      .bind (build_stays _) fun _ => ?_
    exact .bind (emit_stays _) fun _ => .bind (bindName_stays _ _) fun _ => ih (idx + 1)

/-! ## Entry blocks -/

/-- What is in the tables belongs to functions that have been begun. -/
structure CairoState.Begun (s : CairoState D) : Prop where
  names : ∀ x cell, s.namedValues x = some cell → cell.function < s.nextFunction
  params : ∀ param ∈ s.kernelParams, param.ptr.function < s.nextFunction

/-- What is generated for a body is in the tables behind it. -/
theorem CairoState.Begun.gen_body {ops : IntOps D} {e : ExprAST D} {s s' : CairoState D}
    {v : Operand D} (h : gen ops e s = .ok v s') (hfunction : s.builder.function < s.nextFunction)
    (hs : s.Begun) : s'.Begun := by
  obtain ⟨hnext, -, hparams⟩ := gen_stays ops e s v s' h
  have htable := (gen_leaves e s v s' h).table
  constructor
  · intro x cell hx
    rw [hnext]
    have hshows := htable x
    cases hfate : fate e x with
    | kept =>
      rw [hfate] at hshows
      have hsame : s'.namedValues x = s.namedValues x := hshows
      exact hs.names x cell (hsame.symm.trans hx)
    | patched =>
      rw [hfate] at hshows
      obtain ⟨k, hk, hfresh⟩ := hshows
      obtain rfl := Option.some.inj (hk.symm.trans hx)
      rw [hfresh.1]
      exact hfunction
    | erased =>
      rw [hfate] at hshows
      have hnone : s'.namedValues x = none := hshows
      rw [hnone] at hx
      cases hx
  · rw [hparams, hnext]
    exact hs.params

/-- The pointers of a function: those of a kernel are its arguments. -/
def pointerOf (proto : PrototypeAST) (number index : Nat) : Option Owned :=
  if isKernel proto.name = true ∧ index < proto.args.length then some ⟨number, index⟩ else none

theorem pointers_of_none {params : List KernelParam} {number : Nat}
    (h : ∀ param ∈ params, param.ptr.function < number) (index : Nat) :
    (params[index]?.map (·.ptr)).filter (fun ptr => ptr.function = number) = none := by
  cases hparam : params[index]? with
  | none => rfl
  | some param =>
    have hlt := h param (List.mem_of_getElem? hparam)
    have hne : ¬ param.ptr.function = number := by omega
    simp [hne]

theorem pointers_of_kernel (args : List Name) (number index : Nat) :
    ((((args.zipIdx 0).map fun b => (⟨b.1, ⟨number, b.2⟩⟩ : KernelParam))[index]?.map
      (·.ptr)).filter fun ptr => ptr.function = number) =
      if index < args.length then some ⟨number, index⟩ else none := by
  rw [List.getElem?_map, List.getElem?_zipIdx]
  by_cases hlt : index < args.length
  · simp [hlt]
  · simp [hlt]

theorem genKernelParams_run (idx : Nat) (args : List Name) (s : CairoState D) : ∃ symbols,
    genKernelParams idx args s = .ok () { s with
      builder := { s.builder with symbols }
      kernelParams := s.kernelParams ++
        (args.zipIdx idx).map fun b => ⟨b.1, ⟨s.builder.function, b.2⟩⟩ } := by
  induction args generalizing idx s with
  | nil =>
    refine ⟨s.builder.symbols, ?_⟩
    rw [List.zipIdx_nil, List.map_nil, List.append_nil]
    rfl
  | cons arg args ih =>
    obtain ⟨symbols, hrun⟩ := ih (idx + 1)
      { s with
        builder := (s.builder.setName arg).2
        kernelParams := s.kernelParams ++ [⟨arg, ⟨s.builder.function, idx⟩⟩] }
    refine ⟨symbols, Eq.trans hrun ?_⟩
    rw [List.append_assoc, List.zipIdx_cons, List.map_cons]
    rfl

theorem genDeviceParams_function {idx : Nat} {args : List Name} {s s' : CairoState D}
    (h : genDeviceParams idx args s = .ok () s') : s'.builder.function = s.builder.function := by
  induction args generalizing idx s with
  | nil =>
    cases h
    rfl
  | cons arg args ih => exact ih (s := s.enterParam idx arg) h

/-- In front of the body of a kernel. -/
def CairoState.kernelEntry (s : CairoState D) (proto : PrototypeAST) (symbols : SymbolTable) :
    CairoState D :=
  { s.opened proto.name ⟨true, proto.args.length⟩ with
    builder := { function := s.nextFunction, nextReg := proto.args.length, symbols }
    kernelParams := (proto.args.zipIdx 0).map fun b => ⟨b.1, ⟨s.nextFunction, b.2⟩⟩ }

/-- In front of the parameters of a device function. -/
def CairoState.deviceStart (s : CairoState D) (proto : PrototypeAST) : CairoState D :=
  { s.opened proto.name ⟨false, proto.args.length⟩ with namedValues := fun _ => none }

theorem enterKernel_run (proto : PrototypeAST) (s : CairoState D) :
    ∃ symbols, enterKernel proto s = .ok (s.created proto.name) (s.kernelEntry proto symbols) := by
  let s₀ : CairoState D := { s.opened proto.name ⟨true, proto.args.length⟩ with kernelParams := [] }
  obtain ⟨symbols, hrun⟩ := genKernelParams_run 0 proto.args s₀
  exact ⟨symbols, Gen.bind_of_ok hrun⟩

/-! ## One function -/

/-- How the generator has come through a function, from its entry block on: the tables may
have what belongs to earlier functions. -/
structure FunctionCode (ops : IntOps D) (f : FunctionAST D) (ir : FunctionIR D) where
  start : CairoState D
  entry : CairoState D
  bodyVal : Operand D
  bodyEnd : CairoState D
  builder : ∃ symbols, start.builder =
    { function := ir.number, nextReg := f.proto.args.length, symbols }
  names : ∀ x cell, start.namedValues x = some cell → cell.function < ir.number
  pointers : ∀ index, (start.kernelParams[index]?.map (·.ptr)).filter
    (fun ptr => ptr.function = ir.number) = pointerOf f.proto ir.number index
  kernel : isKernel f.proto.name = true → entry = start
  device : isKernel f.proto.name = false →
    start.builder.symbols = ⟨[text "entry"], 0⟩ ∧
      genDeviceParams 0 f.proto.args start = .ok () entry
  genBody : gen ops f.body entry = .ok bodyVal bodyEnd
  code : ir.code =
    (bodyEnd.builder.emit (.ret (if isKernel f.proto.name then none else some bodyVal))).code

/-- The function has been compiled from the definition, as the one that was created for it. -/
structure FunctionIR.IsFor (ops : IntOps D) (f : FunctionAST D) (llvmFunc : FunctionRef)
    (ir : FunctionIR D) : Prop where
  name : ir.name = llvmFunc.name
  signature : ir.signature = ⟨isKernel f.proto.name, f.proto.args.length⟩
  number : ir.number = llvmFunc.number
  code : Nonempty (FunctionCode ops f ir)

/-- A function of this name has been created since. -/
structure CairoState.Behind (s : CairoState D) (name : Name) (s' : CairoState D) : Prop where
  begun : s'.Begun
  nextFunction : s'.nextFunction = s.nextFunction + 1
  symbols : s'.symbols = (s.symbols.setName name).2

section
variable {ops : IntOps D} {f : FunctionAST D} {ir : FunctionIR D} {s s' : CairoState D}

theorem genKernel_ok (hkernel : isKernel f.proto.name = true) (hs : s.Begun)
    (h : genKernel ops f.proto f.body s = .ok ir s') :
    ir.IsFor ops f (s.created f.proto.name) ∧ s.Behind f.proto.name s' := by
  obtain ⟨llvmFunc, entry, henter, h⟩ := Gen.bind_ok h
  obtain ⟨symbols, hrun⟩ := enterKernel_run f.proto s
  rw [hrun] at henter
  cases henter
  obtain ⟨bodyVal, bodyEnd, hbody, h⟩ := Gen.bind_ok h
  obtain ⟨_, s₂, hret, h⟩ := Gen.bind_ok h
  cases hret
  obtain ⟨_, s₃, hcode, h⟩ := Gen.bind_ok h
  cases hcode
  cases h
  have hentry : (s.kernelEntry f.proto symbols).Begun := by
    constructor
    · exact fun x cell hx => Nat.lt_succ_of_lt (hs.names x cell hx)
    · intro param hparam
      obtain ⟨b, -, rfl⟩ := List.mem_map.mp hparam
      exact Nat.lt_succ_self _
  have hbegun := hentry.gen_body hbody (Nat.lt_succ_self _)
  have hsame := gen_stays ops f.body _ _ _ hbody
  refine ⟨⟨rfl, by rw [hkernel], rfl, ⟨?_⟩⟩, ⟨⟨hbegun.names, hbegun.params⟩, hsame.nextFunction,
    hsame.symbols⟩⟩
  refine ⟨s.kernelEntry f.proto symbols, _, bodyVal, bodyEnd, ⟨symbols, rfl⟩, hs.names,
    fun index => ?_, fun _ => rfl, fun hdevice => ?_, hbody, by rw [if_pos hkernel]⟩
  · refine (pointers_of_kernel f.proto.args s.nextFunction index).trans ?_
    simp [pointerOf, hkernel]
  · rw [hkernel] at hdevice
    cases hdevice

theorem genDevice_ok (hdevice : isKernel f.proto.name = false) (hs : s.Begun)
    (h : genDevice ops f.proto f.body s = .ok ir s') :
    ir.IsFor ops f (s.created f.proto.name) ∧ s.Behind f.proto.name s' := by
  obtain ⟨llvmFunc, entry, henter, h⟩ := Gen.bind_ok h
  obtain ⟨_, s₂, hparams, henter⟩ :
      ∃ u s₂, genDeviceParams 0 f.proto.args (s.deviceStart f.proto) = .ok u s₂ ∧
        Outcome.ok (s.created f.proto.name) s₂ = .ok llvmFunc entry := Gen.bind_ok henter
  cases henter
  obtain ⟨bodyVal, bodyEnd, hbody, h⟩ := Gen.bind_ok h
  cases bodyVal with
  | none =>
    obtain ⟨_, s₃, _, h⟩ := Gen.bind_ok h
    cases h
  | some bodyVal =>
    obtain ⟨_, s₃, hret, h⟩ := Gen.bind_ok h
    cases hret
    obtain ⟨_, s₄, hcode, h⟩ := Gen.bind_ok h
    cases hcode
    cases h
    have hbody := Gen.attempt_some hbody
    have hopened := genDeviceParams_stays 0 f.proto.args _ _ _ hparams
    obtain ⟨_, hrun, htable, -⟩ :=
      genDeviceParams_run 0 f.proto.args (s.deviceStart f.proto) rfl rfl
    have hfunction := genDeviceParams_function hparams
    rw [hrun] at hparams
    cases hparams
    have hentry : entry.Begun := by
      constructor
      · intro x cell hx
        rw [htable] at hx
        rcases assignAll_mem hx with hnone | hmem
        · cases hnone
        · obtain ⟨i, hi⟩ := List.mem_iff_getElem?.mp hmem
          rw [getElem?_paramCells] at hi
          obtain ⟨name, -, heq⟩ := Option.map_eq_some_iff.mp hi
          cases heq
          rw [hopened.nextFunction]
          exact Nat.lt_succ_self _
      · rw [hopened.kernelParams, hopened.nextFunction]
        exact fun param hparam => Nat.lt_succ_of_lt (hs.params param hparam)
    have hbegun := hentry.gen_body hbody (by
      rw [hfunction, hopened.nextFunction]
      exact Nat.lt_succ_self _)
    have hsame := hopened.trans (gen_stays ops f.body _ _ _ hbody)
    refine ⟨⟨rfl, by rw [hdevice], rfl, ⟨?_⟩⟩, ⟨⟨hbegun.names, hbegun.params⟩,
      hsame.nextFunction, hsame.symbols⟩⟩
    refine ⟨s.deviceStart f.proto, entry, bodyVal, bodyEnd, ⟨⟨[text "entry"], 0⟩, rfl⟩, ?_,
      fun index => ?_, fun hkernel => ?_, fun _ => ⟨rfl, hrun⟩, hbody, by simp [hdevice]⟩
    · intro x cell hx
      cases hx
    · refine (pointers_of_none hs.params index).trans ?_
      simp [pointerOf, hdevice]
    · rw [hdevice] at hkernel
      cases hkernel

/-- Behind a function that has been accepted: a kernel is annotated. -/
def CairoState.annotated (s : CairoState D) (ir : FunctionIR D) : CairoState D :=
  if ir.signature.kernel then { s with annotations := s.annotations ++ [ir.number] } else s

theorem genFunction_ok_iff {verifies : FunctionIR D → Bool} :
    genFunction ops verifies f s = .ok ir s' ↔
      verifies ir = true ∧ ∃ s₁, genCode ops f s = .ok ir s₁ ∧ s' = s₁.annotated ir := by
  have hrun : genFunction ops verifies f s = (genCode ops f >>= fun ir =>
      if verifies ir then do
        if ir.signature.kernel then addKernelMetadata ir.number else pure ()
        pure ir
      else do
        eraseFunction ir.name
        complain (if ir.signature.kernel then text "kernel function verification failed\n"
          else text "function verification failed\n")) s := rfl
  have hannotated : ∀ (ir : FunctionIR D) (s₁ : CairoState D), (do
      if ir.signature.kernel then addKernelMetadata ir.number else pure ()
      pure ir : CairoGen D (FunctionIR D)) s₁ = .ok ir (s₁.annotated ir) := by
    intro ir s₁
    unfold CairoState.annotated
    cases ir.signature.kernel <;> rfl
  rw [hrun]
  constructor
  · intro h
    obtain ⟨ir', s₁, hcode, h⟩ := Gen.bind_ok h
    split at h
    · rename_i hverified
      rw [hannotated] at h
      cases h
      exact ⟨hverified, s₁, hcode, rfl⟩
    · obtain ⟨_, s₂, _, h⟩ := Gen.bind_ok h
      cases h
  · rintro ⟨hverified, s₁, hcode, rfl⟩
    rw [Gen.bind_of_ok hcode, if_pos hverified]
    exact hannotated ir s₁

theorem genFunction_ok {verifies : FunctionIR D → Bool} (hs : s.Begun)
    (h : genFunction ops verifies f s = .ok ir s') : ir.IsFor ops f (s.created f.proto.name) ∧
      verifies ir = true ∧ s.Behind f.proto.name s' := by
  obtain ⟨hverified, s₁, hcode, rfl⟩ := genFunction_ok_iff.mp h
  obtain ⟨hfor, hbehind⟩ :
      ir.IsFor ops f (s.created f.proto.name) ∧ s.Behind f.proto.name s₁ := by
    unfold genCode at hcode
    split at hcode
    case isTrue hkernel => exact genKernel_ok hkernel hs hcode
    case isFalse hdevice => exact genDevice_ok (Bool.eq_false_iff.mpr hdevice) hs hcode
  refine ⟨hfor, hverified, ?_⟩
  unfold CairoState.annotated
  split
  · exact ⟨⟨hbehind.begun.names, hbehind.begun.params⟩, hbehind.nextFunction, hbehind.symbols⟩
  · exact hbehind

/-- The functions of a unit, in the order of their numbers. With names of their own they are
called what their definitions say. -/
theorem genTopLevel_ok {verifies : FunctionIR D → Bool} {functions : List (FunctionAST D)}
    {irs : List (FunctionIR D)} (hs : s.Begun)
    (hdistinct : (functions.map (·.proto.name)).Nodup)
    (hfree : ∀ f ∈ functions, f.proto.name ∉ s.symbols.names)
    (h : genTopLevel ops verifies functions s = .ok irs s') :
    List.Forall₂ (fun p ir => ir.IsFor ops p.1 ⟨p.2, p.1.proto.name⟩ ∧ verifies ir = true)
      (functions.zipIdx s.nextFunction) irs := by
  induction functions generalizing s irs with
  | nil =>
    cases h
    exact .nil
  | cons f functions ih =>
    obtain ⟨ir, s₁, hfunction, h⟩ := Gen.bind_ok h
    obtain ⟨irs', s₂, hrest, h⟩ := Gen.bind_ok h
    cases h
    rw [List.map_cons, List.nodup_cons] at hdistinct
    obtain ⟨hfor, hverified, hbehind⟩ := genFunction_ok hs hfunction
    obtain ⟨hname, hnames⟩ := setName_fresh (hfree f (List.mem_cons_self ..))
    have hcreated : s.created f.proto.name = ⟨s.nextFunction, f.proto.name⟩ := by
      rw [CairoState.created, hname]
    have hrestfree : ∀ g ∈ functions, g.proto.name ∉ s₁.symbols.names := by
      intro g hg hmem
      rw [hbehind.symbols] at hmem
      rcases List.mem_cons.mp (hnames hmem) with heq | hmem
      · exact hdistinct.1 (List.mem_map.mpr ⟨g, hg, heq⟩)
      · exact hfree g (List.mem_cons_of_mem _ hg) hmem
    rw [List.zipIdx_cons, ← hbehind.nextFunction]
    rw [hcreated] at hfor
    exact .cons ⟨hfor, hverified⟩ (ih hbehind.begun hdistinct.2 hrestfree hrest)

end

end AroundTheWorld.Cairo
