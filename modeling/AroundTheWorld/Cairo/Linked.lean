import AroundTheWorld.Cairo.Functions
import AroundTheWorld.Counted.Functions

/-!
# Cairo's kernels and device functions, linked

A unit has kernels, which the host launches, and device functions, which kernels and each
other call. What they answer is what their definitions mean. The pointers of a kernel are
those of the device.
-/

namespace AroundTheWorld.Cairo

open AroundTheWorld.Base AroundTheWorld.Lex AroundTheWorld.Llvm AroundTheWorld.Counted
open AroundTheWorld.Athens (Call ExprAST FunctionAST PrototypeAST Name noRepeat)

variable {D W : Type}

/-! ## What functions do -/

section
variable (ops : IntOps D) (device : Device D W)

/-- The device whose functions are answered by an oracle. -/
def Device.answering (oracle : Call D W → Option (D × W)) : Device D W :=
  { device with call := fun callee args world => oracle (callee, args, world) }

/-- What an instruction does: a call waits for its answer, and a kernel returns nothing, for
which zero stands. -/
def FunctionIR.perform (ir : FunctionIR D) (m : Machine D W) :
    Instr D → Act (FunctionIR D × Machine D W) (Call D W) (D × W)
  | .call dst callee args =>
    .call (callee, args.map m.val, m.world) fun r =>
      (ir, { m.setReg dst r.1 with world := r.2, calls := m.calls ++ [(callee, args.map m.val)] })
  | .ret val => .ret ((val.map m.val).getD ops.zero, m.world)
  | i => .silent ((m.exec ops device i).map (ir, ·))

def FunctionIR.act (ir : FunctionIR D) (m : Machine D W) :
    Act (FunctionIR D × Machine D W) (Call D W) (D × W) :=
  match (ir.code m.block)[m.index]? with
  | some i => ir.perform ops device m i
  | none => .stuck

/-- In front of the entry block of a function that was called: the arguments are its first
registers. -/
def startMachine (args : List D) (world : W) : Machine D W :=
  ⟨0, 0, 0, fun r => args.getD r ops.zero, fun _ => 0, fun _ => false, fun _ => (⟨0, 0⟩, 0),
    fun _ => ops.zero, world, []⟩

/-- How many doubles a function takes: a kernel takes pointers only. -/
def Signature.doubles (signature : Signature) : Nat :=
  if signature.kernel then 0 else signature.argc

/-- The functions of the unit, and functions of the device for all other names. -/
def linked (irs : List (FunctionIR D)) :
    Procedures (FunctionIR D × Machine D W) (Call D W) (D × W) where
  act s := s.1.act ops device s.2
  enter call := (irs.find? (·.name = call.1)).bind fun ir =>
    if call.2.1.length = ir.signature.doubles then some (ir, startMachine ops call.2.1 call.2.2)
    else none
  outside call :=
    if (irs.find? (·.name = call.1)).isSome then none else device.call call.1 call.2.1 call.2.2

end

section
variable {ops : IntOps D} {device : Device D W} {irs : List (FunctionIR D)} {ir : FunctionIR D}
  {m : Machine D W} {oracle : Call D W → Option (D × W)} {r : D × W}

/-- On its own, a function runs like its code, with the oracle in place of the callees. -/
theorem openStep_linked : (linked ops device irs).openStep oracle (ir, m) =
    (m.step ops (device.answering oracle) ir.code).map (ir, ·) := by
  have hact : (linked ops device irs).act (ir, m) = ir.act ops device m := rfl
  rw [Procedures.openStep, hact, FunctionIR.act, Machine.step]
  cases (ir.code m.block)[m.index]? with
  | none => rfl
  | some i =>
    cases i with
    | call dst callee args =>
      show Option.map _ _ = Option.map _ (Option.map _ _)
      rw [Option.map_map]
      rfl
    | loadPtr dst ptr =>
      simp only [FunctionIR.perform, Machine.exec, Option.bind_some]
      show _ = Option.map _ (Option.map _ (device.load (m.ptrs ptr).1 (m.ptrs ptr).2 m.world))
      cases device.load (m.ptrs ptr).1 (m.ptrs ptr).2 m.world <;> rfl
    | storePtr val ptr =>
      simp only [FunctionIR.perform, Machine.exec, Option.bind_some]
      show _ = Option.map _ (Option.map _
        (device.store (m.ptrs ptr).1 (m.ptrs ptr).2 (m.val val) m.world))
      cases device.store (m.ptrs ptr).1 (m.ptrs ptr).2 (m.val val) m.world <;> rfl
    | phi dst incoming =>
      simp only [FunctionIR.perform, Machine.exec, Option.bind_some]
      cases incoming.find? fun entry => entry.2 == m.prev <;> rfl
    | phiInt dst incoming =>
      simp only [FunctionIR.perform, Machine.exec, Option.bind_some]
      cases incoming.find? fun entry => entry.2 == m.prev <;> rfl
    | _ => rfl

theorem act_ret_iff : ir.act ops device m = .ret r ↔ ∃ val,
    (ir.code m.block)[m.index]? = some (.ret val) ∧
    ((val.map m.val).getD ops.zero, m.world) = r := by
  rw [FunctionIR.act]
  cases (ir.code m.block)[m.index]? with
  | none =>
    constructor
    · intro h
      cases h
    · rintro ⟨val, h, -⟩
      cases h
  | some i =>
    constructor
    · intro h
      have h : ir.perform ops device m i = .ret r := h
      cases i with
      | ret val => exact ⟨val, rfl, Act.ret.inj h⟩
      | call dst callee args => cases h
      | _ =>
        simp only [FunctionIR.perform] at h
        exact absurd h (Act.silent_ne_ret _ r)
    · rintro ⟨val, h, rfl⟩
      cases h
      rfl

/-- A function that was called returns what its `ret` has. -/
theorem returns_linked : (linked ops device irs).Returns oracle (ir, m) r ↔ ∃ m',
    Reaches (Machine.step ops (device.answering oracle) ir.code) m m' ∧
      ir.act ops (device.answering oracle) m' = .ret r := by
  rw [Procedures.returns_beside fun _ => openStep_linked]
  exact exists_congr fun _ => and_congr_right fun _ => act_ret_iff.trans act_ret_iff.symm

end

/-! ## What definitions mean -/

section
variable (ops : IntOps D) (device : Device D W)

/-- The parameters that are locals of the body: those of a kernel are not. -/
def localParams (proto : PrototypeAST) : List Name := if isKernel proto.name then [] else proto.args

/-- The function with this number, of which a kernel has no value. -/
def evalFunction (N : Nat) (f : FunctionAST D) (number : Nat) (args : List D) (world : W) :
    Option (D × W) :=
  (eval (dialect ops device (pointerOf f.proto number)) N f.body
    ⟨((localParams f.proto).zip args).reverse, world, []⟩).map fun r =>
      (if isKernel f.proto.name then ops.zero else r.1, r.2.world)

/-- A call of a definition, with its number, or of a function that is not defined. One with
another number of doubles has no meaning. -/
def callDefinition (defs : List (FunctionAST D × Nat)) (N : Nat)
    (oracle : Call D W → Option (D × W)) (call : Call D W) : Option (D × W) :=
  match defs.find? (·.1.proto.name = call.1) with
  | some p =>
    if call.2.1.length = (localParams p.1.proto).length then
      evalFunction ops (device.answering oracle) N p.1 p.2 call.2.1 call.2.2
    else none
  | none => device.call call.1 call.2.1 call.2.2

end

/-! ## Parameters -/

section
variable {c : Setting D W} {N : Nat} {s s₁ s' : CairoState D} {scope scope' : List (Name × Owned)}
  {α : Type}

/-- Names of values have no part in what code does. -/
theorem computes_renamed {symbols : SymbolTable}
    {ev : Machine D W → State D W → Option (α × State D W)} {read : Machine D W → α}
    (hs : Ready c s scope)
    (h : Computes c N { s with builder := { s.builder with symbols } } s' scope scope' ev read) :
    Computes c N s s' scope scope' ev read where
  grown := by
    have hrenamed :
        Adds c (s.builder, s.kernelParams) ({ s.builder with symbols }, s.kernelParams) :=
      hs.adds (.of_eq (.refl hs.builder_wf) rfl rfl rfl rfl) rfl (Nat.le_refl _)
    exact (target c).grown_trans hrenamed h.grown
  ready := h.ready
  stable := h.stable
  simulates code hcode m st hat hst :=
    (h.simulates code ⟨hcode.emitted, hcode.own⟩ m st ⟨hat.block, hat.index⟩ hst).mono
      fun _ _ hwent => ⟨hwent.at_, hwent.agrees, hwent.read, hwent.kept⟩

/-- The loop over the arguments of a device function brings them into scope, under the names
that they have got. -/
theorem computes_deviceParams {idx : Nat} {args : List Name}
    (h : genDeviceParams idx args s = .ok () s') (hregs : idx + args.length ≤ s.builder.nextReg)
    (hs : Ready c s scope) : ∃ scope', Computes c N s s' scope scope'
      (fun m st => some ((), { st with locals :=
        (((argNames s.builder.symbols args).zipIdx idx).map fun b => (b.1, m.regs b.2)).reverse ++
          st.locals })) (fun _ => ()) := by
  induction args generalizing idx s scope with
  | nil =>
    cases h
    exact ⟨scope, (Target.Computes.refl hs ()).congr fun m st => rfl⟩
  | cons arg args ih =>
    rw [List.length_cons] at hregs
    rw [genDeviceParams_cons] at h
    let name := (s.builder.symbols.setName arg).1
    let symbols := ((s.builder.symbols.setName arg).2.setName name).2
    have hrenamed : Ready c { s with builder := { s.builder with symbols } } scope :=
      hs.built (.of_eq (.refl hs.builder_wf) rfl rfl rfl rfl) rfl (Nat.le_refl _)
    have h₁ : Computes c N s (s.enterParam idx arg) scope _
        (fun m st => some ((), st.push name (m.val (.reg idx)))) (fun _ => ()) :=
      computes_renamed hs (computes_bound rfl rfl rfl hrenamed)
    have hnext : (s.enterParam idx arg).builder.nextReg = s.builder.nextReg := rfl
    obtain ⟨scope', h₂⟩ := ih h (by omega) h₁.ready
    refine ⟨scope', (h₁.bind h₂ (k := fun m _ st => some ((), { st with locals :=
      (((argNames symbols args).zipIdx (idx + 1)).map fun b => (b.1, m.regs b.2)).reverse ++
        st.locals })) ?_).congr ?_⟩
    · intro m m₁ hkept st
      have hsame : ((argNames symbols args).zipIdx (idx + 1)).map (fun b => (b.1, m₁.regs b.2)) =
          ((argNames symbols args).zipIdx (idx + 1)).map fun b => (b.1, m.regs b.2) := by
        apply List.map_congr_left
        intro b hb
        have hlt : b.2 < s.builder.nextReg := by
          obtain ⟨hlow, hhigh, -⟩ := List.mem_zipIdx hb
          rw [length_argNames] at hhigh
          omega
        rw [hkept.regs b.2 hlt]
      have hsymbols : (s.enterParam idx arg).builder.symbols = symbols := rfl
      rw [hsymbols, hsame]
    · intro m st
      simp [argNames, State.push, Machine.val, name, symbols]

end

/-! ## One function -/

section
variable {ops : IntOps D} {f : FunctionAST D} {ir : FunctionIR D}

/-- A device function has its parameters under their own names. -/
def KeepsParams (proto : PrototypeAST) : Prop :=
  isKernel proto.name = false → (∀ p ∈ proto.args, p ≠ []) ∧ proto.args.Nodup ∧ KeepNames proto.args

theorem KeepsParams.argNames_eq {proto : PrototypeAST} (h : KeepsParams proto)
    (hdevice : isKernel proto.name = false) : argNames ⟨[text "entry"], 0⟩ proto.args =
      proto.args := by
  obtain ⟨hnamed, hdistinct, hkeep⟩ := h hdevice
  refine (argNames_eq_iff hnamed hdistinct).mpr ⟨fun p hp hmem => ?_, hkeep.cells⟩
  rw [List.mem_singleton.mp hmem] at hp
  exact hkeep.entry hp

namespace FunctionCode

variable (c : FunctionCode ops f ir) (device : Device D W)

/-- What the function is generated and run among. -/
def setting : Setting D W := ⟨ops, device, ir.number, c.start.kernelParams⟩

theorem dialect_eq :
    (c.setting device).dialect = dialect ops device (pointerOf f.proto ir.number) :=
  congrArg (dialect ops device) (funext c.pointers)

theorem ready : Ready (c.setting device) c.start [] := by
  obtain ⟨symbols, hbuilder⟩ := c.builder
  constructor
  · refine ⟨?_, ?_, rfl⟩
    · show c.start.builder.Wf
      rw [hbuilder]
      exact ⟨Nat.one_pos, fun _ _ => rfl, fun _ => List.forall_mem_nil _⟩
    · show c.start.builder.function = ir.number
      rw [hbuilder]
  · intro x k hx
    -- what is left in the table belongs to earlier functions
    obtain ⟨hfound, hown⟩ := Option.filter_eq_some_iff.mp hx
    have hlt := c.names x k hfound
    have heq : k.function = ir.number := of_decide_eq_true hown
    omega
  · exact List.nodup_nil
  · exact List.forall_mem_nil _

theorem computes_params (hkeeps : KeepsParams f.proto) (N : Nat) :
    ∃ scope, Computes (c.setting device) N c.start c.entry [] scope
      (fun m st => some ((), { st with locals :=
        ((localParams f.proto).zipIdx.map fun b => (b.1, m.regs b.2)).reverse ++ st.locals }))
      (fun _ => ()) := by
  have hready := c.ready device
  unfold localParams
  cases hkernel : isKernel f.proto.name with
  | true =>
    rw [c.kernel hkernel]
    exact ⟨[], (Target.Computes.refl hready ()).congr fun _ _ => rfl⟩
  | false =>
    obtain ⟨hsymbols, hparams⟩ := c.device hkernel
    have hregs : 0 + f.proto.args.length ≤ c.start.builder.nextReg := by
      obtain ⟨symbols, hbuilder⟩ := c.builder
      rw [hbuilder, Nat.zero_add]
    obtain ⟨scope, h⟩ := Cairo.computes_deviceParams (N := N) hparams hregs hready
    rw [hsymbols, hkeeps.argNames_eq hkernel] at h
    exact ⟨scope, h⟩

end FunctionCode

theorem zipIdx_map_getD {names : List Name} {vals : List D} (d : D)
    (hlen : vals.length = names.length) :
    (names.zipIdx.map fun b => (b.1, vals.getD b.2 d)) = names.zip vals := by
  apply List.ext_getElem
  · simp [hlen]
  · intro i hi hi'
    have hlt : i < vals.length := by
      rw [List.length_zip] at hi'
      omega
    simp [hlt]

/-- A function that has been compiled computes what its body means, whatever the callees. -/
theorem FunctionCode.halts_iff (c : FunctionCode ops f ir) (hown : OwnCode ir.number ir.code)
    (hrep : noRepeat f.body = true) (hkeeps : KeepsParams f.proto) (device : Device D W)
    {args : List D} (hlen : args.length = (localParams f.proto).length) (world : W) (r : D × W) :
    (∃ m, Reaches (Machine.step ops device ir.code) (startMachine ops args world) m ∧
      ir.act ops device m = .ret r) ↔ ∃ N,
        evalFunction ops device N f ir.number args world = some r := by
  have hlocals :
    ((localParams f.proto).zipIdx.map fun b => (b.1, args.getD b.2 ops.zero)).reverse ++ [] =
      ((localParams f.proto).zip args).reverse := by
    rw [List.append_nil, zipIdx_map_getD ops.zero hlen]
  let value (x : D) : D := if isKernel f.proto.name then ops.zero else x
  have hsim : ∀ N, Simulates (Machine.step ops device ir.code) N (Machine.Blocked device ir.code)
      (startMachine ops args world)
      (eval (dialect ops device (pointerOf f.proto ir.number)) N f.body
        ⟨((localParams f.proto).zip args).reverse, world, []⟩)
      (fun x m => (∃ r, ir.act ops device m = .ret r) ∧
        ir.act ops device m = .ret (value x.1, x.2.world)) := by
    intro N
    obtain ⟨scope, h₁⟩ := c.computes_params device hkeeps N
    have hbody : Preserved (c.setting device) N f.body := preserved _ N f.body
    have h₂ := hbody c.entry c.bodyVal c.bodyEnd scope c.genBody hrep h₁.ready
    rw [c.dialect_eq] at h₂
    have hall := h₁.bind h₂
      (k := fun _ _ => eval (dialect ops device (pointerOf f.proto ir.number)) N f.body)
      fun _ _ _ _ => rfl
    have hgrown : c.start.builder.Grown c.bodyEnd.builder := hall.grown.grown
    have hcode : Within (c.setting device) ir.code (c.start.builder, c.start.kernelParams)
        (c.bodyEnd.builder, c.bodyEnd.kernelParams) := by
      refine ⟨?_, hown⟩
      rw [c.code]
      exact .of_le ((Builder.Grown.refl hgrown.wf).emit rfl (List.forall_mem_nil _)).prefix_
    have hstart : c.start.builder.At (startMachine ops args world) := by
      obtain ⟨symbols, hbuilder⟩ := c.builder
      rw [hbuilder]
      exact ⟨rfl, rfl⟩
    have hst : (target (c.setting device)).Agrees [] (⟨[], world, []⟩ : State D W)
        (startMachine ops args world) := ⟨rfl, rfl, rfl⟩
    have hrun := hall.simulates ir.code hcode _ _ hstart hst
    rw [Option.bind_some] at hrun
    refine Simulates.mono (hlocals ▸ hrun) fun x m hwent => ?_
    -- behind the body there is the `ret`
    have hat : c.bodyEnd.builder.At m := hwent.at_
    have hfetch : (ir.code m.block)[m.index]? =
        some (.ret (if isKernel f.proto.name then none else some c.bodyVal)) := by
      rw [c.code, hat.block, hat.index]
      exact getElem?_of_le (emit_there _ _) (by simp)
    have hret : ir.act ops device m = .ret (value x.1, x.2.world) := by
      refine act_ret_iff.mpr ⟨_, hfetch, Prod.ext ?_ hwent.agrees.world.symm⟩
      have hread : m.val c.bodyVal = x.1 := hwent.read
      cases hkernel : isKernel f.proto.name with
      | true => simp [value, hkernel]
      | false => simp [value, hkernel, hread]
    exact ⟨⟨_, hret⟩, hret⟩
  have hfinal : ∀ m, (∃ r, ir.act ops device m = .ret r) →
      m.step ops device ir.code = none ∧ ¬ m.Blocked device ir.code := by
    rintro m ⟨r, hr⟩
    obtain ⟨val, hfetch, -⟩ := act_ret_iff.mp hr
    refine ⟨Machine.step_of_fetch hfetch, fun hblocked => ?_⟩
    cases hblocked <;> rename_i hfetch' _ <;> rw [hfetch] at hfetch' <;> cases hfetch'
  obtain ⟨hhalts, hgood⟩ := halts_iff_evaluates hfinal (fun _ hb => hb.step_eq) hsim
  constructor
  · rintro ⟨m, hreach, hret⟩
    obtain ⟨N, x, hx⟩ := hhalts.mp ⟨m, hreach, r, hret⟩
    have hval := hgood m N x hreach ⟨r, hret⟩ hx
    refine ⟨N, Option.map_eq_some_iff.mpr ⟨x, hx, ?_⟩⟩
    exact Act.ret.inj (hval.symm.trans hret)
  · rintro ⟨N, hN⟩
    obtain ⟨x, hx, rfl⟩ := Option.map_eq_some_iff.mp hN
    obtain ⟨m, hreach, hret⟩ := hhalts.mpr ⟨N, x, hx⟩
    exact ⟨m, hreach, hgood m N x hreach hret hx⟩

end

/-! ## More calls and more tests -/

section
variable {ops : IntOps D} {device : Device D W} {pointer : Nat → Option Owned} {N N' : Nat}
  {oracle oracle' : Call D W → Option (D × W)}

theorem evalLoad_mono {args : List (ExprAST D)} {ms ms' : List (Meaning D W)}
    (h : List.Forall₂ Meaning.Le ms ms') :
    Meaning.Le (evalLoad ops device pointer args ms) (evalLoad ops device pointer args ms') := by
  intro st
  unfold evalLoad
  split
  · obtain _ | ⟨_, _ | ⟨helem, ⟨⟩⟩⟩ := h
    exact (LessDefined.refl _).bind fun _ => (helem st).bind fun _ => LessDefined.refl _
  · exact fun _ hnone => by cases hnone

theorem evalStore_mono {args : List (ExprAST D)} {ms ms' : List (Meaning D W)}
    (h : List.Forall₂ Meaning.Le ms ms') :
    Meaning.Le (evalStore ops device pointer args ms) (evalStore ops device pointer args ms') := by
  intro st
  unfold evalStore
  split
  · obtain _ | ⟨_, _ | ⟨helem, _ | ⟨hval, ⟨⟩⟩⟩⟩ := h
    exact (LessDefined.refl _).bind fun _ => (helem st).bind fun r => (hval r.2).bind fun _ =>
      LessDefined.refl _
  · exact fun _ hnone => by cases hnone

theorem dialect_mono (hle : ∀ k, LessDefined (oracle k) (oracle' k)) :
    (dialect ops (device.answering oracle) pointer).Le
      (dialect ops (device.answering oracle') pointer) where
  ops := rfl
  noStep := rfl
  first := rfl
  next := rfl
  unary op x := .refl _
  call callee args ms ms' hms := by
    show Meaning.Le (evalCall ops (device.answering oracle) pointer callee args ms)
      (evalCall ops (device.answering oracle') pointer callee args ms')
    unfold evalCall
    cases findRegisterBuiltin callee with
    | some intrinsic => exact .refl _
    | none =>
      dsimp only
      split
      · exact evalLoad_mono hms
      split
      · exact evalStore_mono hms
      · intro st
        exact (evalAll_mono hms st).bind fun r =>
          callFunction_mono (fun f args world => hle (f, args, world)) callee r.1 r.2

theorem callDefinition_mono {defs : List (FunctionAST D × Nat)} (hN : N ≤ N')
    (hle : ∀ k, LessDefined (oracle k) (oracle' k)) (call : Call D W) :
    LessDefined (callDefinition ops device defs N oracle call)
      (callDefinition ops device defs N' oracle' call) := by
  unfold callDefinition
  cases defs.find? (·.1.proto.name = call.1) with
  | none => exact LessDefined.refl _
  | some p =>
    dsimp only
    split
    · exact (eval_mono (dialect_mono hle) hN p.1.body _).map _
    · exact LessDefined.refl _

end

/-! ## The unit -/

/-- The functions, each with a name of its own, have been compiled, and accepted by a verifier
that accepts only code that refers to its own slots and pointers. -/
structure CompiledUnit (ops : IntOps D) (verifies : FunctionIR D → Bool)
    (functions : List (FunctionAST D)) (irs : List (FunctionIR D)) : Prop where
  distinct : (functions.map (·.proto.name)).Nodup
  built : ∃ s', genTopLevel ops verifies functions {} = .ok irs s'
  verifier : ∀ ir, verifies ir = true → OwnCode ir.number ir.code
  noRepeat : ∀ f ∈ functions, noRepeat f.body = true
  keepsParams : ∀ f ∈ functions, KeepsParams f.proto

/-- What is known of a function of a compiled unit. -/
structure Compiled (ops : IntOps D) (p : FunctionAST D × Nat) (ir : FunctionIR D) : Prop where
  isFor : ir.IsFor ops p.1 ⟨p.2, p.1.proto.name⟩
  own : OwnCode ir.number ir.code
  noRepeat : noRepeat p.1.body = true
  keepsParams : KeepsParams p.1.proto

section
variable {ops : IntOps D} {verifies : FunctionIR D → Bool} {functions : List (FunctionAST D)}
  {irs : List (FunctionIR D)} {p : FunctionAST D × Nat} {ir : FunctionIR D}

theorem CompiledUnit.compiled (h : CompiledUnit ops verifies functions irs) :
    List.Forall₂ (Compiled ops) functions.zipIdx irs := by
  obtain ⟨s', hrun⟩ := h.built
  have hstart : ({} : CairoState D).Begun :=
    ⟨fun _ _ hx => (by cases hx), fun _ hp => (by cases hp)⟩
  have hall := genTopLevel_ok hstart h.distinct (fun _ _ => List.not_mem_nil) hrun
  rw [List.forall₂_iff_get] at hall ⊢
  refine ⟨hall.1, fun i hi hi' => ?_⟩
  obtain ⟨hfor, hverified⟩ := hall.2 i hi hi'
  have hmem : (functions.zipIdx.get ⟨i, hi⟩).1 ∈ functions :=
    List.fst_mem_of_mem_zipIdx (List.get_mem _ _)
  exact ⟨hfor, h.verifier _ hverified, h.noRepeat _ hmem, h.keepsParams _ hmem⟩

theorem Compiled.doubles_eq (h : Compiled ops p ir) :
    ir.signature.doubles = (localParams p.1.proto).length := by
  rw [h.isFor.signature, Signature.doubles, localParams]
  cases isKernel p.1.proto.name <;> rfl

/-- A name finds a function and the definition it was compiled from, or neither. -/
theorem find_compiled {defs : List (FunctionAST D × Nat)} (h : List.Forall₂ (Compiled ops) defs irs)
    (name : Name) :
    (defs.find? (·.1.proto.name = name) = none ∧ irs.find? (·.name = name) = none) ∨
    ∃ p ir, defs.find? (·.1.proto.name = name) = some p ∧ irs.find? (·.name = name) = some ir ∧
      Compiled ops p ir := by
  induction h with
  | nil => exact .inl ⟨rfl, rfl⟩
  | @cons p ir defs irs hhead _ ih =>
    by_cases hname : p.1.proto.name = name
    · have hname' : ir.name = name := hhead.isFor.name.trans hname
      exact .inr ⟨p, ir, by simp [hname], by simp [hname'], hhead⟩
    · have hname' : ¬ ir.name = name := by rwa [hhead.isFor.name]
      simpa [hname, hname'] using ih

/-- Each compiled function does on its own what its definition says. -/
theorem linked_describes {defs : List (FunctionAST D × Nat)}
    (h : List.Forall₂ (Compiled ops) defs irs) (device : Device D W) :
    (linked ops device irs).Describes (callDefinition ops device defs) where
  mono hN hle := callDefinition_mono hN hle _
  inside := by
    intro oracle what m r henter
    obtain ⟨ir, hir, hm⟩ := Option.bind_eq_some_iff.mp henter
    rcases find_compiled h what.1 with ⟨-, hnone⟩ | ⟨p, ir', hp, hir', hcompiled⟩
    · rw [hnone] at hir
      cases hir
    · obtain rfl : ir' = ir := Option.some.inj (hir'.symm.trans hir)
      split at hm
      · rename_i hlen
        cases hm
        rw [hcompiled.doubles_eq] at hlen
        obtain ⟨c⟩ := hcompiled.isFor.code
        rw [returns_linked,
          c.halts_iff hcompiled.own hcompiled.noRepeat hcompiled.keepsParams _ hlen]
        simp only [callDefinition, hp, hlen, if_true, hcompiled.isFor.number]
      · cases hm
  outside := by
    intro n oracle what henter
    show _ = if (irs.find? (·.name = what.1)).isSome then none
      else device.call what.1 what.2.1 what.2.2
    rcases find_compiled h what.1 with ⟨hp, hir⟩ | ⟨p, ir, hp, hir, hcompiled⟩
    · simp only [callDefinition, hp, hir, Option.isSome_none, Bool.false_eq_true, if_false]
    · have hlen : ¬ what.2.1.length = (localParams p.1.proto).length := by
        intro hlen
        rw [← hcompiled.doubles_eq] at hlen
        simp [linked, hir, hlen] at henter
      simp only [callDefinition, hp, hir, hlen, if_false, Option.isSome_some, if_true]

/-- Kernels that are launched and device functions that are called answer with what their
definitions mean when these call each other, and without one when there is no meaning. -/
theorem unit_answers_iff (h : CompiledUnit ops verifies functions irs) (device : Device D W)
    (call : Call D W) (r : D × W) : (linked ops device irs).Answers call r ↔
      ∃ N, meaning (callDefinition ops device functions.zipIdx) N call = some r :=
  (linked_describes h.compiled device).answers_iff call r

end

/-! ## A unit with a kernel -/

section
variable {ops : IntOps D} {verifies : FunctionIR D → Bool} {functions : List (FunctionAST D)}
  {irs : List (FunctionIR D)} {f : FunctionAST D} {ir : FunctionIR D} {s s' : CairoState D}

/-- What a verifier that rejects nothing lets through, one lets through that accepts it. -/
theorem genTopLevel_verified (h : genTopLevel ops (fun _ => true) functions s = .ok irs s')
    (hv : ∀ ir ∈ irs, verifies ir = true) : genTopLevel ops verifies functions s = .ok irs s' := by
  induction functions generalizing s irs with
  | nil => exact h
  | cons f functions ih =>
    obtain ⟨ir, s₁, hfunction, h⟩ := Gen.bind_ok h
    obtain ⟨irs', s₂, hrest, h⟩ := Gen.bind_ok h
    cases h
    obtain ⟨-, s₃, hcode, hs₁⟩ := genFunction_ok_iff.mp hfunction
    have hhead : genFunction ops verifies f s = .ok ir s₁ :=
      genFunction_ok_iff.mpr ⟨hv ir (List.mem_cons_self ..), s₃, hcode, hs₁⟩
    have htail := ih hrest fun ir hir => hv ir (List.mem_cons_of_mem _ hir)
    rw [genTopLevel, Gen.bind_of_ok hhead, Gen.bind_of_ok htail]
    rfl

/-- Functions that read nothing of earlier ones refer to nothing of them. -/
theorem genTopLevel_own (hreads : AllSteps ops verifies (ReadsOwn ops) functions s)
    (h : genTopLevel ops verifies functions s = .ok irs s') :
    ∀ ir ∈ irs, OwnCode ir.number ir.code := by
  induction functions generalizing s irs with
  | nil =>
    cases h
    exact List.forall_mem_nil _
  | cons f functions ih =>
    obtain ⟨ir, s₁, hfunction, h⟩ := Gen.bind_ok h
    obtain ⟨irs', s₂, hrest, h⟩ := Gen.bind_ok h
    cases h
    refine List.forall_mem_cons.mpr ⟨?_, ih (hreads.2 ir s₁ hfunction) hrest⟩
    obtain ⟨-, s₃, hcode, -⟩ := genFunction_ok_iff.mp hfunction
    have hisolated : Isolated ops s f := isolated_of_readsOwn hreads.1
    have hlocal := hisolated.2 ir _ (by rw [generated, hcode])
    exact fun l i hi => (hlocal l i hi).1

end

/-- One pointer, to memory in the world. -/
def listDevice : Device Int (List Int) where
  call _ _ _ := none
  special _ _ := 0
  load _ i w := if 0 ≤ i then w[i.toNat]? else none
  store _ i x w := if 0 ≤ i ∧ i.toNat < w.length then some (w.set i.toNat x) else none

/-- `def kernel_k(p) for i = 0, 3, 1 in cairoStore(0, i, f(cairoLoad(0, i)))`. -/
def kernelOfFactorials : FunctionAST Int where
  proto := { name := text "kernel_k", args := [text "p"] }
  body := .forExpr (text "i") (.numberExpr 0) (.numberExpr 3) (.numberExpr 1)
    (.callExpr (text "cairoStore") [.numberExpr 0, .variableExpr (text "i"),
      .callExpr (text "f")
      [.callExpr (text "cairoLoad") [.numberExpr 0, .variableExpr (text "i")]]])

theorem unit_answers_iff_factorials : ∃ verifies irs,
    CompiledUnit wholeIntOps verifies [Athens.factorial, kernelOfFactorials] irs ∧
    (linked wholeIntOps listDevice irs).Answers (text "kernel_k", [], [3, 4, 5])
    (0, [6, 24, 120]) := by
  have hsome : (genTopLevel wholeIntOps (fun _ => true)
      [Athens.factorial, kernelOfFactorials] {}).value?.isSome = true := by
    decide +kernel
  obtain ⟨irs, hirs⟩ := Option.isSome_iff_exists.mp hsome
  obtain ⟨s', hrun⟩ := Outcome.ok_of_value hirs
  have hreads : AllSteps wholeIntOps (fun _ => true) (ReadsOwn wholeIntOps)
      [Athens.factorial, kernelOfFactorials] {} := by
    refine ⟨readsOwn_first _ _, fun ir s hfirst => ⟨readsOwn_of_nil ?_, fun _ _ _ => trivial⟩⟩
    have hnil : (genFunction wholeIntOps (fun _ => true) Athens.factorial {}).state?.map
        (unwrittenReads wholeIntOps · kernelOfFactorials) = some [] := by decide +kernel
    rw [hfirst] at hnil
    exact Option.some.inj hnil
  have hown := genTopLevel_own hreads hrun
  classical
  let verifies (ir : FunctionIR Int) : Bool := decide (OwnCode ir.number ir.code)
  have hunit : CompiledUnit wholeIntOps verifies [Athens.factorial, kernelOfFactorials] irs := by
    refine ⟨by decide, ⟨s', genTopLevel_verified hrun fun ir hir => decide_eq_true (hown ir hir)⟩,
      fun ir => of_decide_eq_true, by decide +kernel, ?_⟩
    intro f hf hdevice
    rcases List.mem_cons.mp hf with rfl | hf
    · exact ⟨by decide, by decide, ⟨by decide, by decide +kernel⟩⟩
    · obtain rfl := List.mem_singleton.mp hf
      cases hdevice
  refine ⟨verifies, irs, hunit, (unit_answers_iff hunit listDevice _ _).mpr ⟨8, ?_⟩⟩
  decide +kernel

end AroundTheWorld.Cairo
