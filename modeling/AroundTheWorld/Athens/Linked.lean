import AroundTheWorld.Athens.Correct
import AroundTheWorld.Athens.Prologue
import AroundTheWorld.Base.Linking

/-!
# Athens functions, linked

The functions that the JIT has been handed call each other. What they answer is what
their definitions mean when these call each other: a parameter is a local of the body, and
the bound on the depth of calls is one on the tests of each loop as well.
-/

namespace AroundTheWorld.Athens

open AroundTheWorld.Base AroundTheWorld.Lex AroundTheWorld.Llvm

variable {D W : Type}

/-- The callee, the arguments, and the world. -/
abbrev Call (D W : Type) := Name × List D × W

/-! ## What definitions mean -/

section
variable (ops : FloatOps D)

/-- The locals of a body: the last parameter is the innermost one. -/
def PrototypeAST.locals (p : PrototypeAST) (args : List D) : List (Name × D) :=
  (p.args.zip args).reverse

def FunctionAST.eval (f : FunctionAST D) (N : Nat) (callees : Callees D Name W) (args : List D)
    (world : W) : Option (D × W) :=
  (Athens.eval ops callees (fun _ => none) N f.body
    ⟨f.proto.locals args, fun _ => ops.zero, world, []⟩).map fun r => (r.1, r.2.world)

/-- A call of a definition, or of a function that is not defined. One with another number of
arguments has no meaning. -/
def callDefinition (ext : Callees D Name W) (defs : List (FunctionAST D)) (N : Nat)
    (oracle : Call D W → Option (D × W)) (call : Call D W) : Option (D × W) :=
  match defs.find? (·.proto.name = call.1) with
  | some f =>
    if call.2.1.length = f.proto.args.length then
      f.eval ops N (fun callee args world => oracle (callee, args, world)) call.2.1 call.2.2
    else none
  | none => ext call.1 call.2.1 call.2.2

end

/-! ## What more calls and more tests change -/

section
variable {ops : FloatOps D} {callees callees' : Callees D Name W} {table : Name → Option Nat}
  {N N' : Nat}

theorem evalCall_mono (hle : ∀ f args w, LessDefined (callees f args w) (callees' f args w))
    (callee : Name) (args : List D) (st : EvalState D W) :
    LessDefined (evalCall callees callee args st) (evalCall callees' callee args st) :=
  (hle callee args st.world).map _

theorem evalBinary_mono (hle : ∀ f args w, LessDefined (callees f args w) (callees' f args w))
    (op : Byte) (x y : D) (st : EvalState D W) :
    LessDefined (evalBinary ops callees op x y st) (evalBinary ops callees' op x y st) := by
  unfold evalBinary
  split
  · exact LessDefined.refl _
  split
  · exact LessDefined.refl _
  split
  · exact LessDefined.refl _
  split
  · exact LessDefined.refl _
  · exact evalCall_mono hle _ _ st

theorem evalAssignment_mono {lhs : ExprAST D} {x y : Option (D × EvalState D W)}
    (h : LessDefined x y) :
    LessDefined (evalAssignment table lhs x) (evalAssignment table lhs y) := by
  cases lhs with
  | variableExpr name => exact h.bind fun _ => LessDefined.refl _
  | _ => exact LessDefined.refl _

theorem evalLoop_mono {iteration iteration' : EvalState D W → Option (Bool × EvalState D W)}
    (hN : N ≤ N') (hle : ∀ st, LessDefined (iteration st) (iteration' st)) (st : EvalState D W) :
    LessDefined (evalLoop N iteration st) (evalLoop N' iteration' st) := by
  refine LessDefined.map (fun r hr => ?_) _
  exact whileLoop_mono (fun p q => hle p.2 q) hN hr

/-- With more calls that come back, and more tests of loops, there are only more results. -/
theorem eval_mono (hle : ∀ f args w, LessDefined (callees f args w) (callees' f args w))
    (hN : N ≤ N') (e : ExprAST D) (st : EvalState D W) :
    LessDefined (eval ops callees table N e st) (eval ops callees' table N' e st) := by
  induction e using ExprAST.induction generalizing st with
  | null =>
    rw [eval, eval]
    exact LessDefined.refl _
  | numberExpr val =>
    rw [eval, eval]
    exact LessDefined.refl _
  | variableExpr name =>
    rw [eval, eval]
    exact LessDefined.refl _
  | unaryExpr op operand ih =>
    rw [eval, eval]
    exact (ih st).bind fun _ => evalCall_mono hle _ _ _
  | binaryExpr op lhs rhs ihl ihr =>
    rw [eval, eval]
    split
    · exact evalAssignment_mono (ihr st)
    · exact (ihl st).bind fun _ => (ihr _).bind fun _ => evalBinary_mono hle _ _ _ _
  | callExpr callee args ih =>
    have hargs : ∀ st, LessDefined (evalArgs ops callees table N args st)
        (evalArgs ops callees' table N' args st) := by
      induction args with
      | nil =>
        intro st
        rw [evalArgs, evalArgs]
        exact LessDefined.refl _
      | cons arg args ihs =>
        intro st
        rw [evalArgs, evalArgs]
        exact (ih arg (List.mem_cons_self ..) st).bind fun _ =>
          (ihs (fun a ha => ih a (List.mem_cons_of_mem _ ha)) _).map _
    rw [eval, eval]
    exact (hargs st).bind fun _ => evalCall_mono hle _ _ _
  | ifExpr cond then_ else_ ihc iht ihe =>
    rw [eval, eval]
    refine (ihc st).bind ?_
    rintro ⟨x, st₁⟩
    dsimp only
    cases ops.one x ops.zero with
    | true => exact iht st₁
    | false => exact ihe st₁
  | forExpr varName start end_ step body ihs ihe ihst ihb =>
    rw [eval, eval]
    refine (ihs st).bind fun r => (evalLoop_mono hN (fun st => ?_) _).map _
    refine (ihb st).bind fun _ => LessDefined.bind ?_ fun _ => (ihe _).map _
    split
    · exact LessDefined.refl _
    · exact ihst _
  | varExpr varNames body ihs ihb =>
    have hbindings : ∀ st, LessDefined (evalBindings ops callees table N varNames st)
        (evalBindings ops callees' table N' varNames st) := by
      induction varNames with
      | nil =>
        intro st
        rw [evalBindings, evalBindings]
        exact LessDefined.refl _
      | cons b rest ih =>
        intro st
        rw [evalBindings, evalBindings]
        refine LessDefined.bind ?_ fun _ => ih (fun b hb => ihs b (List.mem_cons_of_mem _ hb)) _
        split
        · exact LessDefined.refl _
        · exact ihs b (List.mem_cons_self ..) st
    rw [eval, eval]
    exact (hbindings st).bind fun _ => (ihb _).map _

end

/-! ## What functions do -/

section
variable (ops : FloatOps D)

/-- In front of the entry block of a function that was called: the arguments are its first
registers. -/
def startMachine (args : List D) (world : W) : Machine D Name W :=
  ⟨0, 0, 0, fun r => args.getD r ops.zero, fun _ => false, fun _ => ops.zero, world, []⟩

/-- What an instruction does: a call waits for its answer. -/
def FunctionIR.perform (fn : FunctionIR D) (m : Machine D Name W) :
    Instr D Name → Act (FunctionIR D × Machine D Name W) (Call D W) (D × W)
  | .call dst callee args =>
    .call (callee, args.map m.val, m.world) fun r =>
      (fn, { m.setReg dst r.1 with world := r.2, calls := m.calls ++ [(callee, args.map m.val)] })
  | i =>
    match m.exec ops (fun _ _ _ => none) i with
    | some m' => .next (fn, m')
    | none => .stuck

/-- What a function does next; behind its last instruction there is the `ret`. -/
def FunctionIR.act (fn : FunctionIR D) (m : Machine D Name W) :
    Act (FunctionIR D × Machine D Name W) (Call D W) (D × W) :=
  match (fn.body.code m.block)[m.index]? with
  | some i => fn.perform ops m i
  | none =>
    if m.block = fn.body.insertBlock ∧ m.index = (fn.body.code fn.body.insertBlock).length then
      .ret (m.val fn.retVal, m.world)
    else .stuck

/-- The functions of the JIT, and functions of the process for all other names. -/
def linked (ext : Callees D Name W) (fns : List (FunctionIR D)) :
    Procedures (FunctionIR D × Machine D Name W) (Call D W) (D × W) where
  act s := s.1.act ops s.2
  enter call := (fns.find? (·.name = call.1)).bind fun fn =>
    if call.2.1.length = fn.args.length then some (fn, startMachine ops call.2.1 call.2.2) else none
  outside call :=
    if (fns.find? (·.name = call.1)).isSome then none else ext call.1 call.2.1 call.2.2

end

section
variable {ops : FloatOps D} {ext : Callees D Name W} {fns : List (FunctionIR D)}
  {fn : FunctionIR D} {m : Machine D Name W} {oracle : Call D W → Option (D × W)} {r : D × W}

theorem openStep_perform {i : Instr D Name} (hact : fn.act ops m = fn.perform ops m i) :
    (linked ops ext fns).openStep oracle (fn, m) =
      (m.exec ops (fun callee args world => oracle (callee, args, world)) i).map (fn, ·) := by
  have hact' : (linked ops ext fns).act (fn, m) = fn.perform ops m i := hact
  rw [Procedures.openStep, hact']
  cases i with
  | call dst callee args =>
    simp only [FunctionIR.perform, Machine.exec, Option.map_map]
    rfl
  | phi dst incoming =>
    simp only [FunctionIR.perform, Machine.exec]
    cases incoming.find? fun entry => entry.2 == m.prev <;> rfl
  | _ => rfl

/-- On its own, a function runs like its code, with the oracle in place of the callees. -/
theorem openStep_linked : (linked ops ext fns).openStep oracle (fn, m) =
    (m.step ops (fun callee args world => oracle (callee, args, world)) fn.body.code).map
      (fn, ·) := by
  rw [Machine.step]
  cases hfetch : (fn.body.code m.block)[m.index]? with
  | some i =>
    refine openStep_perform ?_
    rw [FunctionIR.act, hfetch]
  | none =>
    have hact : (linked ops ext fns).act (fn, m) =
        if m.block = fn.body.insertBlock ∧ m.index = (fn.body.code fn.body.insertBlock).length then
          .ret (m.val fn.retVal, m.world)
        else .stuck := by
      show fn.act ops m = _
      rw [FunctionIR.act, hfetch]
    by_cases hend : m.block = fn.body.insertBlock ∧
        m.index = (fn.body.code fn.body.insertBlock).length
    · rw [Procedures.openStep, hact, if_pos hend]
      rfl
    · rw [Procedures.openStep, hact, if_neg hend]
      rfl

theorem act_ret_iff : (linked ops ext fns).act (fn, m) = .ret r ↔
    fn.body.At m ∧ (m.val fn.retVal, m.world) = r := by
  show fn.act ops m = .ret r ↔ _
  rw [FunctionIR.act]
  cases hfetch : (fn.body.code m.block)[m.index]? with
  | some i =>
    constructor
    · intro h
      cases i with
      | phi dst incoming =>
        simp only [FunctionIR.perform, Machine.exec] at h
        cases hfind : incoming.find? fun entry => entry.2 == m.prev <;> rw [hfind] at h <;> cases h
      | _ => cases h
    · rintro ⟨⟨hblock, hindex⟩, -⟩
      rw [hblock, hindex] at hfetch
      simp at hfetch
  | none =>
    dsimp only
    constructor
    · intro h
      split at h
      · rename_i hend
        cases h
        exact ⟨⟨hend.1, hend.2⟩, rfl⟩
      · cases h
    · rintro ⟨⟨hblock, hindex⟩, rfl⟩
      rw [if_pos ⟨hblock, hindex⟩]

/-- A function that was called returns what its code ends with. -/
theorem returns_linked : (linked ops ext fns).Returns oracle (fn, m) r ↔
    ∃ m', Reaches (Machine.step ops (fun callee args world => oracle (callee, args, world))
      fn.body.code) m m' ∧ fn.body.At m' ∧ (m'.val fn.retVal, m'.world) = r := by
  rw [Procedures.returns_beside fun _ => openStep_linked]
  exact exists_congr fun _ => and_congr_right fun _ => act_ret_iff

end

/-! ## The prologue at run time -/

section
variable {code : Code D Name}

/-- The slots of the arguments from `cell` on, the last one first. -/
def paramScope (cell : Nat) (args : List Name) (scope : Scope) : Scope :=
  match args with
  | [] => scope
  | arg :: args => paramScope (cell + 1) args ((arg, cell) :: scope)

def EvalState.pushAll (st : EvalState D W) (bindings : List (Name × D)) : EvalState D W :=
  bindings.foldl (fun st b => st.push b.1 b.2) st

theorem pushAll_locals (st : EvalState D W) (bindings : List (Name × D)) :
    st.pushAll bindings = { st with locals := bindings.reverse ++ st.locals } := by
  induction bindings generalizing st with
  | nil => rfl
  | cons b bindings ih =>
    rw [EvalState.pushAll, List.foldl_cons]
    refine (ih (st.push b.1 b.2)).trans ?_
    rw [List.reverse_cons, List.append_assoc]
    rfl

theorem bindParams_grows (reg : Nat) (args : List Name) (s : AthensState D) :
    Builder.Grows s.builder (s.bindParams reg args).builder := by
  induction args generalizing reg s with
  | nil => exact .refl _
  | cons arg args ih =>
    exact ((Builder.Grows.createAlloca _).trans (.emit _ _)).trans
      (ih (reg + 1) (s.bindParam reg arg))

theorem Ready.bindParam {table : Name → Option Nat} {scope : Scope} {s : AthensState D}
    (hr : Ready table 0 scope s) (reg : Nat) (arg : Name) :
    Ready table 0 ((arg, s.builder.nextCell) :: scope) (s.bindParam reg arg) := by
  have hrAlloca : Ready table 0 scope
      (s.withBuilder (s.builder.createAlloca.2.createStore (.reg reg) s.builder.nextCell)) :=
    hr.withBuilder (hr.wf.createAlloca.emit _) (Nat.le_succ _)
  exact hrAlloca.push ⟨Nat.zero_le _, Nat.lt_succ_self _⟩ fun b hb => (hr.cells b hb).2

theorem Ready.bindParams {table : Name → Option Nat} {scope : Scope} {s : AthensState D}
    (hr : Ready table 0 scope s) (reg : Nat) (args : List Name) :
    Ready table 0 (paramScope s.builder.nextCell args scope) (s.bindParams reg args) := by
  induction args generalizing reg s scope with
  | nil => exact hr
  | cons arg args ih => exact ih (hr.bindParam reg arg) (reg + 1)

/-- The stores that the loop over the arguments emits: in front of them the scope is
`scope`, and behind them the arguments are in it, with the values of their registers. -/
theorem run_bindParams (ops : FloatOps D) (callees : Callees D Name W)
    {table : Name → Option Nat} (args : List Name) (vals : List D)
    (hlen : vals.length = args.length) :
    ∀ (reg : Nat) (s : AthensState D) (scope : Scope) (st : EvalState D W) (m : Machine D Name W),
    (s.bindParams reg args).builder.Within code → Ready table 0 scope s → s.builder.At m →
    Agrees 0 scope st m → (∀ i x, vals[i]? = some x → m.regs (reg + i) = x) →
    ∃ m', Reaches (Machine.step ops callees code) m m' ∧ (s.bindParams reg args).builder.At m' ∧
      Agrees 0 (paramScope s.builder.nextCell args scope) (st.pushAll (args.zip vals)) m' := by
  induction args generalizing vals with
  | nil =>
    intro reg s scope st m _ _ hm hst _
    exact ⟨m, Reaches.refl, hm, hst⟩
  | cons arg args ih =>
    intro reg s scope st m hw hr hm hst hregs
    cases vals with
    | nil => cases hlen
    | cons x vals =>
      have hwArg :
          (s.builder.createAlloca.2.createStore (.reg reg) s.builder.nextCell).Within code :=
        .of_grows (bindParams_grows (reg + 1) args (s.bindParam reg arg)) hw
      have hmAlloca : s.builder.createAlloca.2.At m := ⟨hm.block, hm.index⟩
      have hx : m.val (.reg reg) = x := hregs 0 x rfl
      obtain ⟨hreach, hat⟩ := Builder.run_createStore ops callees hmAlloca (.reg reg) _
        (.of_le hwArg)
      rw [hx] at hreach hat
      have hstArg : Agrees 0 ((arg, s.builder.nextCell) :: scope) (st.push arg x)
          (m.setCell s.builder.nextCell x) :=
        hst.push (Nat.zero_le _) (fun b hb => (hr.cells b hb).2) x
      have hregs' : ∀ i y, vals[i]? = some y →
          (m.setCell s.builder.nextCell x).regs (reg + 1 + i) = y := by
        intro i y hy
        have hreg : reg + 1 + i = reg + (i + 1) := by omega
        rw [hreg]
        exact hregs (i + 1) y hy
      obtain ⟨m', hreach', hat', hst'⟩ := ih vals (Nat.succ.inj hlen) (reg + 1)
        (s.bindParam reg arg) _ _ _ hw (hr.bindParam reg arg) hat hstArg hregs'
      exact ⟨m', hreach.trans hreach', hat', hst'⟩

end

/-! ## Compiled definitions -/

/-- The definition was compiled to the function, in the scope of its own parameters. -/
structure CompiledFrom (ops : FloatOps D) (f : FunctionAST D) (fn : FunctionIR D) : Prop where
  generated : ∃ s s', f.codegen ops s = .ok fn s'
  params : fn.args = f.proto.args
  noRepeat : noRepeat f.body = true

section
variable {ops : FloatOps D} {f : FunctionAST D} {fn : FunctionIR D}

theorem ready_declared (f : FunctionAST D) (s : AthensState D) :
    Ready (fun _ => none) 0 [] (f.declared s) := by
  refine ⟨⟨Nat.one_pos, fun _ _ => rfl⟩, rfl, ?_, List.nodup_nil, Nat.le_refl _, ?_⟩
  · intro b hb
    cases hb
  · intro x c hc
    cases hc

/-- A compiled definition computes what its body means, whatever the callees. -/
theorem CompiledFrom.halts_iff (h : CompiledFrom ops f fn) (callees : Callees D Name W)
    {args : List D} (hlen : args.length = f.proto.args.length) (world : W) (r : D × W) :
    (∃ m', Reaches (Machine.step ops callees fn.body.code) (startMachine ops args world) m' ∧
      fn.body.At m' ∧ (m'.val fn.retVal, m'.world) = r) ↔
      ∃ N, f.eval ops N callees args world = some r := by
  obtain ⟨s, g, hcode⟩ := h.generated
  obtain ⟨v, hbody, rfl⟩ := FunctionAST.codegen_generated hcode
  have hparams : f.argNames s = f.proto.args := h.params
  have hready := (ready_declared f s).bindParams 0 (f.argNames s)
  have hemitted := codegen_emitted f.body _ _ _ hready.wf hbody
  -- behind the prologue, in front of the body
  obtain ⟨m, hreach, hat, hst⟩ := run_bindParams ops callees
    (f.argNames s) args (by rw [hparams, hlen]) 0 (f.declared s) []
    ⟨[], fun _ => ops.zero, world, []⟩ (startMachine ops args world)
    (.of_grows hemitted.grows fun _ => List.prefix_rfl) (ready_declared f s) ⟨rfl, rfl⟩
    ⟨rfl, by simp, rfl, rfl⟩ (fun i x hx => by simp [startMachine, hx])
  have hlocals : ((f.argNames s).zip args).reverse = f.proto.locals args := by
    rw [hparams]
    rfl
  rw [pushAll_locals, List.append_nil, hlocals] at hst
  have hsim : ∀ N, Simulates (Machine.step ops callees g.builder.code) N
      (Machine.Blocked ops callees g.builder.code) (startMachine ops args world)
      (eval ops callees (fun _ => none) N f.body
        ⟨f.proto.locals args, fun _ => ops.zero, world, []⟩)
      (fun x m' => g.builder.At m' ∧ (m'.val v, m'.world) = (x.1, x.2.world)) := by
    intro N
    have hcompiled : Compiled ops callees (fun _ => none) 0 g.builder.code N f.body :=
      compiled f.body
    refine ((hcompiled _ g v _ hbody h.noRepeat hready (fun _ => List.prefix_rfl) m _ hat
      hst).mono ?_).after hreach
    intro x m' hx
    exact ⟨hx.at_, Prod.ext hx.val hx.agrees.world⟩
  obtain ⟨hhalts, hgood⟩ := halts_iff_evaluates (fun _ hend => hend.halted)
    (fun _ hb => hb.step_eq) hsim
  constructor
  · rintro ⟨m', hreach', hend, rfl⟩
    obtain ⟨N, x, hx⟩ := hhalts.mp ⟨m', hreach', hend⟩
    refine ⟨N, Option.map_eq_some_iff.mpr ⟨x, hx, (hgood m' N x hreach' hend hx).symm⟩⟩
  · rintro ⟨N, hN⟩
    obtain ⟨x, hx, rfl⟩ := Option.map_eq_some_iff.mp hN
    obtain ⟨m', hreach', hend⟩ := hhalts.mpr ⟨N, x, hx⟩
    exact ⟨m', hreach', hend, hgood m' N x hreach' hend hx⟩

theorem CompiledFrom.name_eq (h : CompiledFrom ops f fn) : fn.name = f.proto.name := by
  obtain ⟨s, g, hcode⟩ := h.generated
  exact (FunctionAST.codegen_ok hcode).1

end

section
variable {ops : FloatOps D} {defs : List (FunctionAST D)} {fns : List (FunctionIR D)}

/-- A name finds a function and the definition it was compiled from, or neither. -/
theorem find_compiled (h : List.Forall₂ (CompiledFrom ops) defs fns) (name : Name) :
    (defs.find? (·.proto.name = name) = none ∧ fns.find? (·.name = name) = none) ∨
    ∃ f fn, defs.find? (·.proto.name = name) = some f ∧ fns.find? (·.name = name) = some fn ∧
      CompiledFrom ops f fn := by
  induction h with
  | nil => exact .inl ⟨rfl, rfl⟩
  | @cons f fn defs fns hhead _ ih =>
    by_cases hname : f.proto.name = name
    · have hname' : fn.name = name := hhead.name_eq.trans hname
      exact .inr ⟨f, fn, by simp [hname], by simp [hname'], hhead⟩
    · have hname' : ¬ fn.name = name := by rwa [hhead.name_eq]
      simpa [hname, hname'] using ih

theorem callDefinition_mono {ext : Callees D Name W} {N N' : Nat}
    {oracle oracle' : Call D W → Option (D × W)} (hN : N ≤ N')
    (hle : ∀ k, LessDefined (oracle k) (oracle' k)) (call : Call D W) :
    LessDefined (callDefinition ops ext defs N oracle call)
      (callDefinition ops ext defs N' oracle' call) := by
  unfold callDefinition
  cases defs.find? (·.proto.name = call.1) with
  | none => exact LessDefined.refl _
  | some f =>
    dsimp only
    split
    · exact (eval_mono (fun callee args world => hle (callee, args, world)) hN f.body _).map _
    · exact LessDefined.refl _

/-- Each compiled function does on its own what its definition says. -/
theorem linked_describes (h : List.Forall₂ (CompiledFrom ops) defs fns)
    (ext : Callees D Name W) :
    (linked ops ext fns).Describes (callDefinition ops ext defs) where
  mono hN hle := callDefinition_mono hN hle _
  inside := by
    intro oracle what m r henter
    obtain ⟨fn, hfn, hm⟩ := Option.bind_eq_some_iff.mp henter
    rcases find_compiled h what.1 with ⟨-, hnone⟩ | ⟨f, fn', hf, hfn', hcompiled⟩
    · rw [hnone] at hfn
      cases hfn
    · obtain rfl : fn' = fn := Option.some.inj (hfn'.symm.trans hfn)
      split at hm
      · rename_i hlen
        cases hm
        rw [hcompiled.params] at hlen
        rw [returns_linked, hcompiled.halts_iff _ hlen]
        simp only [callDefinition, hf, hlen, if_true]
      · cases hm
  outside := by
    intro n oracle what henter
    show _ = if (fns.find? (·.name = what.1)).isSome then none else ext what.1 what.2.1 what.2.2
    rcases find_compiled h what.1 with ⟨hf, hfn⟩ | ⟨f, fn, hf, hfn, hcompiled⟩
    · simp only [callDefinition, hf, hfn, Option.isSome_none, Bool.false_eq_true, if_false]
    · have hlen : ¬ what.2.1.length = f.proto.args.length := by
        intro hlen
        rw [← hcompiled.params] at hlen
        simp [linked, hfn, hlen] at henter
      simp only [callDefinition, hf, hfn, hlen, if_false, Option.isSome_some, if_true]

/-- Compiled definitions that call each other answer what the definitions mean: with an
answer that is the meaning, and without one when there is no meaning. -/
theorem linked_answers_iff (h : List.Forall₂ (CompiledFrom ops) defs fns)
    (ext : Callees D Name W) (call : Call D W) (r : D × W) :
    (linked ops ext fns).Answers call r ↔
      ∃ N, meaning (callDefinition ops ext defs) N call = some r :=
  (linked_describes h ext).answers_iff call r

end

/-- `def f(n) if n < 2 then 1 else n * f(n - 1)`. -/
def factorial : FunctionAST Int where
  proto := { name := text "f", args := [text "n"] }
  body := .ifExpr (.binaryExpr (byte '<') (.variableExpr (text "n")) (.numberExpr 2))
    (.numberExpr 1)
    (.binaryExpr (byte '*') (.variableExpr (text "n"))
      (.callExpr (text "f") [.binaryExpr (byte '-') (.variableExpr (text "n")) (.numberExpr 1)]))

theorem linked_answers_iff_factorial : ∃ fn s', factorial.codegen wholeOps {} = .ok fn s' ∧
    (linked wholeOps (fun _ _ _ => none) [fn]).Answers (text "f", [5], ()) (120, ()) := by
  have hargs : (factorial.codegen wholeOps {}).value?.map (·.args) = some [text "n"] := by
    decide +kernel
  obtain ⟨fn, hfn, hargs⟩ := Option.map_eq_some_iff.mp hargs
  obtain ⟨s', hcode⟩ := Outcome.ok_of_value hfn
  have hcompiled : CompiledFrom wholeOps factorial fn := ⟨⟨_, s', hcode⟩, hargs, by decide +kernel⟩
  refine ⟨fn, s', hcode, (linked_answers_iff (.cons hcompiled .nil) _ _ _).mpr ⟨6, ?_⟩⟩
  decide +kernel

end AroundTheWorld.Athens
