import AroundTheWorld.Berlin.Iterations
import AroundTheWorld.Berlin.Structure
import AroundTheWorld.Counted.Functions

/-!
# Berlin's functions, linked

The definition of a module calls itself, and functions that the module only declares. What
it answers is what the definition means.
-/

namespace AroundTheWorld.Berlin

open AroundTheWorld.Base AroundTheWorld.Lex AroundTheWorld.Mlir AroundTheWorld.Counted
open AroundTheWorld.Athens (Call ExprAST FunctionAST Name noRepeat)
open AroundTheWorld.Llvm (IntOps FloatOps Callees wholeIntOps)

variable {D W : Type}

/-! ## What functions do -/

section
variable (ops : IntOps D)

/-- What an activation does next: a call waits for its answer. -/
def act (blocks : Nat → List (Op D Name)) (a : Activation D Name W) :
    Act (Activation D Name W) (Call D W) (D × W) :=
  match a.todo, a.frames with
  | .call dst callee vals :: rest, frames =>
    .call (callee, vals.map a.env.floats, a.env.world) fun r =>
      ⟨{ a.env.setFloat dst r.1 with
          world := r.2, calls := a.env.calls ++ [(callee, vals.map a.env.floats)] }, rest, frames⟩
  | .returnOp val :: _, [] => .ret (a.env.floats val, a.env.world)
  | _, _ => .silent (a.step ops (fun _ _ _ => none) blocks)

/-- At the beginning of a function that was called. The arguments of its entry block are the
first values, since there is no function with a body in front of it. -/
def FuncOp.start (op : FuncOp) (blocks : Nat → List (Op D Name)) (call : Call D W) :
    Option (Activation D Name W) :=
  op.entry.bind fun entry =>
    if call.2.1.length = op.numInputs then
      some ⟨⟨fun r => call.2.1.getD r ops.zero, fun _ => false, fun _ => 0, fun _ => ops.zero,
        call.2.2, []⟩, blocks entry, []⟩
    else none

/-- The functions of the module; those without a body are answered outside. -/
def linked (ext : Callees D Name W) (s : ModuleState D) :
    Procedures (Activation D Name W) (Call D W) (D × W) where
  act := act ops s.gen.builder.blocks
  enter call := (s.topLevelOps.find? (·.name = call.1)).bind fun op =>
    op.start ops s.gen.builder.blocks call
  outside call :=
    if ((s.topLevelOps.find? (·.name = call.1)).bind (·.entry)).isSome then none
    else ext call.1 call.2.1 call.2.2

end

section
variable {ops : IntOps D} {ext : Callees D Name W} {s : ModuleState D}
  {blocks : Nat → List (Op D Name)} {a : Activation D Name W} {oracle : Call D W → Option (D × W)}
  {r : D × W}

/-- On its own, an activation runs like its code, with the oracle in place of the callees. -/
theorem openStep_linked : (linked ops ext s).openStep oracle a =
    a.step ops (fun callee args world => oracle (callee, args, world)) s.gen.builder.blocks := by
  have hact : (linked ops ext s).act a = act ops s.gen.builder.blocks a := rfl
  rw [Procedures.openStep, hact]
  obtain ⟨env, todo, frames⟩ := a
  cases todo with
  | nil =>
    cases frames with
    | nil => rfl
    | cons frame frames =>
      cases frame with
      | branch dst rest => rfl
      | loop iv next ub step body rest =>
        by_cases hlt : next < ub
        · simp only [act, Activation.step, if_pos hlt, Act.silent]
        · simp only [act, Activation.step, if_neg hlt, Act.silent]
  | cons op rest =>
    cases op with
    | call dst callee args =>
      show Option.map _ _ = Option.map _ (Option.map _ _)
      rw [Option.map_map]
      rfl
    | yieldOp val =>
      cases frames with
      | nil => rfl
      | cons frame frames => cases frame <;> rfl
    | returnOp val => cases frames <;> rfl
    | _ => rfl

theorem act_ret_iff : act ops blocks a = .ret r ↔ ∃ val more,
    a.todo = .returnOp val :: more ∧ a.frames = [] ∧ (a.env.floats val, a.env.world) = r := by
  obtain ⟨env, todo, frames⟩ := a
  constructor
  · intro h
    cases todo with
    | nil => exact absurd h (Act.silent_ne_ret _ r)
    | cons op rest =>
      cases op with
      | returnOp val =>
        cases frames with
        | nil => exact ⟨val, rest, rfl, rfl, Act.ret.inj h⟩
        | cons frame frames =>
          simp only [act] at h
          exact absurd h (Act.silent_ne_ret _ r)
      | call dst callee args => cases h
      | _ =>
        simp only [act] at h
        exact absurd h (Act.silent_ne_ret _ r)
  · rintro ⟨val, more, rfl, rfl, rfl⟩
    rfl

/-- A function that was called returns what its `func.return` has. -/
theorem returns_linked : (linked ops ext s).Returns oracle a r ↔ ∃ a',
    Reaches (Activation.step ops (fun callee args world => oracle (callee, args, world))
      s.gen.builder.blocks) a a' ∧ act ops s.gen.builder.blocks a' = .ret r := by
  have hopen : (linked ops ext s).openStep oracle =
      Activation.step ops (fun callee args world => oracle (callee, args, world))
        s.gen.builder.blocks := funext fun _ => openStep_linked
  rw [Procedures.Returns, hopen]
  rfl

end

/-! ## One function -/

section
variable {ops : IntOps D} {callees : Callees D Name W} {N : Nat} {t t' : BerlinState D}
  {scope : List (Name × Nat)}

/-- The loop over the arguments brings them into scope. -/
theorem computes_params {params : List (Name × Nat)} (h : genParams params t = .ok () t')
    (hparams : ∀ b ∈ params, InValues b.2 t.builder) (ht : Ready ops callees t scope) :
    ∃ scope', Computes ops callees N t t' scope scope'
      (fun a st => some ((), { st with
        locals := (params.map fun b => (b.1, a.env.floats b.2)).reverse ++ st.locals }))
      (fun _ => ()) := by
  induction params generalizing t scope with
  | nil =>
    cases h
    exact ⟨scope, (Target.Computes.refl ht ()).congr fun a st => rfl⟩
  | cons b rest ih =>
    obtain ⟨name, arg⟩ := b
    obtain ⟨k, t₁, hk, h⟩ := Gen.bind_ok h
    obtain ⟨_, t₂, hstore, h⟩ := Gen.bind_ok h
    obtain ⟨_, t₃, hname, h⟩ := Gen.bind_ok h
    have h₁ := computes_bound (N := N) hk hstore hname ht
    have hvalues : t.builder.nextValue ≤ t₃.builder.nextValue := h₁.grown.2.grown.values
    have hrest : ∀ b ∈ rest, InValues b.2 t.builder :=
      fun b hb => hparams b (List.mem_cons_of_mem _ hb)
    obtain ⟨scope', h₂⟩ := ih h (fun b hb => Nat.lt_of_lt_of_le (hrest b hb) hvalues) h₁.ready
    refine ⟨scope', (h₁.bind h₂ (k := fun a _ st => some ((), { st with
      locals := (rest.map fun b => (b.1, a.env.floats b.2)).reverse ++ st.locals })) ?_).congr ?_⟩
    · intro a a₁ hkept st
      have hsame : (rest.map fun b => (b.1, a₁.env.floats b.2)) =
          rest.map fun b => (b.1, a.env.floats b.2) := by
        apply List.map_congr_left
        intro b hb
        rw [hkept.values.floats b.2 (hrest b hb)]
      rw [hsame]
    · intro a st
      simp [State.push]

/-- The generator in front of the parameters of the first function of a module. -/
def firstEntry (D : Type) (numInputs : Nat) : BerlinState D :=
  { builder := { insertPoint := .atEnd 0, nextBlock := 1, nextValue := numInputs } }

theorem firstEntry_ready (numInputs : Nat) : Ready ops callees (firstEntry D numInputs) [] where
  wf := ⟨⟨0, rfl, Nat.one_pos⟩, fun _ _ => rfl⟩
  names x k hx := by cases hx
  distinct := List.nodup_nil
  has b hb := by cases hb

/-- How the generator has come through a definition without others in front of it. -/
structure FunctionCode (ops : IntOps D) (f : FunctionAST D) (final : BerlinState D) where
  params : BerlinState D
  bodyVal : Nat
  bodyEnd : BerlinState D
  genParams : genParams (f.proto.args.zip (List.range' 0 f.proto.args.length))
    (firstEntry D f.proto.args.length) = .ok () params
  genBody : gen ops.toFloatOps f.body params = .ok bodyVal bodyEnd
  genReturn : createOp (.returnOp bodyVal) bodyEnd = .ok () final

theorem FunctionCode.of_runEntry {f : FunctionAST D} {s : ModuleState D} {final : BerlinState D}
    (hs : s.gen = {}) (h : runEntry ops.toFloatOps f s = .ok () final) :
    Nonempty (FunctionCode ops f final) := by
  unfold runEntry genEntry ModuleState.started at h
  rw [hs] at h
  obtain ⟨_, s₁, hset, h⟩ := Gen.bind_ok h
  cases hset
  obtain ⟨_, s₂, hclear, h⟩ := Gen.bind_ok h
  cases hclear
  obtain ⟨_, s₃, hparams, h⟩ := Gen.bind_ok h
  obtain ⟨bodyVal, s₄, hbody, h⟩ := Gen.bind_ok h
  refine ⟨⟨s₃, bodyVal, s₄, ?_, hbody, h⟩⟩
  simpa [firstEntry, OpBuilder.setInsertPoint] using hparams

/-- The activation at the beginning of the first function of a module. -/
def startActivation (ops : IntOps D) (blocks : Nat → List (Op D Name)) (args : List D) (world : W) :
    Activation D Name W :=
  ⟨⟨fun r => args.getD r ops.zero, fun _ => false, fun _ => 0, fun _ => ops.zero, world, []⟩,
    blocks 0, []⟩

theorem zip_range_map {names : List Name} {vals : List D} (d : D)
    (hlen : vals.length = names.length) :
    (names.zip (List.range' 0 names.length)).map (fun b => (b.1, vals.getD b.2 d)) =
      names.zip vals := by
  apply List.ext_getElem
  · simp [hlen]
  · intro i hi hi'
    have hlt : i < vals.length := by
      rw [List.length_zip] at hi'
      omega
    simp [hlt]

/-- A definition that has been compiled computes what its body means, whatever the callees. -/
theorem FunctionCode.halts_iff {f : FunctionAST D} {final : BerlinState D}
    (c : FunctionCode ops f final)
    (hconv : ∀ b : Bool, ops.sitofp (if b then 1 else 0) = ops.uitofp b)
    (hrep : noRepeat f.body = true) (callees : Callees D Name W) {args : List D}
    (hlen : args.length = f.proto.args.length) (world : W) (r : D × W) :
    (∃ a, Reaches (Activation.step ops callees final.builder.blocks)
      (startActivation ops final.builder.blocks args world) a ∧
        act ops final.builder.blocks a = .ret r) ↔
      ∃ N, evalFunction (dialect ops) N callees f args world = some r := by
  have hready : Ready ops callees (firstEntry D f.proto.args.length) [] := firstEntry_ready _
  have hinputs : ∀ b ∈ f.proto.args.zip (List.range' 0 f.proto.args.length),
      InValues b.2 (firstEntry D f.proto.args.length).builder := by
    intro b hb
    obtain ⟨i, hi, heq⟩ := List.mem_range'.mp (List.of_mem_zip hb).2
    have hlt : b.2 < f.proto.args.length := by omega
    exact hlt
  have hlocals : ((f.proto.args.zip (List.range' 0 f.proto.args.length)).map
      fun b => (b.1, args.getD b.2 ops.zero)).reverse ++ [] = f.proto.locals args := by
    rw [List.append_nil, zip_range_map ops.zero hlen]
    rfl
  have hsim : ∀ N, Simulates (Activation.step ops callees final.builder.blocks) N
      (Activation.Blocked callees) (startActivation ops final.builder.blocks args world)
      (eval (dialect ops callees) N f.body ⟨f.proto.locals args, world, []⟩)
      (fun x a => (∃ r, act ops final.builder.blocks a = .ret r) ∧
        act ops final.builder.blocks a = .ret (x.1, x.2.world)) := by
    intro N
    obtain ⟨scope, h₁⟩ := computes_params (N := N) c.genParams hinputs hready
    have hbody : Preserved ops callees N f.body := preserved hconv f.body
    have h₂ := hbody c.params c.bodyVal c.bodyEnd scope c.genBody hrep h₁.ready
    have hall := h₁.bind h₂ (k := fun _ _ => eval (dialect ops callees) N f.body) fun _ _ _ _ => rfl
    have hat : c.bodyEnd.builder.insertPoint = .atEnd 0 := hall.grown.2.insert
    have hfinal : final.builder = pushed 0 (.returnOp c.bodyVal) c.bodyEnd.builder :=
      congrArg BerlinState.builder (createOp_pushed c.genReturn hat)
    have hcode : Within final.builder.blocks (firstEntry D f.proto.args.length).builder
        c.bodyEnd.builder := by
      rw [hfinal]
      exact ⟨(Leaves.pushed Nat.one_pos _ _).there,
        fun k hk _ =>
        (Leaves.pushed (m := 1) Nat.one_pos _ c.bodyEnd.builder).same k hk (by assumption)⟩
    have hstart : At final.builder.blocks (firstEntry D f.proto.args.length).builder
        (startActivation ops final.builder.blocks args world) := ⟨0, rfl, rfl⟩
    have hst : (target ops callees).Agrees [] (⟨[], world, []⟩ : State D W)
        (startActivation ops final.builder.blocks args world) := ⟨rfl, rfl, rfl⟩
    have hrun := hall.simulates final.builder.blocks hcode _ _ hstart hst
    rw [Option.bind_some] at hrun
    refine Simulates.mono (hlocals ▸ hrun) fun x a hwent => ?_
    -- behind the body there is the `func.return`
    obtain ⟨q, hq, htodo⟩ : At final.builder.blocks c.bodyEnd.builder a := hwent.at_
    obtain rfl : 0 = q := InsertPoint.atEnd.inj (hat.symm.trans hq)
    have hkept : Kept (firstEntry D f.proto.args.length).builder
        (startActivation ops final.builder.blocks args world) a := hwent.kept
    rw [hfinal, pushed_blocks, List.drop_left] at htodo
    have hret : act ops final.builder.blocks a = .ret (x.1, x.2.world) := by
      refine act_ret_iff.mpr ⟨c.bodyVal, [], htodo, hkept.frames, ?_⟩
      exact Prod.ext hwent.read hwent.agrees.world.symm
    exact ⟨⟨_, hret⟩, hret⟩
  have hfinal : ∀ a, (∃ r, act ops final.builder.blocks a = .ret r) →
      a.step ops callees final.builder.blocks = none ∧ ¬ a.Blocked callees := by
    rintro a ⟨r, hr⟩
    obtain ⟨val, more, htodo, -, -⟩ := act_ret_iff.mp hr
    constructor
    · rw [Activation.step, htodo]
      rfl
    · rintro ⟨dst, callee, vals, rest, hcall, -⟩
      rw [htodo] at hcall
      cases hcall
  obtain ⟨hhalts, hgood⟩ := halts_iff_evaluates hfinal (fun _ hb => hb.step_eq) hsim
  constructor
  · rintro ⟨a, hreach, hret⟩
    obtain ⟨N, x, hx⟩ := hhalts.mp ⟨a, hreach, r, hret⟩
    have hval := hgood a N x hreach ⟨r, hret⟩ hx
    refine ⟨N, Option.map_eq_some_iff.mpr ⟨x, hx, ?_⟩⟩
    exact Act.ret.inj (hval.symm.trans hret)
  · rintro ⟨N, hN⟩
    obtain ⟨x, hx, rfl⟩ := Option.map_eq_some_iff.mp hN
    obtain ⟨a, hreach, hret⟩ := hhalts.mpr ⟨N, x, hx⟩
    exact ⟨a, hreach, hgood a N x hreach hret hx⟩

end

/-! ## The module -/

section
variable {ops : IntOps D} {items : List (Item D)} {f : FunctionAST D} {s final : ModuleState D}

theorem dialect_mono {callees callees' : Callees D Name W}
    (hle : ∀ f args w, LessDefined (callees f args w) (callees' f args w)) :
    (dialect ops callees).Le (dialect ops callees') where
  ops := rfl
  noStep := rfl
  first := rfl
  next := rfl
  unary op x := by
    intro st
    show LessDefined (if op = byte '-' then _ else _) (if op = byte '-' then _ else _)
    split
    · exact LessDefined.refl _
    · exact callFunction_mono hle _ _ st
  call callee args ms ms' hms := by
    intro st
    exact (evalAll_mono hms st).bind fun r => callFunction_mono hle callee r.1 r.2

/-- The code of a definition that compiles, behind prototypes only. -/
theorem runEntry_of_compiles (hcompile : Compiles ops.toFloatOps f) (hgen : s.gen = {}) :
    ∃ gen, runEntry ops.toFloatOps f s = .ok () gen ∧
      genFunction ops.toFloatOps f s = .ok { s.started f with gen } := by
  obtain ⟨s₀, hrun, htop⟩ := hcompile
  have hunset : s.gen.builder.insertPoint = .unset := by rw [hgen]
  have hsame : runEntry ops.toFloatOps f s = runEntry ops.toFloatOps f {} := by
    unfold runEntry ModuleState.started
    rw [hgen]
  rw [genFunction_unset rfl] at hrun
  rw [genFunction_unset hunset, hsame]
  cases hentry : runEntry ops.toFloatOps f {} with
  | ok u gen => exact ⟨gen, rfl, rfl⟩
  | null gen =>
    rw [hentry] at hrun
    cases hrun
    cases htop
  | abort why =>
    rw [hentry] at hrun
    cases hrun

/-- The module behind prototypes and a definition. -/
structure DefinedLast (ops : IntOps D) (items : List (Item D)) (f : FunctionAST D)
    (final : ModuleState D) : Prop where
  prototypes : ∀ item ∈ items, item.isFunction = false
  /-- The verifier rejects a module that has two functions of one name. -/
  names : ∀ item ∈ items, item.proto.name ≠ f.proto.name
  compiles : Compiles ops.toFloatOps f
  noRepeat : noRepeat f.body = true
  built : genItems ops.toFloatOps (items ++ [.function f]) {} = .ok final

namespace DefinedLast

/-- Every other function of the module is only declared. -/
theorem functions (h : DefinedLast ops items f final) : ∃ declared : List FuncOp,
    final.topLevelOps = declared ++ [⟨f.proto.name, f.proto.args.length, .inModule, some 0⟩] ∧
    (∀ op ∈ declared, op.entry = none ∧ op.name ≠ f.proto.name) ∧
    Nonempty (FunctionCode ops f final.gen) := by
  have hstart : ({} : ModuleState D).Lists [] := ⟨rfl, .nil⟩
  obtain ⟨s, hrun, hlists, hgen⟩ := genItems_prototypes ops.toFloatOps h.prototypes hstart rfl
  rw [List.nil_append] at hlists
  obtain ⟨gen, hentry, hfun⟩ := runEntry_of_compiles h.compiles hgen
  have hbuilt := h.built
  rw [genItems_append, hrun] at hbuilt
  change (genFunction ops.toFloatOps f s >>= _) = _ at hbuilt
  rw [hfun] at hbuilt
  cases hbuilt
  have hfinal : ModuleState.Lists { s.started f with gen } (items ++ [.function f]) :=
    hlists.snoc ⟨rfl, rfl, rfl, rfl⟩ gen
  refine ⟨s.funcs, ?_, ?_, FunctionCode.of_runEntry hgen hentry⟩
  · rw [hfinal.topLevelOps]
    show s.funcs ++ [_] = _
    rw [hgen]
  · intro op hop
    obtain ⟨item, hitem, hfor⟩ : ∃ item ∈ items, op.IsFor item := by
      obtain ⟨i, hi, rfl⟩ := List.getElem_of_mem hop
      have hi' : i < items.length := by
        rw [← hlists.funcs.length_eq]
        exact hi
      exact ⟨items[i], List.getElem_mem hi', hlists.funcs.get hi hi'⟩
    obtain ⟨hname, -, -, hentry⟩ := hfor
    rw [h.prototypes item hitem] at hentry
    refine ⟨Option.isNone_iff_eq_none.mp (by simpa using hentry), ?_⟩
    rw [hname]
    exact h.names item hitem

/-- The name of the definition finds its function, and no other name finds one with a body. -/
theorem find (h : DefinedLast ops items f final) (name : Name) :
    (name = f.proto.name ∧ final.topLevelOps.find? (·.name = name) =
      some ⟨f.proto.name, f.proto.args.length, .inModule, some 0⟩) ∨
    (name ≠ f.proto.name ∧ (final.topLevelOps.find? (·.name = name)).bind (·.entry) = none) := by
  obtain ⟨declared, htop, hdeclared, -⟩ := h.functions
  rw [htop, List.find?_append]
  by_cases hname : name = f.proto.name
  · have hnone : declared.find? (fun op => decide (op.name = name)) = none := by
      apply List.find?_eq_none.mpr
      intro op hop
      simp [hname, (hdeclared op hop).2]
    refine .inl ⟨hname, ?_⟩
    rw [hnone]
    simp [hname]
  · refine .inr ⟨hname, ?_⟩
    cases hfind : declared.find? (fun op => decide (op.name = name)) with
    | some op =>
      exact (hdeclared op (List.mem_of_find?_eq_some hfind)).1
    | none => simp [Ne.symm hname]

/-- The module does what its definition says. -/
theorem describes (h : DefinedLast ops items f final)
    (hconv : ∀ b : Bool, ops.sitofp (if b then 1 else 0) = ops.uitofp b) (ext : Callees D Name W) :
    (linked ops ext final).Describes (callDefinition (dialect ops) ext [f]) where
  mono hN hle := callDefinition_mono (fun _ _ => dialect_mono) hN hle _
  inside := by
    intro oracle what a r henter
    have henter : (final.topLevelOps.find? (·.name = what.1)).bind
        (fun op => op.start ops final.gen.builder.blocks what) = some a := henter
    obtain ⟨-, -, -, ⟨c⟩⟩ := h.functions
    rcases h.find what.1 with ⟨hname, hfind⟩ | ⟨hname, hnone⟩
    · rw [hfind] at henter
      simp only [Option.bind_some, FuncOp.start] at henter
      split at henter
      · rename_i hlen
        obtain rfl := Option.some.inj henter
        have hbody := c.halts_iff hconv h.noRepeat
          (fun callee args world => oracle (callee, args, world)) hlen what.2.2 r
        rw [returns_linked]
        refine hbody.trans (exists_congr fun N => ?_)
        simp only [callDefinition, hname, List.find?_cons, decide_true, hlen, if_true]
      · cases henter
    · exfalso
      cases hfind : final.topLevelOps.find? (·.name = what.1) with
      | none =>
        rw [hfind] at henter
        cases henter
      | some op =>
        rw [hfind] at henter hnone
        have hnone : op.entry = none := hnone
        simp [FuncOp.start, hnone] at henter
  outside := by
    intro n oracle what henter
    have henter : (final.topLevelOps.find? (·.name = what.1)).bind
        (fun op => op.start ops final.gen.builder.blocks what) = none := henter
    show _ = if ((final.topLevelOps.find? (·.name = what.1)).bind (·.entry)).isSome then none
      else ext what.1 what.2.1 what.2.2
    rcases h.find what.1 with ⟨hname, hfind⟩ | ⟨hname, hnone⟩
    · rw [hfind] at henter ⊢
      simp only [Option.bind_some, FuncOp.start] at henter
      split at henter
      · cases henter
      · rename_i hlen
        simp only [callDefinition, hname, List.find?_cons, decide_true, hlen, if_false]
        rfl
    · rw [hnone]
      simp only [callDefinition, List.find?_cons, Ne.symm hname, decide_false, List.find?_nil,
        Option.isSome_none, Bool.false_eq_true, if_false]

end DefinedLast

/-- The definition of a module answers a call with what it means, itself and all declared
functions being called: with an answer that is the meaning, and without one when there is no
meaning. -/
theorem definition_answers_iff (h : DefinedLast ops items f final)
    (hconv : ∀ b : Bool, ops.sitofp (if b then 1 else 0) = ops.uitofp b) (ext : Callees D Name W)
    (call : Call D W) (r : D × W) : (linked ops ext final).Answers call r ↔
      ∃ N, meaning (callDefinition (dialect ops) ext [f]) N call = some r :=
  (h.describes hconv ext).answers_iff call r

end

/-- `def f(n) var s = 1 in (for i = 0, n in s = s + f(n - 1)) + s`. -/
def sums : FunctionAST Int where
  proto := { name := text "f", args := [text "n"] }
  body := .varExpr [(text "s", .numberExpr 1)]
    (.binaryExpr (byte '+')
      (.forExpr (text "i") (.numberExpr 0) (.variableExpr (text "n")) .null
        (.binaryExpr (byte '=') (.variableExpr (text "s"))
          (.binaryExpr (byte '+') (.variableExpr (text "s"))
            (.callExpr (text "f")
              [.binaryExpr (byte '-') (.variableExpr (text "n")) (.numberExpr 1)]))))
      (.variableExpr (text "s")))

theorem definition_answers_iff_sums : ∃ final : ModuleState Int,
    DefinedLast wholeIntOps [.prototype { name := text "printd", args := [text "x"] }] sums final ∧
    (linked wholeIntOps (fun _ _ _ => none) final).Answers (text "f", [3], ()) (16, ()) := by
  have hsome : (genItems wholeIntOps.toFloatOps
      ([.prototype { name := text "printd", args := [text "x"] }] ++ [.function sums])
        {}).toOption.isSome = true := by decide +kernel
  cases hrun : genItems wholeIntOps.toFloatOps
      ([.prototype { name := text "printd", args := [text "x"] }] ++ [.function sums]) {} with
  | error why =>
    rw [hrun] at hsome
    cases hsome
  | ok final =>
    have h : DefinedLast wholeIntOps [.prototype { name := text "printd", args := [text "x"] }] sums
        final := by
      refine ⟨by decide, by decide, compiles_of_topLevel ?_, by decide +kernel, hrun⟩
      decide +kernel
    refine ⟨final, h, (definition_answers_iff h (fun b => ?_) _ _ _).mpr ⟨5, ?_⟩⟩
    · cases b <;> rfl
    · decide +kernel

end AroundTheWorld.Berlin
