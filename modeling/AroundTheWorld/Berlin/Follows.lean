import AroundTheWorld.Agreement.BackEnd
import AroundTheWorld.Berlin.Loop
import AroundTheWorld.Mlir.Thread

/-!
# Berlin follows the reference

What is generated for an expression without loops, run from the insertion point where its
generation started, does what the expression means. The cells of the reference are the
`memref`s that the generator has allocated, in the same order.
-/

namespace AroundTheWorld.Berlin

open AroundTheWorld.Base AroundTheWorld.Lex AroundTheWorld.Mlir AroundTheWorld.Agreement
open AroundTheWorld.Athens (ExprAST Name)
open AroundTheWorld.Llvm (IntOps FloatOps Callees)

variable {D W : Type}

/-! ## Operations -/

theorem createOp_pushed {op : Op D Name} {t t' : BerlinState D} (h : createOp op t = .ok () t')
    {p : Nat} (hp : t.builder.insertPoint = .atEnd p) :
    t' = { t with builder := pushed p op t.builder } := by
  obtain ⟨b, hinsert, rfl⟩ := createOp_ok h
  unfold OpBuilder.insert at hinsert
  rw [hp] at hinsert
  cases hinsert
  rw [pushed, ← hp]

theorem create_created {op : Nat → Op D Name} {t t' : BerlinState D} {v : Nat}
    (h : create op t = .ok v t') {p : Nat} (hp : t.builder.insertPoint = .atEnd p) :
    v = t.builder.nextValue ∧ t' = { t with builder := created p op t.builder } := by
  obtain ⟨dst, t₁, hdst, h⟩ := Gen.bind_ok h
  cases hdst
  obtain ⟨_, t₂, hop, h⟩ := Gen.bind_ok h
  cases h
  exact ⟨rfl, createOp_pushed hop hp⟩

theorem pushed_there (p : Nat) (op : Op D Name) (b : OpBuilder D Name) :
    b.blocks p ++ [op] <+: (pushed p op b).blocks p :=
  ⟨[], (List.append_nil _).trans (if_pos rfl).symm⟩

/-! ## Pieces of code -/

/-- The generator in a scope. -/
structure BerlinState.Placed (t : BerlinState D) (sc : NameScope) (cells : List Nat) : Prop where
  wf : t.builder.Wf
  scope : sc.Placed cells t.namedValues
  old : ∀ v ∈ cells, v < t.builder.nextValue

/-- The thread is behind code that has been generated from `b` on. -/
structure ThreadKept (b : OpBuilder D Name) (th th' : Thread D Name W) : Prop where
  floats : ∀ r < b.nextValue, th'.env.floats r = th.env.floats r
  around : th'.around = th.around

abbrev berlin (ops : IntOps D) (callees : Callees D Name W) :
    BackEnd (BerlinState D) (OpBuilder D Name) (Thread D Name W) Nat (Op D Name) D W where
  builder := BerlinState.builder
  code := OpBuilder.blocks
  step := Thread.step ops callees
  mem th := th.env.cells
  world th := th.env.world
  calls th := th.env.calls
  At := OpBuilder.At
  Calls _ th what := th.Calls callees what.1 what.2
  Placed := BerlinState.Placed
  Grown b b' := b.Grown b' ∧ b'.insertPoint = b.insertPoint
  Kept := ThreadKept
  grown_refl ht := ⟨.refl ht.wf, rfl⟩
  grown_trans h h' := ⟨h.1.trans h'.1, h'.2.trans h.2⟩
  grown_code h := h.1.prefix_
  kept_refl := ⟨fun _ _ => rfl, rfl⟩
  kept_trans hgrown h h' :=
    ⟨fun r hr => (h'.floats r (Nat.lt_of_lt_of_le hr hgrown.1.values)).trans (h.floats r hr),
      h'.around.trans h.around⟩
  stops h := h.step

section
variable {ops : IntOps D} {callees : Callees D Name W} {t t₁ t₂ : BerlinState D}
  {sc sc₁ sc₂ : NameScope} {cells cells₁ cells₂ : List Nat} {α β : Type}

/-! ## Single operations -/

theorem BerlinState.Placed.at_ (ht : t.Placed sc cells) : ∃ p,
    t.builder.insertPoint = .atEnd p := by
  obtain ⟨p, hp, -⟩ := ht.wf.insert
  exact ⟨p, hp⟩

theorem BerlinState.Placed.create {op : Nat → Op D Name} {v : Nat} (ht : t.Placed sc cells)
    (h : create op t = .ok v t₁) : t₁.Placed sc cells := by
  obtain ⟨⟨hgrown, -⟩, -⟩ := create_extends op t v t₁ ht.wf h
  obtain ⟨p, hp⟩ := ht.at_
  obtain ⟨-, rfl⟩ := create_created h hp
  exact ⟨hgrown.wf, ht.scope, fun k hk => Nat.lt_of_lt_of_le (ht.old k hk) hgrown.values⟩

theorem BerlinState.Placed.createOp {op : Op D Name} (ht : t.Placed sc cells)
    (h : createOp op t = .ok () t₁) : t₁.Placed sc cells := by
  obtain ⟨⟨hgrown, -⟩, -⟩ := createOp_extends op t () t₁ ht.wf h
  obtain ⟨p, hp⟩ := ht.at_
  obtain rfl := createOp_pushed h hp
  exact ⟨hgrown.wf, ht.scope, fun k hk => Nat.lt_of_lt_of_le (ht.old k hk) hgrown.values⟩

/-- What an operation without regions leads to. -/
theorem Stands.created {op : Nat → Op D Name} {v : Nat} (ht : t.Placed sc cells)
    (h : create op t = .ok v t₁) {final : List Nat} {blocks : Nat → List (Op D Name)}
    (hem : Emitted t.builder.blocks t₁.builder.blocks blocks) {th : Thread D Name W}
    {st : State D W} (hst : (berlin ops callees).Stands t.builder final blocks st th) : ∃ rest,
      th.todo = op v :: rest ∧
      ∀ env, t₁.builder.At blocks (⟨env, rest, th.around⟩ : Thread D Name W) := by
  obtain ⟨p, hp⟩ := ht.at_
  obtain ⟨rfl, rfl⟩ := create_created h hp
  have htodo := hst.at_.fetch hem hp (pushed_there p _ _)
  refine ⟨_, htodo, fun env => ⟨p, hp, ?_⟩⟩
  show (blocks p).drop _ = (blocks p).drop ((created p op t.builder).blocks p).length
  rw [show (created p op t.builder).blocks p = t.builder.blocks p ++ [op t.builder.nextValue] from
    if_pos rfl, List.length_append, List.length_singleton]

/-- Only values from `n` on are changed. -/
structure Silent (n : Nat) (env env' : Env D Name W) : Prop where
  cells : env'.cells = env.cells
  world : env'.world = env.world
  calls : env'.calls = env.calls
  floats : ∀ r < n, env'.floats r = env.floats r

theorem silent_setFloat (n : Nat) (env : Env D Name W) (x : D) :
    Silent n env (env.setFloat n x) := by
  refine ⟨rfl, rfl, rfl, fun r hr => ?_⟩
  simp [Env.setFloat, Nat.ne_of_lt hr]

variable (ops callees)

theorem performs_create {op : Nat → Op D Name} {v : Nat} (h : create op t = .ok v t₁)
    (ht : t.Placed sc cells) {g : Env D Name W → Env D Name W}
    (hrun : ∀ env, (op v).run ops callees env = some (g env)) (hg : ∀ env, Silent v env (g env))
    (read : Env D Name W → β) :
    (berlin ops callees).Performs t t₁ sc cells cells (fun th st => .done (read (g th.env)) st)
      (fun th => read th.env) := by
  obtain ⟨⟨hgrown, hinsert⟩, -⟩ := create_extends op t v t₁ ht.wf h
  refine ⟨⟨hgrown, hinsert⟩, List.prefix_rfl, ht.create h, ?_⟩
  intro final blocks _ _ hem th st hst
  obtain ⟨rest, htodo, hat⟩ := Stands.created ht h hem hst
  have hsilent := hg th.env
  refine .after (.one (Thread.step_of_run htodo (hrun th.env))) (.done ⟨⟨hat _, ?_⟩, rfl, ?_, rfl⟩)
  · obtain ⟨hmem, hworld, hcalls⟩ := hst.mem
    refine ⟨?_, hsilent.world.trans hworld, hsilent.calls.trans hcalls⟩
    show ∀ c k x, final[c]? = some k → st.mem c = some x → (g th.env).cells k = x
    rw [hsilent.cells]
    exact hmem
  · intro r hr
    obtain ⟨p, hp⟩ := ht.at_
    obtain ⟨rfl, -⟩ := create_created h hp
    exact hsilent.floats r hr

/-- An operation whose result is a double. -/
theorem performs_float {op : Nat → Op D Name} {v : Nat} (h : create op t = .ok v t₁)
    (ht : t.Placed sc cells) {x : Env D Name W → D}
    (hrun : ∀ env, (op v).run ops callees env = some (env.setFloat v (x env))) :
    (berlin ops callees).Performs t t₁ sc cells cells 
      (fun th st => .done (x th.env) st) (·.env.floats v) := by
  have hcreate := performs_create ops callees h ht hrun (fun env => silent_setFloat v env (x env))
    (·.floats v)
  simpa [Env.setFloat] using hcreate

theorem performs_call {callee : Name} {args : List Nat} {v : Nat}
    (h : create (.call · callee args) t = .ok v t₁) (ht : t.Placed sc cells) :
    (berlin ops callees).Performs t t₁ sc cells cells
      (fun th st => evalCall callees callee (args.map th.env.floats) st) (·.env.floats v) := by
  obtain ⟨⟨hgrown, hinsert⟩, -⟩ := create_extends _ t v t₁ ht.wf h
  refine ⟨⟨hgrown, hinsert⟩, List.prefix_rfl, ht.create h, ?_⟩
  intro final blocks _ _ hem th st hst
  obtain ⟨rest, htodo, hat⟩ := Stands.created ht h hem hst
  obtain ⟨hmem, hworld, hcalls⟩ := hst.mem
  rw [evalCall, ← hworld]
  cases hcall : callees callee (args.map th.env.floats) th.env.world with
  | none =>
    have hwaits : th.Calls callees callee (args.map th.env.floats) :=
      ⟨v, args, rest, htodo, rfl, hcall⟩
    exact BackEnd.Waits.follows (T := berlin ops callees) ⟨hwaits, hst.mem⟩
  | some r =>
    have hrun : (Op.call v callee args).run ops callees th.env =
        some { th.env.setFloat v r.1 with
          world := r.2, calls := th.env.calls ++ [(callee, args.map th.env.floats)] } := by
      show Option.map _ (callees callee (args.map th.env.floats) th.env.world) = _
      rw [hcall]
      rfl
    refine .after (.one (Thread.step_of_run htodo hrun)) (.done ⟨⟨hat _, ?_⟩, ?_, ?_, rfl⟩)
    · exact ⟨hmem, rfl, congrArg (· ++ [(callee, args.map th.env.floats)]) hcalls⟩
    · simp [Env.setFloat]
    · intro k hk
      obtain ⟨p, hp⟩ := ht.at_
      obtain ⟨rfl, -⟩ := create_created h hp
      exact (silent_setFloat _ th.env r.1).floats k hk

/-- A load of a cell whose value is known. -/
theorem performs_load {memref c v : Nat} (h : create (.load · memref) t = .ok v t₁)
    (ht : t.Placed sc cells) (hc : cells[c]? = some memref) {name : Name}
    (hname : sc.table name = some c) :
    (berlin ops callees).Performs t t₁ sc cells cells (fun _ st => evalVariable name sc st)
      (·.env.floats v) := by
  have hload := performs_float ops callees h ht
    (x := fun env => env.cells memref) (fun _ => rfl)
  refine ⟨hload.grown, hload.cells, hload.placed, ?_⟩
  intro final blocks hfinal hnodup hem th st hst
  have hrun := hload.follows final blocks hfinal hnodup hem th st hst
  rw [evalVariable, hname, Option.bind_some]
  cases hx : st.mem c with
  | none => trivial
  | some x =>
    have hmem : th.env.cells memref = x := hst.mem.mem c memref x (getElem?_of_le hfinal hc) hx
    rwa [hmem] at hrun

/-- A store into the cell of a name. -/
theorem performs_store {val memref c : Nat} (h : createOp (.store val memref) t = .ok () t₁)
    (ht : t.Placed sc cells) (hc : cells[c]? = some memref) :
    (berlin ops callees).Performs t t₁ sc cells cells
      (fun th st => .done (th.env.floats val) (st.write c (th.env.floats val)))
      (·.env.floats val) := by
  obtain ⟨⟨hgrown, hinsert⟩, -⟩ := createOp_extends _ t () t₁ ht.wf h
  refine ⟨⟨hgrown, hinsert⟩, List.prefix_rfl, ht.createOp h, ?_⟩
  intro final blocks hfinal hnodup hem th st hst
  obtain ⟨p, hp⟩ := ht.at_
  obtain rfl := createOp_pushed h hp
  have htodo := hst.at_.fetch hem hp (pushed_there p _ _)
  have hrun : (Op.store val memref).run ops callees th.env =
      some (th.env.setCell memref (th.env.floats val)) := rfl
  refine .after (.one (Thread.step_of_run htodo hrun)) (.done ⟨⟨⟨p, hp, ?_⟩, ?_⟩, rfl, ?_, rfl⟩)
  · show (blocks p).drop _ = (blocks p).drop ((pushed p _ t.builder).blocks p).length
    rw [show (pushed p _ t.builder).blocks p = t.builder.blocks p ++ [Op.store val memref] from
      if_pos rfl, List.length_append, List.length_singleton]
  · exact hst.mem.write hnodup (getElem?_of_le hfinal hc) (th.env.floats val)
  · exact fun _ _ => rfl

/-- A new cell, of which nothing is known. -/
theorem performs_alloca {v : Nat} (h : create .alloca t = .ok v t₁) (ht : t.Placed sc cells) :
    (berlin ops callees).Performs t t₁ sc.allocate cells (cells ++ [v]) (fun _ st => .done () st)
      (fun _ => ()) := by
  have hsilent := performs_create ops callees h ht (fun _ => rfl)
    (fun _ => ⟨rfl, rfl, rfl, fun _ _ => rfl⟩) (fun _ => ())
  obtain ⟨p, hp⟩ := ht.at_
  have hnew := (create_created h hp).1
  obtain ⟨-, hin⟩ := create_extends _ t v t₁ ht.wf h
  have hfresh : v ∉ cells := by
    intro hmem
    have hlt := ht.old v hmem
    omega
  refine ⟨hsilent.grown, List.prefix_append _ _,
    ⟨hsilent.placed.wf, hsilent.placed.scope.allocate hfresh, ?_⟩, ?_⟩
  · intro k hk
    rcases List.mem_append.mp hk with hk | hk
    · exact hsilent.placed.old k hk
    · exact List.mem_singleton.mp hk ▸ hin
  · intro final blocks hfinal
    exact hsilent.follows final blocks ((List.prefix_append _ _).trans hfinal)

/-! ## Operators -/

theorem performs_zero {v : Nat} (h : defaultF64Zero ops.toFloatOps t = .ok v t₁)
    (ht : t.Placed sc cells) :
    (berlin ops callees).Performs t t₁ sc cells cells
      (fun _ st => .done ops.zero st) (·.env.floats v) :=
  performs_float ops callees h ht fun _ => rfl

/-- An operation whose result is a flag. -/
theorem performs_cmpf {pred : CmpFPredicate} {lhs rhs v : Nat}
    (h : create (.cmpf pred · lhs rhs) t = .ok v t₁) (ht : t.Placed sc cells) :
    (berlin ops callees).Performs t t₁ sc cells cells
      (fun th st => .done (cmpf ops pred (th.env.floats lhs) (th.env.floats rhs)) st)
      (·.env.flags v) := by
  have hcreate := performs_create ops callees h ht
    (g := fun env => env.setFlag v (cmpf ops pred (env.floats lhs) (env.floats rhs)))
    (fun _ => rfl) (fun _ => ⟨rfl, rfl, rfl, fun _ _ => rfl⟩) (·.flags v)
  simpa [Env.setFlag] using hcreate

/-- The `switch` of `genBinary`, on two values. -/
theorem performs_binaryOp {op : Byte} {lhs rhs v : Nat}
    (hconv : ∀ b : Bool, ops.sitofp (if b then 1 else 0) = ops.uitofp b)
    (h : binaryOp op lhs rhs t = .ok v t₁) (ht : t.Placed sc cells) :
    Arithmetic op ∧ (berlin ops callees).Performs t t₁ sc cells cells
      (fun th st => evalBinary ops.toFloatOps op (th.env.floats lhs) (th.env.floats rhs) st)
      (·.env.floats v) := by
  unfold binaryOp at h
  unfold evalBinary Arithmetic
  split at h
  case isTrue hop =>
    subst hop
    exact ⟨.inl rfl, performs_float ops callees h ht fun _ => rfl⟩
  rename_i hadd
  split at h
  case isTrue hop =>
    subst hop
    exact ⟨.inr (.inl rfl), performs_float ops callees h ht fun _ => rfl⟩
  rename_i hsub
  split at h
  case isTrue hop =>
    subst hop
    exact ⟨.inr (.inr (.inl rfl)), performs_float ops callees h ht fun _ => rfl⟩
  rename_i hmul
  split at h
  case isFalse => cases h
  rename_i hop
  subst hop
  obtain ⟨cmp, t₂, hcmp, h⟩ := Gen.bind_ok h
  obtain ⟨ext, t₃, hext, h⟩ := Gen.bind_ok h
  have h₂ := performs_cmpf ops callees hcmp ht
  have h₃ := performs_create ops callees hext h₂.placed
    (g := fun env => env.setInt ext (if env.flags cmp then 1 else 0)) (fun _ => rfl)
    (fun _ => ⟨rfl, rfl, rfl, fun _ _ => rfl⟩) (·.ints ext)
  have h₄ := performs_float ops callees h h₃.placed fun _ => rfl
  have hflag := h₂.bind h₃ (k := fun _ b st => .done (if b then 1 else 0) st)
    fun _ _ _ _ => by simp [Env.setInt]
  have hall := hflag.bind h₄ (k := fun _ n st => .done (ops.sitofp n) st) fun _ _ _ _ => rfl
  refine ⟨.inr (.inr (.inr rfl)), hall.congr fun th st => ?_⟩
  rw [if_neg hadd, if_neg hsub, if_neg hmul, if_pos rfl, ← hconv]
  rfl

/-- `genUnary` behind the operand. -/
theorem performs_unaryOp {op : Byte} {operand v : Nat} (hoperand : InValues operand t.builder)
    (h : unaryOp ops.toFloatOps op operand t = .ok v t₁) (ht : t.Placed sc cells) :
    (berlin ops callees).Performs t t₁ sc cells cells
      (fun th st => evalUnary ops.toFloatOps callees op (th.env.floats operand) st)
      (·.env.floats v) := by
  unfold unaryOp at h
  unfold evalUnary
  split at h
  case isTrue hop =>
    obtain ⟨zeroVal, t₂, hzero, h⟩ := Gen.bind_ok h
    have h₂ := performs_zero ops callees hzero ht
    have h₃ := performs_float ops callees h h₂.placed fun _ => rfl
    refine (h₂.bind h₃ (k := fun th x st => .done (ops.sub x (th.env.floats operand)) st) ?_).congr
      ?_
    · intro th th₁ hkept st
      rw [← hkept.floats operand hoperand]
      rfl
    · intro th st
      rw [if_pos hop]
      rfl
  case isFalse hop =>
    refine (performs_call ops callees h ht).congr fun th st => ?_
    rw [if_neg hop]
    rfl

end

end AroundTheWorld.Berlin
