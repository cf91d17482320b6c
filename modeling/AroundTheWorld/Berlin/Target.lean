import AroundTheWorld.Berlin.Meant
import AroundTheWorld.Counted.Target
import AroundTheWorld.Mlir.Activation

/-!
# Berlin's generator and the activations that run its code

The single operations that `MLIRGen` creates, and what an activation that comes to them
does. The blocks that have been begun are finished, but for the one that is inserted into.
-/

namespace AroundTheWorld.Berlin

open AroundTheWorld.Base AroundTheWorld.Lex AroundTheWorld.Mlir AroundTheWorld.Counted
open AroundTheWorld.Athens (ExprAST Name)
open AroundTheWorld.Llvm (IntOps FloatOps Callees)

variable {D W : Type}

/-- The code has what was added, and nothing else in the blocks that are new. -/
structure Within (blocks : Nat → List (Op D Name)) (b b' : OpBuilder D Name) : Prop where
  there : ∀ k, b'.blocks k <+: blocks k
  finished : ∀ k, b.nextBlock ≤ k → k < b'.nextBlock → blocks k = b'.blocks k

/-- The activation stands at the insertion point. -/
def At (blocks : Nat → List (Op D Name)) (b : OpBuilder D Name) (a : Activation D Name W) : Prop :=
  ∃ p, b.insertPoint = .atEnd p ∧ a.todo = (blocks p).drop (b.blocks p).length

/-- It has come back to where it was, and the values that it had are still there. -/
structure Kept (b : OpBuilder D Name) (a a' : Activation D Name W) : Prop where
  values : Env.Below b.nextValue a.env a'.env
  frames : a'.frames = a.frames

/-- What is generated in between inserts where it did before in the end. -/
structure Spans (b b' : OpBuilder D Name) : Prop where
  grown : b.Grown b'
  insert : b'.insertPoint = b.insertPoint

namespace Spans

variable {b b' b'' : OpBuilder D Name}

theorem trans (h : Spans b b') (h' : Spans b' b'') : Spans b b'' :=
  ⟨h.grown.trans h'.grown, h'.insert.trans h.insert⟩

/-- What comes then goes to none of the blocks that are finished. -/
theorem finished (hb : b.Wf) (h : Spans b b') (h' : Spans b' b'') {k : Nat} (hle : b.nextBlock ≤ k)
    (hlt : k < b'.nextBlock) : b''.blocks k = b'.blocks k := by
  obtain ⟨q, hq, hqlt⟩ := hb.insert
  apply h'.grown.untouched hlt
  intro hk
  rw [h.insert, hq] at hk
  have heq := InsertPoint.atEnd.inj hk
  omega

end Spans

def target (ops : IntOps D) (callees : Callees D Name W) :
    Target (BerlinState D) (OpBuilder D Name) (Nat → List (Op D Name)) (Activation D Name W) Nat
      D W where
  builder := BerlinState.builder
  names := BerlinState.namedValues
  step := Activation.step ops callees
  mem a := a.env.cells
  world a := a.env.world
  calls a := a.env.calls
  At := At
  Blocked _ := Activation.Blocked callees
  Wf := OpBuilder.Wf
  Has b k := k < b.nextValue
  Grown b b' := b.Wf ∧ Spans b b'
  Within := Within
  Kept := Kept
  grown_refl hwf := ⟨hwf, .refl hwf, rfl⟩
  grown_trans h h' := ⟨h.1, h.2.trans h'.2⟩
  grown_wf h := h.2.grown.wf
  grown_has h hk := Nat.lt_of_lt_of_le hk h.2.grown.values
  within_first h h' hcode := by
    constructor
    · exact fun k => (h'.2.grown.prefix_ k).trans (hcode.there k)
    · intro k hle hlt
      rw [hcode.finished k hle (Nat.lt_of_lt_of_le hlt h'.2.grown.labels)]
      exact Spans.finished h.1 h.2 h'.2 hle hlt
  within_rest h _ hcode :=
    ⟨hcode.there, fun k hle hlt => hcode.finished k (Nat.le_trans h.2.grown.labels hle) hlt⟩
  kept_refl := ⟨.refl, rfl⟩
  kept_trans h hkept hkept' :=
    ⟨hkept.values.trans h.2.grown.values hkept'.values, hkept'.frames.trans hkept.frames⟩

section
variable {ops : IntOps D} {callees : Callees D Name W} {N : Nat} {t t₁ t₂ : BerlinState D}
  {scope : List (Name × Nat)} {β : Type}

/-- The generator inside a scope. -/
abbrev Ready (ops : IntOps D) (callees : Callees D Name W) (t : BerlinState D)
    (scope : List (Name × Nat)) : Prop := (target ops callees).Ready t scope

/-- What has been generated does what `ev` says. -/
abbrev Computes (ops : IntOps D) (callees : Callees D Name W) (N : Nat) {α : Type}
    (t t' : BerlinState D) (scope scope' : List (Name × Nat))
    (ev : Activation D Name W → State D W → Option (α × State D W))
    (read : Activation D Name W → α) : Prop :=
  (target ops callees).Computes N t t' scope scope' ev read

/-! ## Single operations -/

/-- At the insertion point an activation meets what is emitted next. -/
theorem At.fetch {blocks : Nat → List (Op D Name)} {b b₁ : OpBuilder D Name}
    {a : Activation D Name W} (hat : At blocks b a) {p : Nat} (hp : b.insertPoint = .atEnd p)
    {op : Op D Name} (hpush : b₁.blocks p = b.blocks p ++ [op]) (hp₁ : b₁.insertPoint = .atEnd p)
    (hthere : b₁.blocks p <+: blocks p) : ∃ rest, a.todo = op :: rest ∧
      ∀ env frames, At blocks b₁ (⟨env, rest, frames⟩ : Activation D Name W) := by
  obtain ⟨q, hq, htodo⟩ := hat
  rw [hp] at hq
  cases hq
  obtain ⟨more, hmore⟩ := hthere
  have hdrop : (blocks p).drop (b.blocks p).length = op :: more := by
    rw [← hmore, hpush, List.append_assoc, List.drop_left]
    rfl
  refine ⟨more, htodo.trans hdrop, fun env frames => ⟨p, hp₁, ?_⟩⟩
  show more = (blocks p).drop (b₁.blocks p).length
  rw [← hmore, List.drop_left]

theorem pushed_blocks (p : Nat) (op : Op D Name) (b : OpBuilder D Name) :
    (pushed p op b).blocks p = b.blocks p ++ [op] := if_pos rfl

theorem create_spans {op : Nat → Op D Name} {v : Nat} (hwf : t.builder.Wf)
    (h : create op t = .ok v t₁) : Spans t.builder t₁.builder := by
  obtain ⟨⟨hgrown, hinsert⟩, -⟩ := create_extends op t v t₁ hwf h
  exact ⟨hgrown, hinsert⟩

theorem createOp_spans {op : Op D Name} (hwf : t.builder.Wf) (h : createOp op t = .ok () t₁) :
    Spans t.builder t₁.builder := by
  obtain ⟨⟨hgrown, hinsert⟩, -⟩ := createOp_extends op t () t₁ hwf h
  exact ⟨hgrown, hinsert⟩

/-- An operation with a result: the activation goes on behind it. -/
theorem At.created {op : Nat → Op D Name} {v : Nat} (hwf : t.builder.Wf)
    (h : create op t = .ok v t₁) {blocks : Nat → List (Op D Name)}
    (hcode : Within blocks t.builder t₁.builder) {a : Activation D Name W}
    (hat : At blocks t.builder a) : ∃ rest, a.todo = op v :: rest ∧
      ∀ env frames, At blocks t₁.builder (⟨env, rest, frames⟩ : Activation D Name W) := by
  obtain ⟨p, hp, -⟩ := hwf.insert
  obtain ⟨rfl, rfl⟩ := create_created h hp
  have hpush : (created p op t.builder).blocks p = t.builder.blocks p ++ [op t.builder.nextValue] :=
    pushed_blocks p _ _
  exact hat.fetch hp hpush hp (hcode.there p)

theorem At.pushed {op : Op D Name} (hwf : t.builder.Wf) (h : createOp op t = .ok () t₁)
    {blocks : Nat → List (Op D Name)} (hcode : Within blocks t.builder t₁.builder)
    {a : Activation D Name W} (hat : At blocks t.builder a) : ∃ rest, a.todo = op :: rest ∧
      ∀ env frames, At blocks t₁.builder (⟨env, rest, frames⟩ : Activation D Name W) := by
  obtain ⟨p, hp, -⟩ := hwf.insert
  obtain rfl := createOp_pushed h hp
  exact hat.fetch hp (pushed_blocks p op t.builder) hp (hcode.there p)

theorem create_names {op : Nat → Op D Name} {v : Nat} (hwf : t.builder.Wf)
    (h : create op t = .ok v t₁) : v = t.builder.nextValue ∧ t₁.namedValues = t.namedValues ∧
      t₁.builder.nextValue = t.builder.nextValue + 1 := by
  obtain ⟨p, hp, -⟩ := hwf.insert
  obtain ⟨rfl, rfl⟩ := create_created h hp
  exact ⟨rfl, rfl, rfl⟩

theorem createOp_names {op : Op D Name} (hwf : t.builder.Wf) (h : createOp op t = .ok () t₁) :
    t₁.namedValues = t.namedValues := by
  obtain ⟨p, hp, -⟩ := hwf.insert
  obtain rfl := createOp_pushed h hp
  rfl

/-- Nothing but values from `n` on is changed. -/
structure OnlyValues (n : Nat) (env env' : Env D Name W) : Prop where
  values : Env.Below n env env'
  cells : env'.cells = env.cells
  world : env'.world = env.world
  calls : env'.calls = env.calls

theorem Ready.create {op : Nat → Op D Name} {v : Nat} (ht : Ready ops callees t scope)
    (h : create op t = .ok v t₁) : Ready ops callees t₁ scope :=
  ht.grown ⟨ht.wf, create_spans ht.wf h⟩ (create_names ht.wf h).2.1

theorem Ready.createOp {op : Op D Name} (ht : Ready ops callees t scope)
    (h : createOp op t = .ok () t₁) : Ready ops callees t₁ scope :=
  ht.grown ⟨ht.wf, createOp_spans ht.wf h⟩ (createOp_names ht.wf h)

/-- An operation that changes only its result. -/
theorem computes_create {op : Nat → Op D Name} {v : Nat} (h : create op t = .ok v t₁)
    (ht : Ready ops callees t scope) {g : Env D Name W → Env D Name W}
    (hrun : ∀ env, (op v).run ops callees env = some (g env)) (hg : ∀ env, OnlyValues v env (g env))
    (read : Env D Name W → β)
    (hread : ∀ env env', Env.Below (v + 1) env env' → read env' = read env) :
    Computes ops callees N t t₁ scope scope (fun a st => some (read (g a.env), st))
      (fun a => read a.env) := by
  obtain ⟨hv, hnames, hnext⟩ := create_names ht.wf h
  constructor
  · exact ⟨ht.wf, create_spans ht.wf h⟩
  · exact ht.create h
  · intro a a' hkept
    apply hread
    rw [hv, ← hnext]
    exact hkept.values
  · intro blocks hcode a st hat hst
    obtain ⟨rest, htodo, hafter⟩ := At.created ht.wf h hcode hat
    have hstep : a.step ops callees blocks = some ⟨g a.env, rest, a.frames⟩ :=
      Activation.step_of_run htodo (hrun a.env)
    have honly := hg a.env
    have hvalues : Env.Below t.builder.nextValue a.env (g a.env) := hv ▸ honly.values
    refine Simulates.after (Reaches.one hstep) (Simulates.pure ⟨hafter _ _, ?_, rfl, hvalues, rfl⟩)
    exact hst.same (fun b _ => congrFun honly.cells b.2) honly.world honly.calls

/-- An operation whose result is a double. -/
theorem computes_float {op : Nat → Op D Name} {v : Nat} (h : create op t = .ok v t₁)
    (ht : Ready ops callees t scope) {x : Env D Name W → D}
    (hrun : ∀ env, (op v).run ops callees env = some (env.setFloat v (x env))) :
    Computes ops callees N t t₁ scope scope (fun a st => some (x a.env, st)) (·.env.floats v) := by
  have hcreate := computes_create (N := N) h ht hrun
    (fun env => ⟨.setFloat (Nat.le_refl v) env _, rfl, rfl, rfl⟩) (·.floats v)
    (fun env env' hbelow => hbelow.floats v (Nat.lt_succ_self v))
  exact hcreate.congr fun a st => by simp [Env.setFloat]

theorem computes_zero {v : Nat} (h : defaultF64Zero ops.toFloatOps t = .ok v t₁)
    (ht : Ready ops callees t scope) :
    Computes ops callees N t t₁ scope scope (fun _ st => some (ops.zero, st)) (·.env.floats v) :=
  computes_float h ht fun _ => rfl

/-- An operation whose result is a flag. -/
theorem computes_cmpf {pred : CmpFPredicate} {lhs rhs v : Nat}
    (h : create (.cmpf pred · lhs rhs) t = .ok v t₁) (ht : Ready ops callees t scope) :
    Computes ops callees N t t₁ scope scope
      (fun a st => some (cmpf ops pred (a.env.floats lhs) (a.env.floats rhs), st))
      (·.env.flags v) := by
  have hcreate := computes_create (N := N) h ht
    (g := fun env => env.setFlag v (cmpf ops pred (env.floats lhs) (env.floats rhs)))
    (fun _ => rfl) (fun env => ⟨.setFlag (Nat.le_refl v) env _, rfl, rfl, rfl⟩) (·.flags v)
    (fun env env' hbelow => hbelow.flags v (Nat.lt_succ_self v))
  exact hcreate.congr fun a st => by simp [Env.setFlag]

/-- An operation whose result is an integer. -/
theorem computes_int {op : Nat → Op D Name} {v : Nat} (h : create op t = .ok v t₁)
    (ht : Ready ops callees t scope) {n : Env D Name W → Int}
    (hrun : ∀ env, (op v).run ops callees env = some (env.setInt v (n env))) :
    Computes ops callees N t t₁ scope scope (fun a st => some (n a.env, st)) (·.env.ints v) := by
  have hcreate := computes_create (N := N) h ht hrun
    (fun env => ⟨.setInt (Nat.le_refl v) env _, rfl, rfl, rfl⟩) (·.ints v)
    (fun env env' hbelow => hbelow.ints v (Nat.lt_succ_self v))
  exact hcreate.congr fun a st => by simp [Env.setInt]

/-- A load of the cell of a name. -/
theorem computes_load {name : Name} {memref v : Nat} (hname : t.namedValues name = some memref)
    (h : create (.load · memref) t = .ok v t₁) (ht : Ready ops callees t scope) :
    Computes ops callees N t t₁ scope scope (fun _ st => (st.read name).map fun x => (x, st))
      (·.env.floats v) := by
  have hload := computes_float (N := N) (x := fun env => env.cells memref) h ht (fun _ => rfl)
  refine ⟨hload.grown, hload.ready, hload.stable, ?_⟩
  intro blocks hcode a st hat hst
  have hread : st.read name = some (a.env.cells memref) := hst.read ht hname
  rw [hread]
  exact hload.simulates blocks hcode a st hat hst

/-- A store to the cell of a name. -/
theorem computes_store {name : Name} {memref val : Nat} (hname : t.namedValues name = some memref)
    (h : createOp (.store val memref) t = .ok () t₁) (hval : val < t.builder.nextValue)
    (ht : Ready ops callees t scope) :
    Computes ops callees N t t₁ scope scope
      (fun a st => (st.write name (a.env.floats val)).map fun st => (a.env.floats val, st))
      (·.env.floats val) := by
  have hspans := createOp_spans ht.wf h
  constructor
  · exact ⟨ht.wf, hspans⟩
  · exact ht.createOp h
  · intro a a' hkept
    exact hkept.values.floats val (Nat.lt_of_lt_of_le hval hspans.grown.values)
  · intro blocks hcode a st hat hst
    obtain ⟨rest, htodo, hafter⟩ := At.pushed ht.wf h hcode hat
    have hrun : (Op.store val memref).run ops callees a.env =
        some (a.env.setCell memref (a.env.floats val)) := rfl
    let after : Activation D Name W := ⟨a.env.setCell memref (a.env.floats val), rest, a.frames⟩
    have hstep : a.step ops callees blocks = some after := Activation.step_of_run htodo hrun
    obtain ⟨st', hwrite, hst'⟩ : ∃ st', st.write name (a.env.floats val) = some st' ∧
        (target ops callees).Agrees scope st' after := hst.write ht hname rfl rfl rfl
    have hvalues : Env.Below t.builder.nextValue a.env after.env :=
      ⟨fun _ _ => rfl, fun _ _ => rfl, fun _ _ => rfl⟩
    rw [hwrite]
    exact Simulates.after (Reaches.one hstep) (Simulates.pure ⟨hafter _ _, hst', rfl, hvalues, rfl⟩)

theorem computes_call {callee : Name} {args : List Nat} {v : Nat}
    (h : create (.call · callee args) t = .ok v t₁) (ht : Ready ops callees t scope) :
    Computes ops callees N t t₁ scope scope
      (fun a => callFunction callees callee (args.map a.env.floats)) (·.env.floats v) := by
  obtain ⟨hv, hnames, hnext⟩ := create_names ht.wf h
  constructor
  · exact ⟨ht.wf, create_spans ht.wf h⟩
  · exact ht.create h
  · intro a a' hkept
    have hlt : v < t₁.builder.nextValue := by omega
    exact hkept.values.floats v hlt
  · intro blocks hcode a st hat hst
    obtain ⟨rest, htodo, hafter⟩ := At.created ht.wf h hcode hat
    have hworld : st.world = a.env.world := hst.world
    rw [callFunction, hworld]
    cases hcall : callees callee (args.map a.env.floats) a.env.world with
    | none => exact Simulates.of_blocked ⟨v, callee, args, rest, htodo, hcall⟩
    | some r =>
      have hrun : (Op.call v callee args).run ops callees a.env =
          some { a.env.setFloat v r.1 with
            world := r.2, calls := a.env.calls ++ [(callee, args.map a.env.floats)] } := by
        show Option.map _ (callees callee (args.map a.env.floats) a.env.world) = _
        rw [hcall]
        rfl
      have hstep : a.step ops callees blocks = some ⟨_, rest, a.frames⟩ :=
        Activation.step_of_run htodo hrun
      have hbelow := Env.Below.setFloat (Nat.le_of_eq hv.symm) a.env r.1
      refine Simulates.after (Reaches.one hstep)
        (Simulates.pure ⟨hafter _ _, ?_, ?_, ⟨hbelow.floats, hbelow.flags, hbelow.ints⟩, rfl⟩)
      · exact ⟨hst.locals, rfl, congrArg (· ++ [(callee, args.map a.env.floats)]) hst.calls⟩
      · simp [Env.setFloat]

end

end AroundTheWorld.Berlin
