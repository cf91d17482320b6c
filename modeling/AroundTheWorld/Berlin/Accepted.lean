import AroundTheWorld.Berlin.Linked
import AroundTheWorld.Berlin.Meant

/-!
# Functions that Berlin accepts

A definition that is accepted is the only one of its module so far: behind another one the
generator crashes. Its function does what its body means.
-/

namespace AroundTheWorld.Berlin

open AroundTheWorld.Base AroundTheWorld.Lex AroundTheWorld.Mlir AroundTheWorld.Agreement
open AroundTheWorld.Athens (ExprAST FunctionAST Name)
open AroundTheWorld.Llvm (IntOps FloatOps Callees wholeIntOps)

variable {D W : Type}

/-! ## Definitions that are accepted -/

/-- Behind the other items, `genFunction` makes a function of the definition that stays in
the module, and `entry` is its entry block. -/
structure Accepted (ops : FloatOps D) (items : List (Item D)) (f : FunctionAST D)
    (s t : ModuleState D) (entry : Nat) : Prop where
  before : genItems ops items {} = .ok s
  run : genFunction ops f s = .ok t
  stays : s.funcs.length ∈ t.topLevel
  entry : t.entryOf s.funcs.length = some entry

section
variable {ops : FloatOps D} {items : List (Item D)} {f : FunctionAST D} {s t : ModuleState D}
  {entry : Nat}

/-- An item is created outside all blocks, or not at all. -/
theorem unset_of_genItem {item : Item D} (h : genItem ops item s = .ok t) :
    s.gen.builder.insertPoint = .unset := by
  cases hpoint : s.gen.builder.insertPoint with
  | unset => rfl
  | atEnd q =>
    rw [genItem_atEnd hpoint] at h
    cases h
  | erased =>
    rw [genItem_erased hpoint] at h
    cases h

/-- The insertion point stays in the definition, or in what has been erased of it. -/
theorem genFunction_insert (hunset : s.gen.builder.insertPoint = .unset)
    (h : genFunction ops f s = .ok t) : t.gen.builder.insertPoint ≠ .unset := by
  rw [genFunction_unset hunset] at h
  cases hentry : runEntry ops f s with
  | ok u gen =>
    rw [hentry] at h
    cases h
    have hnested : NestedIn (fun _ => none) _ _ _ := genEntry_nested hentry
    intro hpoint
    cases hnested.insert.symm.trans hpoint
  | null gen =>
    rw [hentry] at h
    cases h
    intro hpoint
    cases hpoint
  | abort why =>
    rw [hentry] at h
    cases h

/-- In front of an item there are prototypes only, which emit nothing. -/
theorem genItems_gen {s₁ : ModuleState D} (h : genItems ops items s = .ok s₁) (hgen : s.gen = {})
    {item : Item D} (hitem : genItem ops item s₁ = .ok t) : s₁.gen = {} := by
  induction items generalizing s with
  | nil =>
    cases h
    exact hgen
  | cons first rest ih =>
    have hunset : s.gen.builder.insertPoint = .unset := by rw [hgen]
    change (genItem ops first s >>= genItems ops rest) = _ at h
    cases first with
    | prototype proto =>
      have hproto : genItem ops (.prototype proto) s = .ok (s.declared proto) :=
        genPrototype_unset hunset proto
      rw [hproto] at h
      exact ih h hgen
    | function g =>
      exfalso
      cases hfun : genItem ops (.function g) s with
      | error why =>
        rw [hfun] at h
        cases h
      | ok s₂ =>
        rw [hfun] at h
        have hpoint := genFunction_insert hunset hfun
        -- the next item, or else this one, would have to be created outside all blocks
        cases rest with
        | nil =>
          cases h
          exact hpoint (unset_of_genItem hitem)
        | cons second rest =>
          change (genItem ops second s₂ >>= genItems ops rest) = _ at h
          cases hsecond : genItem ops second s₂ with
          | error why =>
            rw [hsecond] at h
            cases h
          | ok s₃ => exact hpoint (unset_of_genItem hsecond)

end

/-! ## Their functions -/

section
variable {ops : IntOps D} {callees : Callees D Name W} {items : List (Item D)} {f : FunctionAST D}
  {s t : ModuleState D} {entry : Nat}

theorem Accepted.code (h : Accepted ops.toFloatOps items f s t entry) :
    entry = 0 ∧ Nonempty (FunctionCode ops f t.gen) := by
  have hitem : genItem ops.toFloatOps (.function f) s = .ok t := h.run
  have hgen : s.gen = {} := genItems_gen h.before rfl hitem
  have hunset : s.gen.builder.insertPoint = .unset := by rw [hgen]
  have hrun := h.run
  rw [genFunction_unset hunset] at hrun
  cases hentry : runEntry ops.toFloatOps f s with
  | ok u gen =>
    rw [hentry] at hrun
    cases hrun
    refine ⟨?_, FunctionCode.of_runEntry hgen hentry⟩
    have hstart := h.entry
    unfold ModuleState.entryOf ModuleState.started at hstart
    rw [List.getElem?_concat_length, Option.bind_some, hgen] at hstart
    cases hstart
    rfl
  | null gen =>
    rw [hentry] at hrun
    cases hrun
    have hstays := h.stays
    simp [ModuleState.eraseFunc] at hstays
  | abort why =>
    rw [hentry] at hrun
    cases hrun

/-- The loop over the arguments: each goes to a new cell. -/
theorem performs_params (ops : IntOps D) (callees : Callees D Name W) {params : List (Name × Nat)}
    {b b' : BerlinState D} {sc : NameScope} {cells : List Nat} (h : genParams params b = .ok () b')
    (hparams : ∀ p ∈ params, InValues p.2 b.builder) (hb : b.Placed sc cells) : ∃ cells',
    (berlin ops callees).Performs b b' (sc.bindAll (params.map (·.1))) cells cells'
      (fun th st => .done () (st.writeAll (params.map fun p => th.env.floats p.2) sc.next))
      (fun _ => ()) := by
  induction params generalizing b sc cells with
  | nil =>
    cases h
    exact ⟨cells, BackEnd.Performs.refl hb ()⟩
  | cons p rest ih =>
    obtain ⟨name, arg⟩ := p
    obtain ⟨k, b₁, hk, h⟩ := Gen.bind_ok h
    obtain ⟨_, b₂, hstore, h⟩ := Gen.bind_ok h
    obtain ⟨_, b₃, hname, h⟩ := Gen.bind_ok h
    obtain ⟨-, h₁⟩ :=
      performs_bound ops callees (hparams _ (List.mem_cons_self ..)) hk hstore hname hb
    have hrest : ∀ p ∈ rest, InValues p.2 b.builder :=
      fun p hp => hparams p (List.mem_cons_of_mem _ hp)
    obtain ⟨cells', h₂⟩ :=
      ih h (fun p hp => Nat.lt_of_lt_of_le (hrest p hp) h₁.grown.1.values) h₁.placed
    refine ⟨cells', (h₁.bind h₂ (k := fun th _ st =>
      .done () (st.writeAll (rest.map fun p => th.env.floats p.2) (sc.next + 1))) ?_).congr ?_⟩
    · intro th th₁ hkept st
      have hsame : (rest.map fun p => th₁.env.floats p.2) =
          rest.map fun p => th.env.floats p.2 := by
        apply List.map_congr_left
        intro p hp
        exact hkept.floats p.2 (hrest p hp)
      rw [hsame]
      rfl
    · exact fun _ _ => rfl

/-- At the beginning of a function that was called. The arguments of its entry block are the
first values; the memory is as whoever was there has left it. -/
structure Entered (blocks : Nat → List (Op D Name)) (entry : Nat) (args : List D) (world : W)
    (th : Thread D Name W) : Prop where
  todo : th.todo = blocks entry
  around : th.around = []
  floats : ∀ i x, args[i]? = some x → th.env.floats i = x
  world : th.env.world = world
  calls : th.env.calls = []

/-- In front of the `func.return` of the function. -/
def Returns (th : Thread D Name W) (x : D) : Prop :=
  ∃ val rest, th.todo = .returnOp val :: rest ∧ th.around = [] ∧ th.env.floats val = x

/-- A function that was accepted does what its body means, behind its parameters. -/
theorem Accepted.follows (h : Accepted ops.toFloatOps items f s t entry)
    (hconv : ∀ b : Bool, ops.sitofp (if b then 1 else 0) = ops.uitofp b)
    (hfree : loopFree (fun _ => true) f.body = true) (callees : Callees D Name W) :
    ∃ cells, ∀ args world th, args.length = f.proto.args.length →
      Entered t.gen.builder.blocks entry args world th →
      Follows (Thread.step ops callees t.gen.builder.blocks)
        ((berlin ops callees).Waits cells t.gen.builder.blocks) th
        (evalFunction ops.toFloatOps callees (holds ops) f.proto.args f.body args world)
        fun x st th' => Returns th' x ∧ th'.env.world = st.world ∧ th'.env.calls = st.calls := by
  obtain ⟨rfl, ⟨c⟩⟩ := h.code
  have hstart : (firstEntry D f.proto.args.length).Placed ⟨fun _ => none, 0⟩ [] :=
    ⟨⟨⟨0, rfl, Nat.one_pos⟩, fun _ _ => rfl⟩, .empty, fun _ hk => (List.not_mem_nil hk).elim⟩
  have hparams : ∀ p ∈ f.proto.args.zip (List.range' 0 f.proto.args.length),
      InValues p.2 (firstEntry D f.proto.args.length).builder := by
    intro p hp
    have hlt := (List.mem_range'_1.mp (List.of_mem_zip hp).2).2
    rwa [Nat.zero_add] at hlt
  obtain ⟨cells, h₁⟩ := performs_params ops callees c.genParams hparams hstart
  have hnames : (f.proto.args.zip (List.range' 0 f.proto.args.length)).map (·.1) = f.proto.args :=
    List.map_fst_zip (by simp)
  rw [hnames] at h₁
  obtain ⟨-, cells', h₂⟩ := meant_of_loopFree hconv callees _ f.body hfree _ c.bodyVal _ _ _
    c.genBody h₁.placed
  have hall := h₁.bind h₂ (k := fun _ _ st => eval ops.toFloatOps callees (holds ops) f.body
    (entryScope f.proto.args) st) fun _ _ _ _ => rfl
  have hat : c.bodyEnd.builder.insertPoint = .atEnd 0 := hall.grown.2
  have hfinal : t.gen.builder.blocks 0 = c.bodyEnd.builder.blocks 0 ++ [.returnOp c.bodyVal] := by
    have hpushed := congrArg (fun s => s.builder.blocks 0) (createOp_pushed c.genReturn hat)
    exact hpushed.trans (pushed_blocks 0 _ c.bodyEnd.builder)
  have hblocks : ∀ k, c.bodyEnd.builder.blocks k <+: t.gen.builder.blocks k := by
    intro k
    obtain ⟨⟨hgrown, -⟩, -⟩ :=
      createOp_extends _ _ _ _ h₂.placed.wf c.genReturn
    exact hgrown.prefix_ k
  refine ⟨cells', fun args world th hlen hth => ?_⟩
  have hst : (berlin ops callees).Stands (firstEntry D f.proto.args.length).builder cells'
      t.gen.builder.blocks ⟨fun _ => none, world, []⟩ th :=
    ⟨⟨0, rfl, hth.todo⟩, .nothing hth.world hth.calls⟩
  have hrun := hall.follows cells' t.gen.builder.blocks List.prefix_rfl h₂.placed.scope.distinct
    (.of_le hblocks) th _ hst
  have hargs : (f.proto.args.zip (List.range' 0 f.proto.args.length)).map
      (fun p => th.env.floats p.2) = args := by
    have hvalues := inputs_eq hth.floats
    rw [hlen] at hvalues
    show List.map (th.env.floats ∘ Prod.snd) _ = args
    rw [← List.map_map, List.map_snd_zip (by simp), hvalues]
  rw [hargs] at hrun
  refine Follows.mono hrun fun x st th' hwent => ?_
  -- behind the body there is the `func.return`
  obtain ⟨q, hq, htodo⟩ := hwent.stands.at_
  obtain rfl : 0 = q := InsertPoint.atEnd.inj (hat.symm.trans hq)
  rw [hfinal, List.drop_left] at htodo
  exact ⟨⟨c.bodyVal, [], htodo, hwent.kept.around.trans hth.around, hwent.read⟩,
    hwent.stands.mem.world, hwent.stands.mem.calls⟩

end

end AroundTheWorld.Berlin
