import AroundTheWorld.Berlin.Follows

/-!
# What Berlin generates for expressions

One lemma for each construct, and from them, by induction over expressions without loops,
that what is generated for them does what they mean.
-/

namespace AroundTheWorld.Berlin

open AroundTheWorld.Base AroundTheWorld.Lex AroundTheWorld.Mlir AroundTheWorld.Agreement
open AroundTheWorld.Athens (ExprAST Name)
open AroundTheWorld.Llvm (IntOps FloatOps Callees)

variable {D W : Type}

section
variable {ops : IntOps D} {callees : Callees D Name W} {t t₁ t₂ : BerlinState D}
  {sc sc₁ sc₂ : NameScope} {cells cells₁ cells₂ : List Nat}

/-- What is generated for the expression does what it means. -/
abbrev Meant (ops : IntOps D) (callees : Callees D Name W) (e : ExprAST D) : Prop :=
  (berlin ops callees).Meant ops.toFloatOps callees (holds ops) (gen ops.toFloatOps)
    (fun v th => th.env.floats v) e

theorem meant_variable (name : Name) : Meant ops callees (.variableExpr name) := by
  intro t v t' sc cells h ht
  rw [gen] at h
  obtain ⟨it, t₁, hit, h⟩ := Gen.bind_ok h
  cases hit
  cases hfound : t.namedValues name with
  | none =>
    rw [hfound] at h
    cases h
  | some memref =>
    rw [hfound] at h
    obtain ⟨c, hname, -, hc⟩ := ht.scope.find hfound
    refine ⟨?_, cells, ?_⟩
    · rw [Resolves, hname]
      rfl
    · refine (performs_load ops callees h ht hc hname).congr fun th st => ?_
      rw [eval]

theorem meant_unary {op : Byte} {operand : ExprAST D} (ih : Meant ops callees operand) :
    Meant ops callees (.unaryExpr op operand) := by
  intro t v t' sc cells h ht
  rw [gen] at h
  obtain ⟨x, t₁, hx, h⟩ := Gen.bind_ok h
  obtain ⟨hresolves, cells₁, h₁⟩ := ih t x t₁ sc cells hx ht
  obtain ⟨-, hin⟩ := gen_extends ops.toFloatOps operand t x t₁ ht.wf hx
  have h₂ := performs_unaryOp ops callees hin h h₁.placed
  refine ⟨by rwa [Resolves], cells₁, ?_⟩
  rw [scopeAfter]
  refine (h₁.bind h₂ (k := fun _ => evalUnary ops.toFloatOps callees op) ?_).congr ?_
  · exact fun _ _ _ _ => rfl
  · intro th st
    rw [eval]

theorem meant_assignment {lhs rhs : ExprAST D} (ihr : Meant ops callees rhs) :
    Meant ops callees (.binaryExpr (byte '=') lhs rhs) := by
  intro t v t' sc cells h ht
  rw [gen, if_pos rfl] at h
  rw [Resolves, if_pos rfl]
  cases lhs with
  | variableExpr name =>
    obtain ⟨x, t₁, hx, h⟩ := Gen.bind_ok h
    obtain ⟨it, t₂, hit, h⟩ := Gen.bind_ok h
    cases hit
    cases hfound : t₁.namedValues name with
    | none =>
      rw [hfound] at h
      cases h
    | some memref =>
      rw [hfound] at h
      obtain ⟨_, t₃, hstore, h⟩ := Gen.bind_ok h
      cases h
      obtain ⟨hresolves, cells₁, h₁⟩ := ihr t v t₁ sc cells hx ht
      obtain ⟨c, hname, -, hc⟩ := h₁.placed.scope.find hfound
      have h₂ := performs_store ops callees hstore h₁.placed hc
      refine ⟨⟨hresolves, ?_⟩, cells₁, ?_⟩
      · rw [Assignable, hname]
        rfl
      · exact BackEnd.Evaluates.assigned h₁ hname h₂
  | _ => cases h

theorem meant_binary (hconv : ∀ b : Bool, ops.sitofp (if b then 1 else 0) = ops.uitofp b)
    {op : Byte} {lhs rhs : ExprAST D} (ihl : Meant ops callees lhs) (ihr : Meant ops callees rhs) :
    Meant ops callees (.binaryExpr op lhs rhs) := by
  by_cases hop : op = byte '='
  · subst hop
    exact meant_assignment ihr
  intro t v t' sc cells h ht
  rw [gen, if_neg hop] at h
  obtain ⟨l, t₁, hl, h⟩ := Gen.bind_ok h
  obtain ⟨r, t₂, hr, h⟩ := Gen.bind_ok h
  cases l with
  | none => cases h
  | some x =>
    cases r with
    | none => cases h
    | some y =>
      have hx := Gen.attempt_some hl
      have hy := Gen.attempt_some hr
      obtain ⟨hresolves, cells₁, h₁⟩ := ihl t x t₁ sc cells hx ht
      obtain ⟨hresolves₂, cells₂, h₂⟩ := ihr t₁ y t₂ _ cells₁ hy h₁.placed
      obtain ⟨-, hin⟩ := gen_extends ops.toFloatOps lhs t x t₁ ht.wf hx
      obtain ⟨harith, h₃⟩ := performs_binaryOp ops callees hconv h h₂.placed
      rw [Resolves, if_neg hop]
      refine ⟨⟨hresolves, hresolves₂, harith⟩, cells₂, ?_⟩
      exact BackEnd.Evaluates.operated hop h₁ (fun th th₁ hkept => hkept.floats x hin) h₂ h₃

/-! ## Lists of expressions -/

theorem meant_args {args : List (ExprAST D)} (ih : ∀ a ∈ args, Meant ops callees a)
    {vals : List Nat} (h : genArgs ops.toFloatOps args t = .ok vals t₁) (ht : t.Placed sc cells) :
    ResolvesArgs args sc ∧ ∃ cells',
      (berlin ops callees).Performs t t₁ (scopeArgs args sc) cells cells'
      (fun _ st => evalArgs ops.toFloatOps callees (holds ops) args sc st)
      (fun th => vals.map th.env.floats) := by
  induction args generalizing t sc cells vals with
  | nil =>
    rw [genArgs] at h
    cases h
    refine ⟨trivial, cells, (BackEnd.Performs.refl ht []).congr fun th st => ?_⟩
    rw [evalArgs]
  | cons arg args ihs =>
    rw [genArgs] at h
    obtain ⟨x, t₂, hx, h⟩ := Gen.bind_ok h
    obtain ⟨xs, t₃, hxs, h⟩ := Gen.bind_ok h
    cases h
    obtain ⟨hresolves, cells₂, h₂⟩ := ih arg (List.mem_cons_self ..) t x t₂ sc cells hx ht
    obtain ⟨hresolves₃, cells₃, h₃⟩ :=
      ihs (fun a ha => ih a (List.mem_cons_of_mem _ ha)) hxs h₂.placed
    obtain ⟨-, hin⟩ := gen_extends ops.toFloatOps arg t x t₂ ht.wf hx
    refine ⟨⟨hresolves, hresolves₃⟩, cells₃, ?_⟩
    exact BackEnd.Evaluates.argument h₂ (fun th th₁ hkept => hkept.floats x hin) h₃

theorem meant_call {callee : Name} {args : List (ExprAST D)}
    (ih : ∀ a ∈ args, Meant ops callees a) : Meant ops callees (.callExpr callee args) := by
  intro t v t' sc cells h ht
  rw [gen] at h
  obtain ⟨xs, t₁, hxs, h⟩ := Gen.bind_ok h
  obtain ⟨hresolves, cells₁, h₁⟩ := meant_args ih hxs ht
  have h₂ := performs_call ops callees h h₁.placed
  exact ⟨by rwa [Resolves], cells₁, BackEnd.Evaluates.called h₁ h₂⟩

/-- The initialiser of a binding. -/
theorem meant_init {init : ExprAST D} (ih : Meant ops callees init) {v : Nat}
    (h : (if init.isNull then defaultF64Zero ops.toFloatOps else gen ops.toFloatOps init) t =
      .ok v t₁) (ht : t.Placed sc cells) : (init.isNull = true ∨ Resolves init sc) ∧ ∃ cells',
      (berlin ops callees).Performs t t₁ (scopeAfter init sc) cells cells'
        (fun _ st => if init.isNull then .done ops.zero st
          else eval ops.toFloatOps callees (holds ops) init sc st) (·.env.floats v) := by
  split at h
  case isTrue hnull =>
    obtain rfl := ExprAST.eq_null_of_isNull hnull
    exact ⟨.inl rfl, cells, performs_zero ops callees h ht⟩
  case isFalse hnull =>
    obtain ⟨hresolves, cells', h'⟩ := ih t v t₁ sc cells h ht
    refine ⟨.inr hresolves, cells', h'.congr fun th st => ?_⟩
    rw [if_neg hnull]

theorem bindName_placed {name : Name} {k : Nat}
    (ht : t.Placed sc.allocate (cells ++ [k])) (h : bindName name (some k) t = .ok () t₁) :
    t₁.builder = t.builder ∧ t₁.Placed (sc.bind name) (cells ++ [k]) := by
  cases h
  exact ⟨rfl, ht.wf, ht.scope.bind name, ht.old⟩

/-- A value in a new cell, and a name for the cell. -/
theorem performs_bound (ops : IntOps D) (callees : Callees D Name W) {name : Name} {x k : Nat}
    {t₃ : BerlinState D} (hx : InValues x t.builder) (hk : create .alloca t = .ok k t₁)
    (hstore : createOp (.store x k) t₁ = .ok () t₂) (hname : bindName name (some k) t₂ = .ok () t₃)
    (ht : t.Placed sc cells) : t₂.Placed sc.allocate (cells ++ [k]) ∧
      (berlin ops callees).Performs t t₃ (sc.bind name) cells (cells ++ [k])
        (fun th st => .done (th.env.floats x) (st.write sc.next (th.env.floats x)))
        (·.env.floats x) := by
  have h₁ := performs_alloca ops callees hk ht
  have h₂ := performs_store ops callees hstore h₁.placed h₁.placed.scope.last
  obtain ⟨hb, hplaced⟩ := bindName_placed h₂.placed hname
  have hall := h₁.bind h₂
    (k := fun th _ st => .done (th.env.floats x) (st.write sc.next (th.env.floats x)))
    fun th th₁ hkept st => by rw [hkept.floats x hx]
  exact ⟨h₂.placed, hall.renamed hplaced hb⟩

theorem meant_bindings {varNames : List (Name × ExprAST D)}
    (ih : ∀ b ∈ varNames, Meant ops callees b.2) {olds : List (Name × Option Nat)}
    (h : genBindings ops.toFloatOps varNames t = .ok olds t₁) (ht : t.Placed sc cells) :
    ResolvesBindings varNames sc ∧ ∃ cells', Saved (scopeBindings varNames sc).1 cells' olds ∧
      (berlin ops callees).Performs t t₁ (scopeBindings varNames sc).2 cells cells'
        (fun _ st => evalBindings ops.toFloatOps callees (holds ops) varNames sc st)
        (fun _ => ()) := by
  induction varNames generalizing t sc cells olds with
  | nil =>
    rw [genBindings] at h
    cases h
    refine ⟨trivial, cells, ⟨fun _ hp => (List.not_mem_nil hp).elim, rfl⟩, ?_⟩
    refine (BackEnd.Performs.refl ht ()).congr fun th st => ?_
    rw [evalBindings]
  | cons b rest ihs =>
    obtain ⟨name, init⟩ := b
    rw [genBindings] at h
    obtain ⟨x, t₂, hx, h⟩ := Gen.bind_ok h
    obtain ⟨k, t₃, hk, h⟩ := Gen.bind_ok h
    obtain ⟨_, t₄, hstore, h⟩ := Gen.bind_ok h
    obtain ⟨it, t₅, hit, h⟩ := Gen.bind_ok h
    cases hit
    obtain ⟨_, t₅, hname, h⟩ := Gen.bind_ok h
    obtain ⟨olds', t₆, hrest, h⟩ := Gen.bind_ok h
    cases h
    have hin : InValues x t₂.builder := by
      split at hx
      · exact (create_extends _ t x t₂ ht.wf hx).2
      · exact (gen_extends ops.toFloatOps init t x t₂ ht.wf hx).2
    obtain ⟨hresolves, cells₁, h₁⟩ := meant_init (ih _ (List.mem_cons_self ..)) hx ht
    obtain ⟨hold, h₂⟩ := performs_bound ops callees hin hk hstore hname h₁.placed
    obtain ⟨hresolves₂, cells₂, hsaved, h₃⟩ :=
      ihs (fun b hb => ih b (List.mem_cons_of_mem _ hb)) hrest h₂.placed
    refine ⟨⟨hresolves, hresolves₂⟩, cells₂, ?_, BackEnd.Evaluates.bound h₁ h₂ h₃⟩
    rw [scopeBindings]
    exact hsaved.cons name hold.scope h₃.cells

theorem restoreNames_run {olds : List (Name × Option Nat)} (h : restoreNames olds t = .ok () t₁) :
    t₁ = { t with namedValues := restoreTable olds t.namedValues } := by
  induction olds generalizing t with
  | nil =>
    cases h
    rfl
  | cons p olds ih => exact ih h

theorem meant_var {varNames : List (Name × ExprAST D)} {body : ExprAST D}
    (ihs : ∀ b ∈ varNames, Meant ops callees b.2) (ih : Meant ops callees body) :
    Meant ops callees (.varExpr varNames body) := by
  intro t v t' sc cells h ht
  rw [gen] at h
  obtain ⟨olds, t₁, hbindings, h⟩ := Gen.bind_ok h
  obtain ⟨bodyVal, t₂, hbody, h⟩ := Gen.bind_ok h
  obtain ⟨_, t₃, hrestore, h⟩ := Gen.bind_ok h
  cases bodyVal with
  | none => cases h
  | some w =>
    cases h
    obtain ⟨hresolves, cells₁, hsaved, h₁⟩ := meant_bindings ihs hbindings ht
    obtain ⟨hresolves₂, cells₂, h₂⟩ := ih t₁ v t₂ _ cells₁ (Gen.attempt_some hbody) h₁.placed
    obtain rfl := restoreNames_run hrestore
    have hplaced : BerlinState.Placed { t₂ with namedValues := restoreTable olds t₂.namedValues }
        (scopeAfter (.varExpr varNames body) sc) cells₂ := by
      rw [scopeAfter]
      exact ⟨h₂.placed.wf, h₂.placed.scope.restore (hsaved.mono h₂.cells), h₂.placed.old⟩
    exact ⟨⟨hresolves, hresolves₂⟩, cells₂, BackEnd.Evaluates.declared h₁ h₂ hplaced rfl⟩

/-! ## Branches -/

/-- Behind the `scf.if` that the branch belongs to. -/
structure Left (n dst : Nat) (rest : List (Op D Name)) (around : List (Nat × List (Op D Name)))
    (cells : List Nat) (th : Thread D Name W) (y : D) (st : State D W) (th' : Thread D Name W) :
    Prop where
  todo : th'.todo = rest
  around : th'.around = around
  mem : st.Matches cells th'.env.cells th'.env.world th'.env.calls
  value : th'.env.floats dst = y
  kept : ∀ r < n, r ≠ dst → th'.env.floats r = th.env.floats r

/-- A branch ends in an `scf.yield`, and leads behind its `scf.if`. -/
theorem yields {ev : Thread D Name W → State D W → Value D W D} {val n : Nat}
    (h : (berlin ops callees).Performs t t₁ sc cells cells₁ ev (·.env.floats val))
    (hy : createOp (.yieldOp val) t₁ = .ok () t₂) (hn : t.builder.insertPoint = .atEnd n)
    {final : List Nat} {blocks : Nat → List (Op D Name)} (hfinal : cells₁ <+: final)
    (hnodup : final.Nodup) (hem : Emitted t.builder.blocks t₂.builder.blocks blocks)
    {th : Thread D Name W} {st : State D W}
    (hst : (berlin ops callees).Stands t.builder final blocks st th) {dst : Nat}
    {rest : List (Op D Name)} {around : List (Nat × List (Op D Name))}
    (haround : th.around = (dst, rest) :: around) :
    Follows (Thread.step ops callees blocks) ((berlin ops callees).Waits final blocks) th (ev th st)
      (Left t.builder.nextValue dst rest around final th) := by
  have hn₁ := h.grown.2.trans hn
  obtain rfl := createOp_pushed hy hn₁
  have hfirst := hem.first fun k => by
    show t₁.builder.blocks k <+: if k = n then t₁.builder.blocks k ++ [_] else t₁.builder.blocks k
    split
    · exact List.prefix_append _ _
    · exact List.prefix_rfl
  refine (h.follows final blocks hfinal hnodup hfirst th st hst).followed fun y st₁ th₁ hwent => ?_
  have htodo := hwent.stands.at_.fetch (hem.rest h.grown.1.prefix_) hn₁ (pushed_there n _ _)
  have hstep : th₁.step ops callees blocks =
      some ⟨th₁.env.setFloat dst (th₁.env.floats val), rest, around⟩ := by
    unfold Thread.step
    rw [htodo, hwent.kept.around, haround]
  refine ⟨_, .one hstep, rfl, rfl, hwent.stands.mem, ?_, fun r hr hne => ?_⟩
  · rw [← hwent.read]
    exact if_pos rfl
  · rw [← hwent.kept.floats r hr]
    exact if_neg hne

theorem BerlinState.Placed.moved (ht : t.Placed sc cells) {q : Nat} (hq : q < t.builder.nextBlock) :
    BerlinState.Placed { t with builder := t.builder.setInsertPoint (.atEnd q) } sc cells :=
  ⟨⟨⟨q, rfl, hq⟩, ht.wf.empty⟩, ht.scope, ht.old⟩

/-- The `scf.if` of `genIf`, where its flag has been generated. -/
def genBranches (i1 : Nat) (then_ else_ : BerlinGen D Nat) : BerlinGen D Nat := do
  let after ← getInsertPoint
  let thenBlock ← newBlock
  let elseBlock ← newBlock
  let result ← create (.ifOp · i1 thenBlock elseBlock)
  setInsertPoint (.atEnd thenBlock)
  let thenVal ← then_
  createOp (.yieldOp thenVal)
  setInsertPoint (.atEnd elseBlock)
  let elseVal ← else_
  createOp (.yieldOp elseVal)
  setInsertPoint after
  pure result

/-- At the beginning of a block into which nothing has been inserted. -/
theorem Stands.enter {n : Nat} (hn : t.builder.insertPoint = .atEnd n)
    (hempty : t.builder.blocks n = []) {blocks : Nat → List (Op D Name)} {env : Env D Name W}
    {st : State D W} (hmem : st.Matches cells env.cells env.world env.calls)
    (around : List (Nat × List (Op D Name))) :
    (berlin ops callees).Stands t.builder cells blocks st ⟨env, blocks n, around⟩ := by
  refine ⟨⟨n, hn, ?_⟩, hmem⟩
  rw [hempty]
  rfl

/-- Behind the `scf.if`, the thread is at the insertion point of the generator again. -/
theorem Left.went {p n dst : Nat} {op : Op D Name} (hat : t₁.builder.insertPoint = .atEnd p)
    (hcode : t₁.builder.blocks p = t.builder.blocks p ++ [op]) (hdst : dst = t.builder.nextValue)
    (hn : t.builder.nextValue ≤ n) {blocks : Nat → List (Op D Name)} {th th₁ th' : Thread D Name W}
    {y : D} {st : State D W}
    (h : Left n dst ((blocks p).drop ((t.builder.blocks p).length + 1)) th.around cells th₁
      y st th') (henv : th₁.env = th.env) :
    (berlin ops callees).Went t.builder t₁.builder cells blocks th (·.env.floats dst) y st th' := by
  refine ⟨⟨⟨p, hat, ?_⟩, h.mem⟩, h.value, ⟨fun r hr => ?_, h.around⟩⟩
  · rw [h.todo, hcode, List.length_append, List.length_singleton]
  · rw [← henv]
    exact h.kept r (Nat.lt_of_lt_of_le hr hn) (hdst ▸ Nat.ne_of_lt hr)

/-- How the generator has come through the branches, from state `s` on. -/
structure Branches (i1 : Nat) (then_ else_ : BerlinGen D Nat) (p : Nat) (s : BerlinState D)
    (v : Nat) (final : BerlinState D) where
  inThen : BerlinState D
  thenVal : Nat
  thenEnd : BerlinState D
  yielded : BerlinState D
  elseVal : Nat
  elseEnd : BerlinState D
  done : BerlinState D
  result : v = s.builder.nextValue
  enter : inThen = { s with
    builder := (created p (.ifOp · i1 s.builder.nextBlock (s.builder.nextBlock + 1))
      { s.builder with nextBlock := s.builder.nextBlock + 2 }).setInsertPoint
        (.atEnd s.builder.nextBlock) }
  genThen : then_ inThen = .ok thenVal thenEnd
  yieldThen : createOp (.yieldOp thenVal) thenEnd = .ok () yielded
  genElse : else_ { yielded with
    builder := yielded.builder.setInsertPoint (.atEnd (s.builder.nextBlock + 1)) } =
      .ok elseVal elseEnd
  yieldElse : createOp (.yieldOp elseVal) elseEnd = .ok () done
  final_ : final = { done with builder := done.builder.setInsertPoint (.atEnd p) }

theorem Branches.of_gen {i1 : Nat} {then_ else_ : BerlinGen D Nat} {p v : Nat} {s t : BerlinState D}
    (hp : s.builder.insertPoint = .atEnd p) (h : genBranches i1 then_ else_ s = .ok v t) :
    Nonempty (Branches i1 then_ else_ p s v t) := by
  obtain ⟨after, s₁, hafter, h⟩ := Gen.bind_ok h
  cases hafter
  obtain ⟨thenBlock, s₂, hblock, h⟩ := Gen.bind_ok h
  cases hblock
  obtain ⟨elseBlock, s₃, hblock, h⟩ := Gen.bind_ok h
  cases hblock
  obtain ⟨result, s₄, hresult, h⟩ := Gen.bind_ok h
  obtain ⟨rfl, rfl⟩ := create_created hresult hp
  obtain ⟨_, s₅, hset, h⟩ := Gen.bind_ok h
  cases hset
  obtain ⟨thenVal, s₆, hthen, h⟩ := Gen.bind_ok h
  obtain ⟨_, s₇, hyield, h⟩ := Gen.bind_ok h
  obtain ⟨_, s₈, hset, h⟩ := Gen.bind_ok h
  cases hset
  obtain ⟨elseVal, s₉, helse, h⟩ := Gen.bind_ok h
  obtain ⟨_, s₁₀, hyield', h⟩ := Gen.bind_ok h
  obtain ⟨_, s₁₁, hset, h⟩ := Gen.bind_ok h
  cases hset
  cases h
  rw [hp]
  exact ⟨⟨_, thenVal, s₆, s₇, elseVal, s₉, s₁₀, rfl, rfl, hthen, hyield, helse, hyield', rfl⟩⟩

theorem insert_pushed {p : Nat} (op : Op D Name) {b : OpBuilder D Name}
    (hp : b.insertPoint = .atEnd p) : b.insert op = some (pushed p op b) := by
  simp [OpBuilder.insert, hp, pushed]

namespace Branches

variable {i1 p v : Nat} {then_ else_ : BerlinGen D Nat} {t' : BerlinState D}
  (c : Branches i1 then_ else_ p t v t')

/-- Where the second branch begins. -/
def inElse : BerlinState D :=
  { c.yielded with builder := c.yielded.builder.setInsertPoint (.atEnd (t.builder.nextBlock + 1)) }

variable {c}

theorem inThen_grown (hp : t.builder.insertPoint = .atEnd p) (ht : t.Placed sc cells) :
    t.builder.Grown c.inThen.builder := by
  have hblocks := (((OpBuilder.Grown.refl ht.wf).newBlock).newBlock).newValue
  have hop := hblocks.insert_op (insert_pushed (.ifOp t.builder.nextValue i1
    t.builder.nextBlock (t.builder.nextBlock + 1)) hp)
  rw [c.enter]
  exact hop.setInsertPoint (.inr (Nat.le_refl _)) (Nat.lt_succ_of_lt (Nat.lt_succ_self _))

theorem inThen_placed (hp : t.builder.insertPoint = .atEnd p) (ht : t.Placed sc cells) :
    c.inThen.Placed sc cells := by
  have hgrown := inThen_grown (c := c) hp ht
  refine ⟨hgrown.wf, ?_, fun k hk => Nat.lt_of_lt_of_le (ht.old k hk) hgrown.values⟩
  rw [c.enter]
  exact ht.scope

/-- The block of the `if` has the operation, and those of the branches are empty. -/
theorem inThen_code (hp : t.builder.insertPoint = .atEnd p) (ht : t.Placed sc cells) :
    p < t.builder.nextBlock ∧
    c.inThen.builder.blocks p = t.builder.blocks p ++
      [.ifOp v i1 t.builder.nextBlock (t.builder.nextBlock + 1)] ∧
    c.inThen.builder.blocks t.builder.nextBlock = [] ∧
    c.inThen.builder.blocks (t.builder.nextBlock + 1) = [] := by
  obtain ⟨q, hq, hlt⟩ := ht.wf.insert
  rw [hp] at hq
  cases hq
  rw [c.enter, c.result]
  refine ⟨hlt, if_pos rfl, ?_, ?_⟩
  · exact (if_neg (Nat.ne_of_gt hlt)).trans (ht.wf.empty _ (Nat.le_refl _))
  · exact (if_neg (Nat.ne_of_gt (Nat.lt_succ_of_lt hlt))).trans (ht.wf.empty _ (Nat.le_succ _))

/-- The code of both branches has only been added. -/
theorem grown (hthen : c.inThen.builder.Grown c.thenEnd.builder)
    (helse : c.inElse.builder.Grown c.elseEnd.builder) :
    c.inThen.builder.Grown c.yielded.builder ∧ c.inElse.builder.Grown c.done.builder :=
  ⟨hthen.trans (createOp_extends _ _ () _ hthen.wf c.yieldThen).1.1,
    helse.trans (createOp_extends _ _ () _ helse.wf c.yieldElse).1.1⟩

theorem inElse_placed (hlt : t.builder.nextBlock + 1 < c.inThen.builder.nextBlock)
    (hthen : c.inThen.builder.Grown c.thenEnd.builder) (hend : c.thenEnd.Placed sc cells) :
    c.inElse.Placed sc cells := by
  have hyield := (createOp_extends _ _ () _ hthen.wf c.yieldThen).1.1
  have hlabels : c.inThen.builder.nextBlock ≤ c.yielded.builder.nextBlock :=
    (hthen.trans hyield).labels
  exact (hend.createOp c.yieldThen).moved (Nat.lt_of_lt_of_le hlt hlabels)

/-- The block of the `if` is not touched by its branches, nor the second one by the first. -/
theorem final_code (hp : t.builder.insertPoint = .atEnd p) (ht : t.Placed sc cells)
    (hthen : c.inThen.builder.Grown c.yielded.builder)
    (helse : c.inElse.builder.Grown c.done.builder) :
    t'.builder.blocks p = t.builder.blocks p ++
      [.ifOp v i1 t.builder.nextBlock (t.builder.nextBlock + 1)] ∧
    c.inElse.builder.blocks (t.builder.nextBlock + 1) = [] := by
  obtain ⟨hlt, hif, -, helseBlock⟩ := inThen_code (c := c) hp ht
  have hat : c.inThen.builder.insertPoint = .atEnd t.builder.nextBlock := by
    rw [c.enter]
    rfl
  have hlabels : c.inThen.builder.nextBlock = t.builder.nextBlock + 2 := by
    rw [c.enter]
    rfl
  have hfirst := hthen.untouched (k := p) (by omega) fun h => by
    have heq := InsertPoint.atEnd.inj (hat.symm.trans h)
    omega
  have hnext : c.inThen.builder.nextBlock ≤ c.inElse.builder.nextBlock := hthen.labels
  have hsecond := helse.untouched (k := p) (by omega) fun h => by
    have heq := InsertPoint.atEnd.inj h
    omega
  have hother := hthen.untouched (k := t.builder.nextBlock + 1) (by omega) fun h => by
    have heq := InsertPoint.atEnd.inj (hat.symm.trans h)
    omega
  have hblocks := congrArg (fun s : BerlinState D => s.builder.blocks p) c.final_
  exact ⟨hblocks.trans (hsecond.trans (hfirst.trans hif)), hother.trans helseBlock⟩

end Branches

theorem performs_branches {i1 p v : Nat} {then_ else_ : BerlinGen D Nat} {t' : BerlinState D}
    (c : Branches i1 then_ else_ p t v t') (hp : t.builder.insertPoint = .atEnd p)
    (ht : t.Placed sc cells) {f g : State D W → Value D W D}
    (hthen : (berlin ops callees).Performs c.inThen c.thenEnd sc₁ cells cells₁ (fun _ => f)
      (·.env.floats c.thenVal))
    (helse : (berlin ops callees).Performs c.inElse c.elseEnd sc₂ cells₁ cells₂ (fun _ => g)
      (·.env.floats c.elseVal)) :
    (berlin ops callees).Performs t t' sc₂ cells cells₂
      (fun th st => if th.env.flags i1 then f st else g st) (·.env.floats v) := by
  obtain ⟨hlt, -, hthenBlock, -⟩ := Branches.inThen_code (c := c) hp ht
  have henter := Branches.inThen_grown (c := c) hp ht
  obtain ⟨hinThen, hinElse⟩ := c.grown hthen.grown.1 helse.grown.1
  obtain ⟨hcode, helseBlock⟩ := c.final_code hp ht hinThen hinElse
  have hlabels : t.builder.nextBlock + 1 < c.inThen.builder.nextBlock := by
    rw [c.enter]
    exact Nat.lt_succ_self _
  have hto : t.builder.Grown c.inElse.builder :=
    (henter.trans hinThen).setInsertPoint (.inr (Nat.le_succ _))
      (Nat.lt_of_lt_of_le hlabels hinThen.labels)
  have hall := hto.trans hinElse
  have hdone : c.done.Placed sc₂ cells₂ := helse.placed.createOp c.yieldElse
  have hbuilder := congrArg BerlinState.builder c.final_
  have hat : t'.builder.insertPoint = .atEnd p := congrArg OpBuilder.insertPoint hbuilder
  have hgrown : t.builder.Grown t'.builder := by
    have hback := hall.back ht.wf
    rw [hp] at hback
    exact hbuilder ▸ hback
  refine ⟨⟨hgrown, hat.trans hp.symm⟩, hthen.cells.trans helse.cells, ?_, ?_⟩
  · rw [c.final_]
    exact hdone.moved (Nat.lt_of_lt_of_le hlt hall.labels)
  intro final blocks hfinal hnodup hem th st hst
  have hpush : t.builder.blocks p ++
    [Op.ifOp v i1 t.builder.nextBlock (t.builder.nextBlock + 1)] <+:
      t'.builder.blocks p := ⟨[], (List.append_nil _).trans hcode.symm⟩
  have htodo := hst.at_.fetch hem hp hpush
  have hstep : th.step ops callees blocks = some ⟨th.env,
      blocks (if th.env.flags i1 then t.builder.nextBlock else t.builder.nextBlock + 1),
      (v, (blocks p).drop ((t.builder.blocks p).length + 1)) :: th.around⟩ := by
    unfold Thread.step
    rw [htodo]
  refine Follows.after (.one hstep) ?_
  have hemDone : Emitted t.builder.blocks c.done.builder.blocks blocks := by
    have hblocks := congrArg OpBuilder.blocks hbuilder
    exact hblocks ▸ hem
  cases th.env.flags i1 with
  | true =>
    have hemThen := (hemDone.rest henter.prefix_).first hinElse.prefix_
    have hstart : c.inThen.builder.insertPoint = .atEnd t.builder.nextBlock := by
      rw [c.enter]
      rfl
    exact Follows.mono (yields hthen c.yieldThen hstart (helse.cells.trans hfinal) hnodup hemThen
      (Stands.enter hstart hthenBlock hst.mem _) rfl)
      fun y st₁ th₁ hleft => hleft.went hat hcode c.result henter.values rfl
  | false =>
    have hemElse := hemDone.rest hto.prefix_
    exact Follows.mono (yields helse c.yieldElse rfl hfinal hnodup hemElse
      (Stands.enter rfl helseBlock hst.mem _) rfl)
      fun y st₁ th₁ hleft => hleft.went hat hcode c.result hto.values rfl

theorem meant_if {cond then_ else_ : ExprAST D} (ihc : Meant ops callees cond)
    (iht : Meant ops callees then_) (ihe : Meant ops callees else_) :
    Meant ops callees (.ifExpr cond then_ else_) := by
  intro t v t' sc cells h ht
  rw [gen] at h
  obtain ⟨condVal, t₁, hcond, h⟩ := Gen.bind_ok h
  obtain ⟨zeroVal, t₂, hzero, h⟩ := Gen.bind_ok h
  obtain ⟨i1, t₃, hi1, h⟩ := Gen.bind_ok h
  obtain ⟨hresolves, cells₁, h₁⟩ := ihc t condVal t₁ sc cells hcond ht
  obtain ⟨-, hin⟩ := gen_extends ops.toFloatOps cond t condVal t₁ ht.wf hcond
  have h₂ := performs_zero ops callees hzero h₁.placed
  have h₃ := performs_cmpf ops callees hi1 h₂.placed
  obtain ⟨p, hp⟩ := h₃.placed.at_
  obtain ⟨c⟩ := Branches.of_gen hp h
  have hthen := Branches.inThen_placed (c := c) hp h₃.placed
  obtain ⟨hresolves₂, cells₂, h₄⟩ := iht _ _ _ _ cells₁ c.genThen hthen
  have hlabels : t₃.builder.nextBlock + 1 < c.inThen.builder.nextBlock := by
    rw [c.enter]
    exact Nat.lt_succ_self _
  obtain ⟨hresolves₃, cells₃, h₅⟩ := ihe _ _ _ _ cells₂ c.genElse
    (Branches.inElse_placed (c := c) hlabels h₄.grown.1 h₄.placed)
  refine ⟨⟨hresolves, hresolves₂, hresolves₃⟩, cells₃, ?_⟩
  have hflag := h₂.bind h₃ (k := fun th x st => .done (ops.une (th.env.floats condVal) x) st)
    fun th th₁ hkept st => by
      rw [← hkept.floats condVal hin]
      rfl
  exact BackEnd.Evaluates.branched h₁ hflag (performs_branches c hp h₃.placed h₄ h₅)

/-- Berlin's code for an expression without loops does what the expression means. -/
theorem meant_of_loopFree (hconv : ∀ b : Bool, ops.sitofp (if b then 1 else 0) = ops.uitofp b)
    (callees : Callees D Name W) (callable : Name → Bool) (e : ExprAST D)
    (hfree : loopFree callable e = true) : Meant ops callees e := by
  induction e using ExprAST.induction with
  | null =>
    intro t v t' sc cells h
    rw [gen] at h
    cases h
  | numberExpr val =>
    intro t v t' sc cells h ht
    rw [gen] at h
    refine ⟨trivial, cells, (performs_float ops callees h ht fun _ => rfl).congr fun th st => ?_⟩
    rw [eval]
  | variableExpr name => exact meant_variable name
  | unaryExpr op operand ih =>
    rw [loopFree] at hfree
    exact meant_unary (ih hfree)
  | binaryExpr op lhs rhs ihl ihr =>
    rw [loopFree, Bool.and_eq_true] at hfree
    exact meant_binary hconv (ihl hfree.1) (ihr hfree.2)
  | callExpr callee args ih =>
    rw [loopFree, Bool.and_eq_true, loopFreeArgs_iff] at hfree
    exact meant_call fun a ha => ih a ha (hfree.2 a ha)
  | ifExpr cond then_ else_ ihc iht ihe =>
    rw [loopFree, Bool.and_eq_true, Bool.and_eq_true] at hfree
    exact meant_if (ihc hfree.1.1) (iht hfree.1.2) (ihe hfree.2)
  | forExpr varName start end_ step body _ _ _ _ => cases hfree
  | varExpr varNames body ihs ih =>
    rw [loopFree, Bool.and_eq_true, loopFreeBindings_iff] at hfree
    exact meant_var (fun b hb => ihs b hb (hfree.1 b hb)) (ih hfree.2)

end

end AroundTheWorld.Berlin
