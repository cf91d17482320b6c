import AroundTheWorld.Berlin.Regions

/-!
# The iterations of Berlin's loops

In front of its `scf.for` a loop converts its bounds and its step, and its body begins by
storing the loop variable. Between two iterations an activation has the locals of the
evaluation in their cells, and the frame of the loop has the next value of the counter.
-/

namespace AroundTheWorld.Berlin

open AroundTheWorld.Base AroundTheWorld.Lex AroundTheWorld.Mlir AroundTheWorld.Counted
open AroundTheWorld.Athens (ExprAST Name noRepeat)
open AroundTheWorld.Llvm (IntOps FloatOps Callees)

variable {D W : Type}

/-- How the generator has come through a loop, from `t` in front of the conversions on. -/
structure LoopCode (ops : IntOps D) (varName : Name) (startF64 endF64 stepF64 : Nat)
    (body : BerlinGen D Nat) (p : Nat) (t : BerlinState D) (v : Nat) (t' : BerlinState D) where
  bodyVal : Nat
  bodyEnd : BerlinState D
  genBody : body { t with
    builder := enterFor p startF64 endF64 stepF64 t.builder
    namedValues := fun k => if k = varName then some (t.builder.nextValue + 9) else
      t.namedValues k } =
      .ok bodyVal bodyEnd
  result : v = bodyEnd.builder.nextValue
  final : t' = { bodyEnd with
    builder := created p (.constant · ops.zero) (bodyEnd.builder.setInsertPoint (.atEnd p))
    namedValues := fun k => if k = varName then t.namedValues varName else bodyEnd.namedValues k }

section
variable {ops : IntOps D} {callees : Callees D Name W} {N : Nat} {varName : Name}
  {startF64 endF64 stepF64 p v : Nat} {t t' : BerlinState D} {scope : List (Name × Nat)}

theorem LoopCode.of_gen {body : BerlinGen D Nat} (hp : t.builder.insertPoint = .atEnd p)
    (h : genLoop ops.toFloatOps varName startF64 endF64 stepF64 body t = .ok v t') :
    Nonempty (LoopCode ops varName startF64 endF64 stepF64 body p t v t') := by
  rw [genLoop_run ops varName _ _ _ _ hp] at h
  have hrun := h
  obtain ⟨saved, s₁, hsaved, h⟩ := Gen.bind_ok h
  cases hsaved
  obtain ⟨_, s₂, hbind, h⟩ := Gen.bind_ok h
  cases hbind
  obtain ⟨bodyVal, s₃, hbody, h⟩ := Gen.bind_ok h
  cases bodyVal with
  | none =>
    obtain ⟨_, s₄, hbind, h⟩ := Gen.bind_ok h
    cases hbind
    cases h
  | some bodyVal =>
    have hgen := Gen.attempt_some hbody
    rw [forBody_run hgen] at hrun
    cases hrun
    exact ⟨⟨bodyVal, s₃, hgen, rfl, rfl⟩⟩

/-! ## The operations in front of a loop and of its body -/

/-- The values behind the conversions. -/
def converted (ops : IntOps D) (n startF64 endF64 stepF64 : Nat) (env : Env D Name W) :
    Env D Name W :=
  let env := env.setInt n (ops.fptosi (env.floats startF64))
  let env := env.setInt (n + 1) (ops.fptosi (env.floats endF64))
  let env := env.setInt (n + 2) (ops.fptosi (env.floats stepF64))
  let env := env.setInt (n + 3) (env.ints n)
  let env := env.setInt (n + 4) (env.ints (n + 1))
  env.setInt (n + 5) (env.ints (n + 2))

theorem conversions_run (n startF64 endF64 stepF64 : Nat) (env : Env D Name W) :
    (conversions n startF64 endF64 stepF64).foldlM (fun env op => op.run ops callees env) env =
      some (converted ops n startF64 endF64 stepF64 env) := rfl

theorem converted_ints (ops : IntOps D) (n startF64 endF64 stepF64 : Nat) (env : Env D Name W) :
    (converted ops n startF64 endF64 stepF64 env).ints (n + 3) = ops.fptosi (env.floats startF64) ∧
    (converted ops n startF64 endF64 stepF64 env).ints (n + 4) = ops.fptosi (env.floats endF64) ∧
    (converted ops n startF64 endF64 stepF64 env).ints (n + 5) =
      ops.fptosi (env.floats stepF64) := by
  simp [converted, Env.setInt]

theorem converted_below (ops : IntOps D) (n startF64 endF64 stepF64 : Nat) (env : Env D Name W) :
    Env.Below n env (converted ops n startF64 endF64 stepF64 env) where
  floats _ _ := rfl
  flags _ _ := rfl
  ints r hr := by
    have h₀ : r ≠ n := by omega
    have h₁ : r ≠ n + 1 := by omega
    have h₂ : r ≠ n + 2 := by omega
    have h₃ : r ≠ n + 3 := by omega
    have h₄ : r ≠ n + 4 := by omega
    have h₅ : r ≠ n + 5 := by omega
    simp [converted, Env.setInt, h₀, h₁, h₂, h₃, h₄, h₅]

/-- The values where the loop variable has been stored. -/
def entered (ops : IntOps D) (n : Nat) (env : Env D Name W) : Env D Name W :=
  let env := env.setInt (n + 7) (env.ints (n + 6))
  let env := env.setFloat (n + 8) (ops.sitofp (env.ints (n + 7)))
  env.setCell (n + 9) (env.floats (n + 8))

theorem bodyHead_run (n : Nat) (env : Env D Name W) :
    (bodyHead n).foldlM (fun env op => op.run ops callees env) env = some (entered ops n env) := rfl

theorem entered_cells (ops : IntOps D) (n : Nat) (env : Env D Name W) : (entered ops n env).cells =
    fun j => if j = n + 9 then ops.sitofp (env.ints (n + 6)) else env.cells j := by
  simp [entered, Env.setInt, Env.setFloat, Env.setCell]

theorem entered_below (ops : IntOps D) (n : Nat) (env : Env D Name W) :
    Env.Below n env (entered ops n env) where
  floats r hr := by
    have hne : r ≠ n + 8 := by omega
    simp [entered, Env.setInt, Env.setFloat, Env.setCell, hne]
  flags _ _ := rfl
  ints r hr := by
    have hne : r ≠ n + 7 := by omega
    simp [entered, Env.setInt, Env.setFloat, Env.setCell, hne]

namespace LoopCode

variable {body : BerlinGen D Nat} (c : LoopCode ops varName startF64 endF64 stepF64 body p t v t')

/-- The generator where the body begins. -/
def start (_ : LoopCode ops varName startF64 endF64 stepF64 body p t v t') : BerlinState D :=
  { t with
    builder := enterFor p startF64 endF64 stepF64 t.builder
    namedValues := fun k => if k = varName then some (t.builder.nextValue + 9) else
      t.namedValues k }

theorem start_ready (hp : t.builder.insertPoint = .atEnd p) (ht : Ready ops callees t scope) :
    Ready ops callees c.start ((varName, t.builder.nextValue + 9) :: scope) := by
  have hfresh : ∀ b ∈ scope, b.2 ≠ t.builder.nextValue + 9 := by
    intro b hb
    have hlt : b.2 < t.builder.nextValue := ht.has b hb
    omega
  have hvalues : (enterFor p startF64 endF64 stepF64 t.builder).nextValue =
      t.builder.nextValue + 10 :=
    rfl
  have hmoved : Ready ops callees
      { t with builder := enterFor p startF64 endF64 stepF64 t.builder } scope :=
    ⟨enterFor_wf ht.wf hp, ht.names, ht.distinct,
      fun b hb => Nat.lt_of_lt_of_le (ht.has b hb) (Nat.le_add_right _ 10)⟩
  exact hmoved.push rfl (fun _ => rfl) (Nat.lt_succ_self _) hfresh

/-- What stands in the finished code. -/
structure Laid : Prop where
  bodyLeft : Leaves c.start.builder.nextBlock c.bodyEnd.builder t'.builder
  here : t'.builder.blocks p = t.builder.blocks p ++
    (conversions t.builder.nextValue startF64 endF64 stepF64 ++
      [.forOp (t.builder.nextValue + 3) (t.builder.nextValue + 4) (t.builder.nextValue + 5)
        (t.builder.nextValue + 6) t.builder.nextBlock, .constant v ops.zero])
  body : t'.builder.blocks t.builder.nextBlock = c.bodyEnd.builder.blocks t.builder.nextBlock
  head : c.start.builder.blocks t.builder.nextBlock = bodyHead t.builder.nextValue

theorem laid (hp : t.builder.insertPoint = .atEnd p) (hwf : t.builder.Wf)
    (hbody : Spans c.start.builder c.bodyEnd.builder) : c.Laid := by
  obtain ⟨q, hq, hlt⟩ := hwf.insert
  obtain rfl : q = p := InsertPoint.atEnd.inj (hq.symm.trans hp)
  have hne : q ≠ t.builder.nextBlock := Nat.ne_of_lt hlt
  have hlabels : c.start.builder.nextBlock = t.builder.nextBlock + 1 := rfl
  have hfinal : t'.builder =
      created q (.constant · ops.zero) (c.bodyEnd.builder.setInsertPoint (.atEnd q)) :=
    congrArg BerlinState.builder c.final
  have huntouched : c.bodyEnd.builder.blocks q = c.start.builder.blocks q := by
    refine hbody.grown.untouched (by omega) fun h => hne ?_
    exact (InsertPoint.atEnd.inj h).symm
  constructor
  · rw [hfinal]
    have hmoved : Leaves c.start.builder.nextBlock c.bodyEnd.builder
        (c.bodyEnd.builder.setInsertPoint (.atEnd q)) := .moved _
    exact hmoved.trans (.created (by omega) _ _)
  · rw [hfinal]
    refine (pushed_blocks q _ _).trans ?_
    show c.bodyEnd.builder.blocks q ++ [.constant c.bodyEnd.builder.nextValue ops.zero] = _
    rw [← c.result, huntouched]
    show (enterFor q startF64 endF64 stepF64 t.builder).blocks q ++ _ = _
    rw [enterFor_here hne, List.append_assoc, List.append_assoc]
    rfl
  · rw [hfinal]
    exact if_neg hne.symm
  · show (enterFor q startF64 endF64 stepF64 t.builder).blocks _ = _
    rw [enterFor_body hne, hwf.empty _ (Nat.le_refl _), List.nil_append]

end LoopCode

/-! ## Iterations -/

/-- An activation between two iterations, or behind the last one: `x` says whether there is
another, the counter, and the state of the evaluation. -/
structure Between (ops : IntOps D) (callees : Callees D Name W) (scope : List (Name × Nat))
    (n body : Nat) (ub step : Int) (code rest : List (Op D Name)) (a₀ : Activation D Name W)
    (x : Bool × Int × State D W) (a : Activation D Name W) : Prop where
  todo : a.todo = if x.1 then code else rest
  frames : a.frames =
    if x.1 then .loop (n + 6) (x.2.1 + step) ub step body rest :: a₀.frames else a₀.frames
  counter : x.1 = true → a.env.ints (n + 6) = x.2.1
  agrees : (target ops callees).Agrees scope x.2.2 a
  values : Env.Below n a₀.env a.env

section
variable {n body : Nat} {ub step : Int} {rest : List (Op D Name)} {a₀ : Activation D Name W}
  {blocks : Nat → List (Op D Name)}

/-- At the end of the body, and in front of the first iteration. -/
theorem Between.test {next : Int} {st : State D W} {a : Activation D Name W} (htodo : a.todo = [])
    (hframes : a.frames = .loop (n + 6) next ub step body rest :: a₀.frames)
    (hst : (target ops callees).Agrees scope st a) (hvalues : Env.Below n a₀.env a.env) :
    ∃ a', a.step ops callees blocks = some a' ∧
      Between ops callees scope n body ub step (blocks body) rest a₀ (decide (next < ub), next, st)
        a' := by
  refine ⟨_, Activation.step_loop htodo hframes, ?_⟩
  by_cases hlt : next < ub
  · rw [if_pos hlt, decide_eq_true hlt]
    refine ⟨rfl, rfl, fun _ => if_pos rfl, hst.same (fun _ _ => rfl) rfl rfl, ?_⟩
    exact hvalues.trans (Nat.le_refl n) (.setInt (by omega) a.env next)
  · rw [if_neg hlt, decide_eq_false hlt]
    exact ⟨rfl, rfl, fun h => absurd h Bool.false_ne_true, hst.same (fun _ _ => rfl) rfl rfl,
      hvalues⟩

end

/-- The body of a loop, from the store of the loop variable on. -/
theorem simulates_iteration {body : ExprAST D}
    (c : LoopCode ops varName startF64 endF64 stepF64 (gen ops.toFloatOps body) p t v t')
    (hp : t.builder.insertPoint = .atEnd p) (ht : Ready ops callees t scope)
    (hbody : Computes ops callees N c.start c.bodyEnd
      ((varName, t.builder.nextValue + 9) :: scope) ((varName, t.builder.nextValue + 9) :: scope)
      (fun _ => eval (dialect ops callees) N body) (·.env.floats c.bodyVal))
    {blocks : Nat → List (Op D Name)} (hwithin : Within blocks t.builder t'.builder)
    (hlabels : t.builder.nextBlock < t'.builder.nextBlock) {ub step i : Int}
    {rest : List (Op D Name)} {a₀ a : Activation D Name W} {st : State D W}
    (h : Between ops callees scope t.builder.nextValue t.builder.nextBlock ub step
      (blocks t.builder.nextBlock) rest a₀ (true, i, st) a) :
    Simulates (Activation.step ops callees blocks) N (Activation.Blocked callees) a
      (iteration (dialect ops callees) varName ub step (eval (dialect ops callees) N body) (i, st))
      (fun y a' => ∃ a'', a'.step ops callees blocks = some a'' ∧
        Between ops callees scope t.builder.nextValue t.builder.nextBlock ub step
          (blocks t.builder.nextBlock) rest a₀ y a'') := by
  have hlaid := c.laid hp ht.wf hbody.grown.2
  have hcode : Within blocks c.start.builder c.bodyEnd.builder :=
    hwithin.region (Nat.le_succ _) hlaid.bodyLeft
  have hblock : blocks t.builder.nextBlock = c.bodyEnd.builder.blocks t.builder.nextBlock :=
    (hwithin.finished _ (Nat.le_refl _) hlabels).trans hlaid.body
  have hthere : c.start.builder.blocks t.builder.nextBlock <+:
      c.bodyEnd.builder.blocks t.builder.nextBlock := hbody.grown.2.grown.prefix_ _
  obtain ⟨more, hmore⟩ := hthere
  have hstarts : bodyHead t.builder.nextValue ++ more = blocks t.builder.nextBlock := by
    rw [hblock, ← hmore, hlaid.head]
  obtain ⟨env, todo, frames⟩ := a
  obtain ⟨htodo, hframes, hcounter, hst, hvalues⟩ := h
  obtain rfl : todo = blocks t.builder.nextBlock := htodo
  have hcounter : env.ints (t.builder.nextValue + 6) = i := hcounter rfl
  have hreach :
    Reaches (Activation.step ops callees blocks) ⟨env, blocks t.builder.nextBlock, frames⟩
      ⟨entered ops t.builder.nextValue env, more, frames⟩ := by
    rw [← hstarts]
    exact Activation.reaches_runs (bodyHead_run t.builder.nextValue env)
  have hat : At blocks c.start.builder
      (⟨entered ops t.builder.nextValue env, more, frames⟩ : Activation D Name W) := by
    refine ⟨t.builder.nextBlock, rfl, ?_⟩
    rw [hlaid.head, ← hstarts, List.drop_left]
  have hfresh : ∀ b ∈ scope, b.2 ≠ t.builder.nextValue + 9 := by
    intro b hb
    have hlt : b.2 < t.builder.nextValue := ht.has b hb
    omega
  have hcells := entered_cells ops t.builder.nextValue env
  rw [hcounter] at hcells
  have hst' : (target ops callees).Agrees ((varName, t.builder.nextValue + 9) :: scope)
      (st.push varName (ops.sitofp i)) ⟨entered ops t.builder.nextValue env, more, frames⟩ :=
    hst.push hfresh hcells rfl rfl
  refine Simulates.after hreach ((hbody.simulates blocks hcode _ _ hat hst').map ?_)
  intro r a' hwent
  have hkept : Kept c.start.builder ⟨entered ops t.builder.nextValue env, more, frames⟩ a' :=
    hwent.kept
  have hat' : At blocks c.bodyEnd.builder a' := hwent.at_
  obtain ⟨q, hq, htodo'⟩ := hat'
  obtain rfl : t.builder.nextBlock = q :=
    InsertPoint.atEnd.inj (hbody.grown.2.insert.symm.trans hq)
  rw [hblock, List.drop_length] at htodo'
  have hvalues' : Env.Below t.builder.nextValue a₀.env a'.env :=
    (hvalues.trans (Nat.le_refl _) (entered_below ops t.builder.nextValue env)).trans
      (Nat.le_add_right _ 10) hkept.values
  have hinner : (target ops callees).Agrees ([(varName, t.builder.nextValue + 9)] ++ scope)
      r.2 a' :=
    hwent.agrees
  have hpop : (target ops callees).Agrees scope (r.2.pop 1) a' := hinner.pop
  exact Between.test htodo' (hkept.frames.trans hframes) hpop hvalues'

/-- `genLoop`, behind the bounds and the step. -/
theorem computes_loop {body : ExprAST D} (hbody : Preserved ops callees N body)
    (hrep : noRepeat body = true)
    (h : genLoop ops.toFloatOps varName startF64 endF64 stepF64 (gen ops.toFloatOps body) t =
      .ok v t') (ht : Ready ops callees t scope) :
    Computes ops callees N t t' scope scope
      (fun a st => (loop (dialect ops callees) N varName (ops.fptosi (a.env.floats startF64))
        (ops.fptosi (a.env.floats endF64)) (ops.fptosi (a.env.floats stepF64))
        (eval (dialect ops callees) N body) st).map fun st => (ops.zero, st)) (·.env.floats v) := by
  obtain ⟨p, hp, -⟩ := ht.wf.insert
  obtain ⟨c⟩ := LoopCode.of_gen hp h
  have hstart := c.start_ready hp ht
  have hcompiled := hbody c.start c.bodyVal c.bodyEnd _ c.genBody hrep hstart
  have hlaid := c.laid hp ht.wf hcompiled.grown.2
  obtain ⟨⟨hgrown, hinsert⟩, hvalue⟩ := genLoop_extends varName startF64 endF64 stepF64
    (gen_extends ops.toFloatOps body) t v t' ht.wf h
  have hready : Ready ops callees t' scope := by
    refine ht.spans ⟨hgrown, hinsert⟩ fun x k hx => ?_
    rw [c.final] at hx
    by_cases hxv : x = varName
    · subst hxv
      exact ht.names x k ((if_pos rfl).symm.trans hx)
    · have hlookup := hcompiled.ready.names x k ((if_neg hxv).symm.trans hx)
      have hbeq : (x == varName) = false := beq_eq_false_iff_ne.mpr hxv
      rwa [List.lookup_cons, hbeq] at hlookup
  have hlabels : t.builder.nextBlock < t'.builder.nextBlock := by
    have hle := hlaid.bodyLeft.labels
    have hle' : c.start.builder.nextBlock ≤ c.bodyEnd.builder.nextBlock :=
      hcompiled.grown.2.grown.labels
    exact Nat.lt_of_lt_of_le (Nat.lt_succ_self _) (Nat.le_trans hle' hle)
  constructor
  · exact ⟨ht.wf, hgrown, hinsert⟩
  · exact hready
  · exact fun a a' hkept => hkept.values.floats v hvalue
  intro blocks hwithin a st hat hst
  have hwithin : Within blocks t.builder t'.builder := hwithin
  -- the conversions and the operation itself
  obtain ⟨more, hmore⟩ := hwithin.there p
  obtain ⟨env, todo, frames⟩ := a
  obtain ⟨q, hq, htodo⟩ : At blocks t.builder (⟨env, todo, frames⟩ : Activation D Name W) := hat
  obtain rfl : p = q := InsertPoint.atEnd.inj (hp.symm.trans hq)
  have htodo : todo = (blocks p).drop (t.builder.blocks p).length := htodo
  rw [← hmore, hlaid.here, List.append_assoc, List.drop_left, List.append_assoc] at htodo
  subst htodo
  let n := t.builder.nextValue
  let env₁ := converted ops n startF64 endF64 stepF64 env
  obtain ⟨hlb, hub, hstep⟩ := converted_ints ops n startF64 endF64 stepF64 env
  let head : Activation D Name W := ⟨env₁, [], .loop (n + 6) (env₁.ints (n + 3)) (env₁.ints (n + 4))
    (env₁.ints (n + 5)) t.builder.nextBlock (.constant v ops.zero :: more) :: frames⟩
  have hreach : Reaches (Activation.step ops callees blocks)
      ⟨env, conversions n startF64 endF64 stepF64 ++ (.forOp (n + 3) (n + 4) (n + 5) (n + 6)
        t.builder.nextBlock :: .constant v ops.zero :: more), frames⟩ head :=
    (Activation.reaches_runs (conversions_run n startF64 endF64 stepF64 env)).trans
      (Reaches.one (Activation.step_for rfl))
  have hbelow : Env.Below n env env₁ := converted_below ops n startF64 endF64 stepF64 env
  -- the first test, and the iterations
  obtain ⟨a₁, htest, hbetween⟩ : ∃ a₁, head.step ops callees blocks = some a₁ ∧
      Between ops callees scope n t.builder.nextBlock (env₁.ints (n + 4)) (env₁.ints (n + 5))
        (blocks t.builder.nextBlock) (.constant v ops.zero :: more) ⟨env, [], frames⟩
        (decide (env₁.ints (n + 3) < env₁.ints (n + 4)), env₁.ints (n + 3), st) a₁ :=
    Between.test rfl rfl (hst.same (fun _ _ => rfl) rfl rfl) hbelow
  rw [hlb, hub, hstep] at hbetween
  have hiterations :
    Simulates (Activation.step ops callees blocks) N (Activation.Blocked callees) a₁
      (whileLoop (fun x => x.1) (fun x => iteration (dialect ops callees) varName
        (ops.fptosi (env.floats endF64)) (ops.fptosi (env.floats stepF64))
        (eval (dialect ops callees) N body) x.2) N
        (decide (ops.fptosi (env.floats startF64) < ops.fptosi (env.floats endF64)),
          ops.fptosi (env.floats startF64), st))
      (fun x a => Between ops callees scope n t.builder.nextBlock (ops.fptosi (env.floats endF64))
        (ops.fptosi (env.floats stepF64)) (blocks t.builder.nextBlock)
        (.constant v ops.zero :: more)
        ⟨env, [], frames⟩ x a ∧ x.1 = false) := by
    refine Simulates.whileLoop ?_ N (Nat.le_refl N) _ a₁ hbetween
    intro x a hgo hx
    obtain ⟨go, i, st⟩ := x
    obtain rfl : go = true := hgo
    exact simulates_iteration c hp ht hcompiled hwithin hlabels hx
  refine Simulates.after (hreach.trans (Reaches.one htest)) ?_
  show Simulates _ _ _ _ (Option.map _ (Option.map _ _)) _
  rw [Option.map_map]
  refine hiterations.map_followed fun x a hx => ?_
  obtain ⟨hx, hdone⟩ := hx
  obtain ⟨go, i, st'⟩ := x
  obtain rfl : go = false := hdone
  -- the value of the loop
  have hlast : a.step ops callees blocks = some ⟨a.env.setFloat v ops.zero, more, a.frames⟩ :=
    Activation.step_of_run hx.todo rfl
  refine ⟨_, Reaches.one hlast, ⟨p, hinsert.trans hp, ?_⟩, hx.agrees.same (fun _ _ => rfl) rfl rfl,
    if_pos rfl, ?_, hx.frames⟩
  · show more = (blocks p).drop (t'.builder.blocks p).length
    rw [← hmore, List.drop_left]
  · have hle : n ≤ v := by
      have hvalues : c.start.builder.nextValue ≤ c.bodyEnd.builder.nextValue :=
        hcompiled.grown.2.grown.values
      have hfirst : c.start.builder.nextValue = n + 10 := rfl
      have hv := c.result
      omega
    exact hx.values.trans (Nat.le_refl n) (.setFloat hle a.env ops.zero)

/-- The step of a loop. -/
theorem computes_step {step : ExprAST D} (ih : Preserved ops callees N step)
    (hrep : noRepeat step = true) {t₁ : BerlinState D}
    (h : (if step.isNull then create (.constant · ops.unit) else gen ops.toFloatOps step) t =
      .ok v t₁) (ht : Ready ops callees t scope) : Computes ops callees N t t₁ scope scope
      (fun _ st => if step.isNull then some (ops.unit, st) else
        eval (dialect ops callees) N step st)
      (·.env.floats v) := by
  split at h
  case isTrue hnull => exact (computes_float h ht fun _ => rfl).congr fun a st => if_pos hnull
  case isFalse hnull => exact (ih t v t₁ scope h hrep ht).congr fun a st => if_neg hnull

theorem preserved_for {start end_ step body : ExprAST D} (ihStart : Preserved ops callees N start)
    (ihEnd : Preserved ops callees N end_) (ihStep : Preserved ops callees N step)
    (ihBody : Preserved ops callees N body) :
    Preserved ops callees N (.forExpr varName start end_ step body) := by
  intro t v t' scope h hrep ht
  simp only [noRepeat, Bool.and_eq_true] at hrep
  obtain ⟨⟨⟨hrepStart, hrepEnd⟩, hrepStep⟩, hrepBody⟩ := hrep
  rw [gen] at h
  obtain ⟨startVal, t₁, hstart, h⟩ := Gen.bind_ok h
  obtain ⟨endVal, t₂, hend, h⟩ := Gen.bind_ok h
  cases startVal with
  | none => cases h
  | some startVal =>
    cases endVal with
    | none => cases h
    | some endVal =>
      obtain ⟨stepVal, t₃, hstep, h⟩ := Gen.bind_ok h
      have hstart := Gen.attempt_some hstart
      have hend := Gen.attempt_some hend
      have h₁ := ihStart t startVal t₁ scope hstart hrepStart ht
      have h₂ := ihEnd t₁ endVal t₂ scope hend hrepEnd h₁.ready
      have h₃ := computes_step ihStep hrepStep hstep h₂.ready
      have h₄ := computes_loop ihBody hrepBody h h₃.ready
      obtain ⟨-, hinStart⟩ := gen_extends ops.toFloatOps start t startVal t₁ ht.wf hstart
      obtain ⟨-, hinEnd⟩ := gen_extends ops.toFloatOps end_ t₁ endVal t₂ h₁.ready.wf hend
      have hinStart₂ : startVal < t₂.builder.nextValue :=
        Nat.lt_of_lt_of_le hinStart h₂.grown.2.grown.values
      -- the bounds have survived the code behind them
      have hlast := h₃.bind h₄ (k := fun a z st => (loop (dialect ops callees) N varName
        (ops.fptosi (a.env.floats startVal)) (ops.fptosi (a.env.floats endVal)) (ops.fptosi z)
        (eval (dialect ops callees) N body) st).map fun st => (ops.zero, st))
        fun a a₁ hkept st => by
          rw [← hkept.values.floats startVal hinStart₂, ← hkept.values.floats endVal hinEnd]
      have hrest := h₂.bind hlast (k := fun a y st =>
        (if step.isNull then some (ops.unit, st) else eval (dialect ops callees) N step st).bind
          fun z => (loop (dialect ops callees) N varName (ops.fptosi (a.env.floats startVal))
            (ops.fptosi y) (ops.fptosi z.1) (eval (dialect ops callees) N body) z.2).map
              fun st => (ops.zero, st))
        fun a a₁ hkept st => by rw [← hkept.values.floats startVal hinStart]
      refine (h₁.bind hrest (k := fun _ x st => (eval (dialect ops callees) N end_ st).bind fun y =>
        (if step.isNull then some (ops.unit, y.2) else eval (dialect ops callees) N step y.2).bind
          fun z => (loop (dialect ops callees) N varName (ops.fptosi x) (ops.fptosi y.1)
            (ops.fptosi z.1) (eval (dialect ops callees) N body) z.2).map fun st => (ops.zero, st))
        fun _ _ _ _ => rfl).congr fun a st => ?_
      rw [eval]
      rfl

/-- Berlin's code for an expression does what the expression means, whatever loops and
branches are in it. -/
theorem preserved (hconv : ∀ b : Bool, ops.sitofp (if b then 1 else 0) = ops.uitofp b)
    (e : ExprAST D) : Preserved ops callees N e := by
  induction e using ExprAST.induction with
  | null =>
    intro t v t' scope h
    rw [gen] at h
    cases h
  | numberExpr val =>
    intro t v t' scope h _ ht
    rw [gen] at h
    refine (computes_float h ht fun _ => rfl).congr fun a st => ?_
    rw [eval]
  | variableExpr name => exact preserved_variable name
  | unaryExpr op operand ih => exact preserved_unary ih
  | binaryExpr op lhs rhs ihl ihr => exact preserved_binary hconv ihl ihr
  | callExpr callee args ih => exact preserved_call ih
  | ifExpr cond then_ else_ ihc iht ihe => exact preserved_if ihc iht ihe
  | forExpr varName start end_ step body ihStart ihEnd ihStep ihBody =>
    exact preserved_for ihStart ihEnd ihStep ihBody
  | varExpr varNames body ihs ih => exact preserved_var ihs ih

end

end AroundTheWorld.Berlin
