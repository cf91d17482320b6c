import AroundTheWorld.Berlin.Compiled

/-!
# The regions of Berlin's operations

The branches of an `scf.if` and the body of an `scf.for` are blocks of their own. What is
generated after a region leaves the blocks alone that were begun in it, so that a region is
in the finished code as it was when its generation ended.
-/

namespace AroundTheWorld.Berlin

open AroundTheWorld.Base AroundTheWorld.Lex AroundTheWorld.Mlir AroundTheWorld.Counted
open AroundTheWorld.Athens (ExprAST Name noRepeat noRepeatVar noRepeatArgs_iff)
open AroundTheWorld.Llvm (IntOps FloatOps Callees)

variable {D W : Type}

/-- From `b` to `b'`, what was begun in `b` from block `m` on has been left alone. -/
structure Leaves (m : Nat) (b b' : OpBuilder D Name) : Prop where
  there : ∀ k, b.blocks k <+: b'.blocks k
  labels : b.nextBlock ≤ b'.nextBlock
  same : ∀ k, m ≤ k → k < b.nextBlock → b'.blocks k = b.blocks k

namespace Leaves

variable {m : Nat} {b b' b'' : OpBuilder D Name}

theorem trans (h : Leaves m b b') (h' : Leaves m b' b'') : Leaves m b b'' where
  there k := (h.there k).trans (h'.there k)
  labels := Nat.le_trans h.labels h'.labels
  same k hle hlt := (h'.same k hle (Nat.lt_of_lt_of_le hlt h.labels)).trans (h.same k hle hlt)

theorem moved (p : InsertPoint) : Leaves m b (b.setInsertPoint p) :=
  ⟨fun _ => List.prefix_rfl, Nat.le_refl _, fun _ _ _ => rfl⟩

theorem pushed {q : Nat} (hq : q < m) (op : Op D Name) (b : OpBuilder D Name) :
    Leaves m b (pushed q op b) where
  there k := by
    show b.blocks k <+: if k = q then b.blocks k ++ [op] else b.blocks k
    split
    · exact List.prefix_append _ _
    · exact List.prefix_rfl
  labels := Nat.le_refl _
  same k hle _ := if_neg (by omega)

theorem created {q : Nat} (hq : q < m) (op : Nat → Op D Name) (b : OpBuilder D Name) :
    Leaves m b (created q op b) :=
  have h := pushed hq (op b.nextValue) { b with nextValue := b.nextValue + 1 }
  ⟨h.there, h.labels, h.same⟩

theorem spans {q : Nat} (hq : q < m) (hat : b.insertPoint = .atEnd q) (h : Spans b b') :
    Leaves m b b' where
  there := h.grown.prefix_
  labels := h.grown.labels
  same k hle hlt := by
    apply h.grown.untouched hlt
    intro hk
    have heq := InsertPoint.atEnd.inj (hat.symm.trans hk)
    omega

end Leaves

/-- A region has the code that has been generated for it. -/
theorem Within.region {blocks : Nat → List (Op D Name)} {b b' b₁ b₂ : OpBuilder D Name}
    (h : Within blocks b b') (hle : b.nextBlock ≤ b₁.nextBlock)
    (hleaves : Leaves b₁.nextBlock b₂ b') : Within blocks b₁ b₂ where
  there k := (hleaves.there k).trans (h.there k)
  finished k hk hlt := by
    rw [h.finished k (Nat.le_trans hle hk) (Nat.lt_of_lt_of_le hlt hleaves.labels)]
    exact hleaves.same k hk hlt

section
variable {ops : IntOps D} {callees : Callees D Name W} {N : Nat} {t t' t₁ t₂ : BerlinState D}
  {scope : List (Name × Nat)}

/-! ## Branches -/

/-- Behind the `scf.if` that a branch belongs to. -/
structure Merged (ops : IntOps D) (callees : Callees D Name W) (n dst : Nat)
    (rest : List (Op D Name)) (frames : List (Frame D Name)) (scope : List (Name × Nat))
    (env : Env D Name W) (r : D × State D W) (a : Activation D Name W) : Prop where
  todo : a.todo = rest
  frames : a.frames = frames
  agrees : (target ops callees).Agrees scope r.2 a
  value : a.env.floats dst = r.1
  values : Env.Below n env a.env

/-- A branch ends in an `scf.yield`, and leads behind its `scf.if`. -/
theorem simulates_branch {f : State D W → Option (D × State D W)} {val n : Nat}
    (h : Computes ops callees N t t₁ scope scope (fun _ => f) (·.env.floats val))
    (hn : t.builder.insertPoint = .atEnd n) (hempty : t.builder.blocks n = [])
    {blocks : Nat → List (Op D Name)} (hcode : Within blocks t.builder t₁.builder)
    (hyield : t₁.builder.blocks n ++ [.yieldOp val] <+: blocks n) {env : Env D Name W}
    {st : State D W}
    {m dst : Nat} (hm : m ≤ t.builder.nextValue) (hdst : m ≤ dst) {rest : List (Op D Name)}
    {frames : List (Frame D Name)}
    (hst : (target ops callees).Agrees scope st ⟨env, blocks n, .branch dst rest :: frames⟩) :
    Simulates (Activation.step ops callees blocks) N (Activation.Blocked callees)
      ⟨env, blocks n, .branch dst rest :: frames⟩ (f st)
      (Merged ops callees m dst rest frames scope env) := by
  have hat : At blocks t.builder
      (⟨env, blocks n, .branch dst rest :: frames⟩ : Activation D Name W) := by
    refine ⟨n, hn, ?_⟩
    rw [hempty]
    rfl
  refine (h.simulates blocks hcode _ st hat hst).followed fun r a hwent => ?_
  have hat₁ : At blocks t₁.builder a := hwent.at_
  obtain ⟨q, hq, htodo⟩ := hat₁
  obtain rfl : n = q := InsertPoint.atEnd.inj (hn.symm.trans (h.grown.2.insert.symm.trans hq))
  obtain ⟨more, hmore⟩ := hyield
  have hyields : a.todo = .yieldOp val :: more := by
    rw [htodo, ← hmore, List.append_assoc, List.drop_left]
    rfl
  have hkept : Kept t.builder ⟨env, blocks n, .branch dst rest :: frames⟩ a := hwent.kept
  have hstep : a.step ops callees blocks =
      some ⟨a.env.setFloat dst (a.env.floats val), rest, frames⟩ :=
    Activation.step_yield hyields hkept.frames
  refine ⟨_, Reaches.one hstep, rfl, rfl, hwent.agrees.same (fun _ _ => rfl) rfl rfl, ?_, ?_⟩
  · rw [← hwent.read]
    exact if_pos rfl
  · have hvalues := Env.Below.refl.trans hm hkept.values
    exact hvalues.trans (Nat.le_refl m) (.setFloat hdst a.env _)

namespace Branches

variable {i1 p v : Nat} {then_ else_ : BerlinGen D Nat} (c : Branches i1 then_ else_ p t v t')

/-- The `scf.if` is at the end of its block, and those of its branches are new. -/
theorem inThen_spec (hp : t.builder.insertPoint = .atEnd p) (hwf : t.builder.Wf) :
    p < t.builder.nextBlock ∧ t.builder.Grown c.inThen.builder ∧
    c.inThen.builder.insertPoint = .atEnd t.builder.nextBlock ∧
    c.inThen.builder.nextBlock = t.builder.nextBlock + 2 ∧
    c.inThen.builder.nextValue = v + 1 ∧
    c.inThen.builder.blocks p =
      t.builder.blocks p ++ [.ifOp v i1 t.builder.nextBlock (t.builder.nextBlock + 1)] ∧
    ∀ k, t.builder.nextBlock ≤ k → c.inThen.builder.blocks k = [] := by
  obtain ⟨q, hq, hlt⟩ := hwf.insert
  obtain rfl : q = p := InsertPoint.atEnd.inj (hq.symm.trans hp)
  have hblocks := (((OpBuilder.Grown.refl hwf).newBlock).newBlock).newValue
  have hop := hblocks.insert_op (insert_pushed (.ifOp t.builder.nextValue i1
    t.builder.nextBlock (t.builder.nextBlock + 1)) hp)
  have hgrown := hop.setInsertPoint (q := t.builder.nextBlock) (.inr (Nat.le_refl _))
    (Nat.lt_succ_of_lt (Nat.lt_succ_self _))
  rw [c.enter, c.result]
  refine ⟨hlt, hgrown, rfl, rfl, rfl, if_pos rfl, fun k hk => ?_⟩
  have hne : k ≠ q := by omega
  exact (if_neg hne).trans (hwf.empty k hk)

/-- What is generated for the branches stays as it is, and the block of the `scf.if` goes on
behind it. -/
structure Laid (p : Nat) : Prop where
  spans : Spans t.builder t'.builder
  values : v < c.inElse.builder.nextValue ∧ v < t'.builder.nextValue
  labels : t.builder.nextBlock + 2 ≤ c.inElse.builder.nextBlock
  thenLeft : Leaves c.inThen.builder.nextBlock c.thenEnd.builder t'.builder
  elseLeft : Leaves c.inElse.builder.nextBlock c.elseEnd.builder t'.builder
  here : t'.builder.blocks p =
    t.builder.blocks p ++ [.ifOp v i1 t.builder.nextBlock (t.builder.nextBlock + 1)]
  elseEmpty : c.inElse.builder.blocks (t.builder.nextBlock + 1) = []
  thenYields : c.thenEnd.builder.blocks t.builder.nextBlock ++ [.yieldOp c.thenVal] <+:
    t'.builder.blocks t.builder.nextBlock
  elseYields : c.elseEnd.builder.blocks (t.builder.nextBlock + 1) ++ [.yieldOp c.elseVal] <+:
    t'.builder.blocks (t.builder.nextBlock + 1)

theorem laid (hp : t.builder.insertPoint = .atEnd p) (hwf : t.builder.Wf)
    (hthen : Spans c.inThen.builder c.thenEnd.builder)
    (helse : Spans c.inElse.builder c.elseEnd.builder) : c.Laid p := by
  obtain ⟨hlt, hgrown, hat, hlabels, hvalue, hif, hnew⟩ := c.inThen_spec hp hwf
  have hatThen := hthen.insert.trans hat
  have hatElse : c.elseEnd.builder.insertPoint = .atEnd (t.builder.nextBlock + 1) := helse.insert
  have hyielded :
      c.yielded.builder = pushed t.builder.nextBlock (.yieldOp c.thenVal) c.thenEnd.builder :=
    congrArg BerlinState.builder (createOp_pushed c.yieldThen hatThen)
  have hdone :
      c.done.builder = pushed (t.builder.nextBlock + 1) (.yieldOp c.elseVal) c.elseEnd.builder :=
    congrArg BerlinState.builder (createOp_pushed c.yieldElse hatElse)
  have hfinal : t'.builder = c.done.builder.setInsertPoint (.atEnd p) :=
    congrArg BerlinState.builder c.final_
  -- from the end of the first branch to the end of the second one, and behind both
  have hleaves₁ : Leaves (t.builder.nextBlock + 2) c.thenEnd.builder c.yielded.builder :=
    hyielded ▸ Leaves.pushed (by omega) _ _
  have hleaves₂ : Leaves (t.builder.nextBlock + 2) c.inElse.builder c.elseEnd.builder :=
    .spans (by omega) rfl helse
  have hleaves₃ : Leaves (t.builder.nextBlock + 2) c.elseEnd.builder t'.builder := by
    rw [hfinal, hdone]
    exact (Leaves.pushed (by omega) _ _).trans (.moved _)
  have hleaves : Leaves (t.builder.nextBlock + 2) c.thenEnd.builder t'.builder :=
    ((hleaves₁.trans (.moved _)).trans hleaves₂).trans hleaves₃
  have hthen' := (createOp_extends _ _ () _ hthen.grown.wf c.yieldThen).1.1
  have helse' := (createOp_extends _ _ () _ helse.grown.wf c.yieldElse).1.1
  have hlabels' : c.inThen.builder.nextBlock ≤ c.yielded.builder.nextBlock :=
    (hthen.grown.trans hthen').labels
  have hinElse : t.builder.Grown c.inElse.builder :=
    ((hgrown.trans hthen.grown).trans hthen').setInsertPoint (.inr (Nat.le_succ _)) (by omega)
  have hall := ((hinElse.trans helse.grown).trans helse').back hwf
  rw [hp] at hall
  have huntouched : ∀ {b b' : OpBuilder D Name} {k q : Nat}, b.Grown b' → k < b.nextBlock →
      b.insertPoint = .atEnd q → k ≠ q → b'.blocks k = b.blocks k := by
    intro b b' k q h hk hq hne
    exact h.untouched hk fun heq => hne (InsertPoint.atEnd.inj (heq.symm.trans hq))
  have hhere : c.yielded.builder.blocks p = c.inThen.builder.blocks p :=
    huntouched (hthen.grown.trans hthen') (by omega) hat (by omega)
  have hother : c.yielded.builder.blocks (t.builder.nextBlock + 1) = [] :=
    (huntouched (hthen.grown.trans hthen') (by omega) hat (by omega)).trans (hnew _ (Nat.le_succ _))
  have hhere' : c.done.builder.blocks p = c.inElse.builder.blocks p :=
    huntouched (helse.grown.trans helse')
      (Nat.lt_of_lt_of_le (by omega : p < t.builder.nextBlock + 2) (hlabels ▸ hlabels')) rfl
        (by omega)
  have hmono : ∀ {m m' : Nat} {b b' : OpBuilder D Name}, m ≤ m' → Leaves m b b' → Leaves m' b b' :=
    fun hle h => ⟨h.there, h.labels, fun k hk hlt => h.same k (Nat.le_trans hle hk) hlt⟩
  have hvalues : c.inThen.builder.nextValue ≤ c.yielded.builder.nextValue :=
    (hthen.grown.trans hthen').values
  have hvalues' : c.inElse.builder.nextValue ≤ c.done.builder.nextValue :=
    (helse.grown.trans helse').values
  have hlater : t.builder.nextBlock + 2 ≤ c.inElse.builder.nextBlock := hlabels ▸ hlabels'
  have hin : v < c.inElse.builder.nextValue := Nat.lt_of_lt_of_le (by omega) hvalues
  constructor
  · exact ⟨hfinal ▸ hall, by rw [hfinal, hp]; rfl⟩
  · rw [hfinal]
    exact ⟨hin, Nat.lt_of_lt_of_le hin hvalues'⟩
  · exact hlater
  · exact hlabels.symm ▸ hleaves
  · exact hmono hlater hleaves₃
  · rw [hfinal]
    exact hhere'.trans (hhere.trans hif)
  · exact hother
  · have hthere := (hleaves₂.trans hleaves₃).there t.builder.nextBlock
    have hend : c.inElse.builder.blocks t.builder.nextBlock =
        c.thenEnd.builder.blocks t.builder.nextBlock ++ [.yieldOp c.thenVal] := by
      show c.yielded.builder.blocks _ = _
      rw [hyielded]
      exact pushed_blocks _ _ _
    exact hend ▸ hthere
  · rw [hfinal, hdone]
    exact ⟨[], (List.append_nil _).trans (pushed_blocks _ _ _).symm⟩

end Branches

/-- Another state of the generator in the same scope. -/
theorem Ready.spans (ht : Ready ops callees t scope) (h : Spans t.builder t'.builder)
    (hnames : ∀ x k, t'.namedValues x = some k → scope.lookup x = some k) :
    Ready ops callees t' scope :=
  ⟨h.grown.wf, hnames, ht.distinct, fun b hb => Nat.lt_of_lt_of_le (ht.has b hb) h.grown.values⟩

theorem Branches.inThen_ready {i1 p v : Nat} {then_ else_ : BerlinGen D Nat}
    (c : Branches i1 then_ else_ p t v t') (hp : t.builder.insertPoint = .atEnd p)
    (ht : Ready ops callees t scope) : Ready ops callees c.inThen scope := by
  obtain ⟨-, hgrown, -⟩ := c.inThen_spec hp ht.wf
  refine ⟨hgrown.wf, ?_, ht.distinct, fun b hb => Nat.lt_of_lt_of_le (ht.has b hb) hgrown.values⟩
  rw [c.enter]
  exact ht.names

theorem Branches.inElse_ready {i1 p v : Nat} {then_ else_ : BerlinGen D Nat}
    (c : Branches i1 then_ else_ p t v t') (hp : t.builder.insertPoint = .atEnd p)
    (ht : Ready ops callees t scope) (hthen : Ready ops callees c.thenEnd scope)
    (hgrown : c.inThen.builder.Grown c.thenEnd.builder) : Ready ops callees c.inElse scope := by
  obtain ⟨-, -, -, hlabels, -⟩ := c.inThen_spec hp ht.wf
  have hyielded : Ready ops callees c.yielded scope := hthen.createOp c.yieldThen
  have hgrown' := (createOp_extends _ _ () _ hgrown.wf c.yieldThen).1.1
  have hle : c.inThen.builder.nextBlock ≤ c.yielded.builder.nextBlock :=
    (hgrown.trans hgrown').labels
  have hlt : t.builder.nextBlock + 1 < c.yielded.builder.nextBlock := by omega
  exact ⟨⟨⟨_, rfl, hlt⟩, hyielded.wf.empty⟩, hyielded.names, hyielded.distinct, hyielded.has⟩

theorem computes_branches {i1 p v : Nat} {then_ else_ : BerlinGen D Nat}
    (c : Branches i1 then_ else_ p t v t') (hp : t.builder.insertPoint = .atEnd p)
    (ht : Ready ops callees t scope) {f g : State D W → Option (D × State D W)}
    (hthen : Computes ops callees N c.inThen c.thenEnd scope scope (fun _ => f)
      (·.env.floats c.thenVal))
    (helse : Computes ops callees N c.inElse c.elseEnd scope scope (fun _ => g)
      (·.env.floats c.elseVal)) :
    Computes ops callees N t t' scope scope (fun a st => if a.env.flags i1 then f st else g st)
      (·.env.floats v) := by
  obtain ⟨-, hgrown, hat, hlabels, hvalue, -, hnew⟩ := c.inThen_spec hp ht.wf
  have hlaid := c.laid hp ht.wf hthen.grown.2 helse.grown.2
  have hresult : v = t.builder.nextValue := c.result
  have hready : Ready ops callees t' scope := by
    refine ht.spans hlaid.spans fun x k hx => ?_
    rw [c.final_] at hx
    exact (Ready.createOp helse.ready c.yieldElse).names x k hx
  constructor
  · exact ⟨ht.wf, hlaid.spans⟩
  · exact hready
  · exact fun a a' hkept => hkept.values.floats v hlaid.values.2
  · intro blocks hwithin a st hat₀ hst
    have hat₀ : At blocks t.builder a := hat₀
    have hpt' : t'.builder.insertPoint = .atEnd p := hlaid.spans.insert.trans hp
    obtain ⟨rest, htodo, hafter⟩ := hat₀.fetch hp hlaid.here hpt' (hwithin.there p)
    have hstep : a.step ops callees blocks = some ⟨a.env,
        blocks (if a.env.flags i1 then t.builder.nextBlock else t.builder.nextBlock + 1),
        .branch v rest :: a.frames⟩ := Activation.step_if htodo
    refine Simulates.after (Reaches.one hstep) ?_
    have hmerged : ∀ (r : D × State D W) (a' : Activation D Name W),
        Merged ops callees t.builder.nextValue v rest a.frames scope a.env r a' →
        (target ops callees).Went blocks t.builder t'.builder scope a (·.env.floats v) r a' := by
      intro r a' h
      obtain ⟨env, todo, frames⟩ := a'
      obtain ⟨rfl, rfl, hagrees, hread, hvalues⟩ := h
      exact ⟨hafter _ _, hagrees, hread, hvalues, rfl⟩
    cases a.env.flags i1 with
    | true =>
      have hcode : Within blocks c.inThen.builder c.thenEnd.builder :=
        hwithin.region hgrown.labels hlaid.thenLeft
      have hyield := hlaid.thenYields.trans (hwithin.there t.builder.nextBlock)
      exact (simulates_branch hthen hat (hnew _ (Nat.le_refl _)) hcode hyield hgrown.values
        (Nat.le_of_eq hresult.symm) (hst.same (fun _ _ => rfl) rfl rfl)).mono hmerged
    | false =>
      have hle : t.builder.nextBlock ≤ c.inElse.builder.nextBlock :=
        Nat.le_trans (Nat.le_add_right _ 2) hlaid.labels
      have hcode : Within blocks c.inElse.builder c.elseEnd.builder :=
        hwithin.region hle hlaid.elseLeft
      have hyield := hlaid.elseYields.trans (hwithin.there (t.builder.nextBlock + 1))
      have hvalues : t.builder.nextValue ≤ c.inElse.builder.nextValue := by
        have hlt := hlaid.values.1
        omega
      exact (simulates_branch helse rfl hlaid.elseEmpty hcode hyield hvalues
        (Nat.le_of_eq hresult.symm) (hst.same (fun _ _ => rfl) rfl rfl)).mono hmerged

theorem preserved_if {cond then_ else_ : ExprAST D} (ihc : Preserved ops callees N cond)
    (iht : Preserved ops callees N then_) (ihe : Preserved ops callees N else_) :
    Preserved ops callees N (.ifExpr cond then_ else_) := by
  intro t v t' scope h hrep ht
  rw [gen] at h
  rw [noRepeat, Bool.and_eq_true, Bool.and_eq_true] at hrep
  obtain ⟨⟨hrepCond, hrepThen⟩, hrepElse⟩ := hrep
  obtain ⟨condVal, t₁, hcond, h⟩ := Gen.bind_ok h
  obtain ⟨zeroVal, t₂, hzero, h⟩ := Gen.bind_ok h
  obtain ⟨i1, t₃, hi1, h⟩ := Gen.bind_ok h
  have h₁ := ihc t condVal t₁ scope hcond hrepCond ht
  obtain ⟨-, hin⟩ := gen_extends ops.toFloatOps cond t condVal t₁ ht.wf hcond
  have h₂ := computes_zero (N := N) hzero h₁.ready
  have h₃ := computes_cmpf (N := N) hi1 h₂.ready
  obtain ⟨p, hp, -⟩ := h₃.ready.wf.insert
  obtain ⟨c⟩ := Branches.of_gen hp h
  have hinThen := c.inThen_ready hp h₃.ready
  have h₄ := iht _ _ _ scope c.genThen hrepThen hinThen
  have hinElse := c.inElse_ready hp h₃.ready h₄.ready h₄.grown.2.grown
  have h₅ := ihe _ _ _ scope c.genElse hrepElse hinElse
  have hflag := h₂.bind h₃ (k := fun a x st => some (ops.une (a.env.floats condVal) x, st))
    fun a a₁ hkept st => by
      rw [← hkept.values.floats condVal hin]
      rfl
  have htest := h₁.bind hflag (k := fun _ x st => some (ops.une x ops.zero, st))
    fun _ _ _ _ => rfl
  have hall := htest.bind (computes_branches c hp h₃.ready h₄ h₅) (k := fun _ b st =>
    if b then eval (dialect ops callees) N then_ st else eval (dialect ops callees) N else_ st)
      fun _ _ _ _ => rfl
  refine hall.congr fun a st => ?_
  rw [eval, Option.bind_assoc]
  rfl

end

end AroundTheWorld.Berlin
