import Mathlib.Logic.Relation
import AroundTheWorld.Berlin.Grown

/-!
# Where Berlin's code goes

What an expression adds is nested, through regions, in the block where the builder
was, and the builder is back there in the end.
-/

namespace AroundTheWorld.Mlir

variable {D F : Type}

/-- The blocks of the regions of an operation; `entryOf` has those of functions. -/
def Op.regions (entryOf : Nat → Option Nat) : Op D F → List Nat
  | .ifOp _ _ thenBlock elseBlock => [thenBlock, elseBlock]
  | .forOp _ _ _ _ body => [body]
  | .funcOp func => (entryOf func).toList
  | _ => []

/-- The block is reached from another one through regions. -/
def Nested (entryOf : Nat → Option Nat) (blocks : Nat → List (Op D F)) : Nat → Nat → Prop :=
  Relation.ReflTransGen fun k k' => ∃ op ∈ blocks k, k' ∈ op.regions entryOf

variable {entryOf : Nat → Option Nat}

theorem Nested.mono {blocks blocks' : Nat → List (Op D F)} (hle : ∀ k, blocks k <+: blocks' k)
    {k k' : Nat} (h : Nested entryOf blocks k k') : Nested entryOf blocks' k k' := by
  induction h with
  | refl => exact .refl
  | tail _ hstep ih =>
    obtain ⟨op, hop, hregion⟩ := hstep
    exact ih.tail ⟨op, (hle _).subset hop, hregion⟩

/-- Operations have been added inside block `q` alone, and the builder is back at
its end. -/
structure NestedIn (entryOf : Nat → Option Nat) (q : Nat) (b b' : OpBuilder D F) : Prop where
  insert : b'.insertPoint = .atEnd q
  grows : ∀ k, b.blocks k <+: b'.blocks k
  changed : ∀ k, b'.blocks k ≠ b.blocks k → Nested entryOf b'.blocks q k

namespace NestedIn

variable {q : Nat} {b b' b'' : OpBuilder D F}

theorem refl (h : b.insertPoint = .atEnd q) : NestedIn entryOf q b b :=
  ⟨h, fun _ => List.prefix_rfl, fun _ hne => absurd rfl hne⟩

theorem trans (h : NestedIn entryOf q b b') (h' : NestedIn entryOf q b' b'') :
    NestedIn entryOf q b b'' := by
  refine ⟨h'.insert, fun k => (h.grows k).trans (h'.grows k), fun k hne => ?_⟩
  by_cases hk : b'.blocks k = b.blocks k
  · rw [← hk] at hne
    exact h'.changed k hne
  · exact (h.changed k hk).mono h'.grows

theorem insert_op (hq : b.insertPoint = .atEnd q) {op : Op D F} (hop : b.insert op = some b') :
    NestedIn entryOf q b b' := by
  unfold OpBuilder.insert at hop
  rw [hq] at hop
  cases hop
  refine ⟨rfl, fun k => ?_, fun k hne => ?_⟩
  · show b.blocks k <+: if k = q then _ else _
    split
    · exact List.prefix_append _ _
    · exact List.prefix_rfl
  · by_cases hk : k = q
    · rw [hk]
      exact .refl
    · exact absurd (if_neg hk) hne

/-- A region of an operation in the block is filled. -/
theorem region (h : NestedIn entryOf q b b') {r : Nat} (hr : Nested entryOf b'.blocks q r)
    (h' : NestedIn entryOf r (b'.setInsertPoint (.atEnd r)) b'') :
    NestedIn entryOf q b (b''.setInsertPoint (.atEnd q)) := by
  have hback : NestedIn entryOf q b' (b''.setInsertPoint (.atEnd q)) := by
    refine ⟨rfl, h'.grows, fun k hne => ?_⟩
    exact Relation.ReflTransGen.trans (hr.mono h'.grows) (h'.changed k hne)
  exact h.trans hback

end NestedIn

end AroundTheWorld.Mlir

namespace AroundTheWorld.Berlin

open AroundTheWorld.Base AroundTheWorld.Lex AroundTheWorld.Mlir
open AroundTheWorld.Athens (ExprAST Name)
open AroundTheWorld.Llvm (FloatOps)

variable {D : Type} {entryOf : Nat → Option Nat}

/-- What is added is nested in the block where the builder is. -/
def Adds (entryOf : Nat → Option Nat) (s s' : BerlinState D) : Prop :=
  ∀ q, s.builder.insertPoint = .atEnd q → NestedIn entryOf q s.builder s'.builder

instance : Std.Refl (Adds (D := D) entryOf) := ⟨fun _ _ h => .refl h⟩

instance : Trans (Adds (D := D) entryOf) (Adds entryOf) (Adds entryOf) :=
  ⟨fun h h' q hq => (h q hq).trans (h' q (h q hq).insert)⟩

abbrev Nests {α : Type} (entryOf : Nat → Option Nat) (x : BerlinGen D α) : Prop :=
  Gen.Relates (Adds entryOf) x

/-! ## Expressions -/

/-- One more call, where the builder is back in block `q`. -/
theorem Nests.after {α : Type} {x : BerlinGen D α} (hx : Nests entryOf x) {b : OpBuilder D Name}
    {s s' : BerlinState D} {a : α} {q : Nat} (h : NestedIn entryOf q b s.builder)
    (hrun : x s = .ok a s') : NestedIn entryOf q b s'.builder :=
  h.trans (hx s a s' hrun q h.insert)

theorem Nests.of_same {α : Type} {x : BerlinGen D α}
    (hx : ∀ s a s', x s = .ok a s' → s'.builder.blocks = s.builder.blocks ∧
      s'.builder.insertPoint = s.builder.insertPoint) : Nests entryOf x := by
  intro s a s' hrun q hq
  obtain ⟨hblocks, hinsert⟩ := hx s a s' hrun
  refine ⟨hinsert.trans hq, fun k => congrFun hblocks k ▸ List.prefix_rfl, fun k hne => ?_⟩
  exact absurd (congrFun hblocks k) hne

theorem createOp_nests (op : Op D Name) : Nests entryOf (createOp op) := by
  intro s _ s' hrun q hq
  obtain ⟨b, hinsert, rfl⟩ := createOp_ok hrun
  exact .insert_op hq hinsert

theorem newValue_nests : Nests entryOf (newValue : BerlinGen D Nat) :=
  .of_same fun _ _ _ hrun => by cases hrun; exact ⟨rfl, rfl⟩

theorem newBlock_nests : Nests entryOf (newBlock : BerlinGen D Nat) :=
  .of_same fun _ _ _ hrun => by cases hrun; exact ⟨rfl, rfl⟩

theorem lookupName_nests (name : Name) : Nests entryOf (lookupName name : BerlinGen D _) :=
  .of_same fun _ _ _ hrun => by cases hrun; exact ⟨rfl, rfl⟩

theorem bindName_nests (name : Name) (value : Option Nat) :
    Nests entryOf (bindName name value : BerlinGen D Unit) :=
  .of_same fun _ _ _ hrun => by cases hrun; exact ⟨rfl, rfl⟩

theorem restoreNames_nests (olds : List (Name × Option Nat)) :
    Nests entryOf (restoreNames olds : BerlinGen D Unit) := by
  apply Nests.of_same
  intro s _ s' hrun
  rw [restoreNames_same olds hrun]
  exact ⟨rfl, rfl⟩

theorem complain_nests (line : Text) : Nests entryOf (complain line : BerlinGen D Nat) :=
  .failed fun _ => rfl

theorem create_nests (op : Nat → Op D Name) : Nests entryOf (create op) := by
  apply newValue_nests.bind
  intro dst
  apply (createOp_nests _).bind
  exact fun _ => .pure dst

section
variable {ops : FloatOps D}

theorem binaryOp_nests (op : Byte) (lhs rhs : Nat) :
    Nests entryOf (binaryOp op lhs rhs : BerlinGen D Nat) := by
  unfold binaryOp
  split
  · exact create_nests _
  split
  · exact create_nests _
  split
  · exact create_nests _
  split
  · apply (create_nests _).bind
    intro cmp
    apply (create_nests _).bind
    exact fun ext => create_nests _
  · exact complain_nests _

theorem unaryOp_nests (op : Byte) (operand : Nat) : Nests entryOf (unaryOp ops op operand) := by
  unfold unaryOp
  split
  · exact (create_nests _).bind fun zeroVal => create_nests _
  · exact create_nests _

theorem genAssignment_nests (lhs : ExprAST D) {rhs : BerlinGen D Nat} (h : Nests entryOf rhs) :
    Nests entryOf (genAssignment lhs rhs) := by
  cases lhs with
  | null => exact .failed fun _ => rfl
  | variableExpr name =>
    apply h.bind
    intro val
    apply (lookupName_nests name).bind
    intro it
    cases it with
    | none => exact complain_nests _
    | some memref => exact (createOp_nests _).bind fun _ => .pure val
  | _ => exact complain_nests _

theorem genArgs_nest {args : List (ExprAST D)} (h : ∀ a ∈ args, Nests entryOf (gen ops a)) :
    Nests entryOf (genArgs ops args) := by
  induction args with
  | nil =>
    rw [genArgs]
    exact .pure []
  | cons a args ih =>
    rw [genArgs]
    apply (h a (List.mem_cons_self ..)).bind
    intro argVal
    apply (ih fun b hb => h b (List.mem_cons_of_mem _ hb)).bind
    exact fun argVals => .pure _

/-- The default of an expression that may be missing. -/
theorem genOr_nests {e : ExprAST D} {default : BerlinGen D Nat} (hdefault : Nests entryOf default)
    (he : Nests entryOf (gen ops e)) : Nests entryOf (if e.isNull then default else gen ops e) := by
  split
  · exact hdefault
  · exact he

theorem genBindings_nest {varNames : List (Name × ExprAST D)}
    (hinit : ∀ p ∈ varNames, Nests entryOf (gen ops p.2)) :
    Nests entryOf (genBindings ops varNames) := by
  induction varNames with
  | nil =>
    rw [genBindings]
    exact .pure []
  | cons p rest ih =>
    obtain ⟨name, init⟩ := p
    rw [genBindings]
    apply (genOr_nests (create_nests _) (hinit (name, init) (List.mem_cons_self ..))).bind
    intro initVal
    apply (create_nests _).bind
    intro alloca
    apply (createOp_nests _).bind
    intro _
    apply (lookupName_nests name).bind
    intro it
    apply (bindName_nests name _).bind
    intro _
    apply (ih fun q hq => hinit q (List.mem_cons_of_mem _ hq)).bind
    exact fun _ => .pure _

/-- What is behind an operation at the end of a block. -/
theorem createOp_at {op : Op D Name} {s s' : BerlinState D} {q : Nat}
    (hq : s.builder.insertPoint = .atEnd q) (hrun : createOp op s = .ok () s') :
    s'.builder.insertPoint = .atEnd q ∧ op ∈ s'.builder.blocks q := by
  obtain ⟨b, hinsert, rfl⟩ := createOp_ok hrun
  have hpoint := (OpBuilder.insert_some hinsert).2.2
  refine ⟨hpoint.trans hq, ?_⟩
  unfold OpBuilder.insert at hinsert
  rw [hq] at hinsert
  cases hinsert
  show op ∈ if q = q then _ else _
  rw [if_pos rfl]
  simp

theorem genIf_nests {cond then_ else_ : ExprAST D} (hcond : Nests entryOf (gen ops cond))
    (hthen : Nests entryOf (gen ops then_)) (helse : Nests entryOf (gen ops else_)) :
    Nests entryOf (gen ops (.ifExpr cond then_ else_)) := by
  rw [gen]
  apply hcond.bind
  intro condVal
  apply (create_nests _).bind
  intro zeroVal
  apply (create_nests _).bind
  intro i1 s v s' hrun q hq
  obtain ⟨after, s₁, hafter, hrun⟩ := Gen.bind_ok hrun
  cases hafter
  obtain ⟨thenBlock, s₂, hblock, hrun⟩ := Gen.bind_ok hrun
  obtain ⟨elseBlock, s₃, hblock', hrun⟩ := Gen.bind_ok hrun
  obtain ⟨result, s₄, hresult, hrun⟩ := Gen.bind_ok hrun
  have h₂ := newBlock_nests.after (show NestedIn entryOf q _ _ from .refl hq) hblock
  have h₃ := newBlock_nests.after h₂ hblock'
  obtain ⟨dst, s₅, hdst, hresult⟩ := Gen.bind_ok hresult
  have h₅ := newValue_nests.after h₃ hdst
  obtain ⟨_, s₆, hop, hresult⟩ := Gen.bind_ok hresult
  cases hresult
  have hto := (createOp_nests _).after h₅ hop
  obtain ⟨_, hmem⟩ := createOp_at h₅.insert hop
  have hregion : Nested entryOf s₄.builder.blocks q thenBlock :=
    .single ⟨_, hmem, by simp [Op.regions]⟩
  have hregion' : Nested entryOf s₄.builder.blocks q elseBlock :=
    .single ⟨_, hmem, by simp [Op.regions]⟩
  obtain ⟨_, s₇, hset, hrun⟩ := Gen.bind_ok hrun
  cases hset
  obtain ⟨thenVal, s₈, hrun₈, hrun⟩ := Gen.bind_ok hrun
  obtain ⟨_, s₉, hyield, hrun⟩ := Gen.bind_ok hrun
  have h₈ := hthen _ _ _ hrun₈ thenBlock rfl
  have h₉ := (createOp_nests _).after h₈ hyield
  have hto₉ := hto.region hregion h₉
  obtain ⟨_, s₁₀, hset, hrun⟩ := Gen.bind_ok hrun
  cases hset
  obtain ⟨elseVal, s₁₁, hrun₁₁, hrun⟩ := Gen.bind_ok hrun
  obtain ⟨_, s₁₂, hyield, hrun⟩ := Gen.bind_ok hrun
  have h₁₁ := helse _ _ _ hrun₁₁ elseBlock rfl
  have h₁₂ := (createOp_nests _).after h₁₁ hyield
  obtain ⟨_, s₁₃, hset, hrun⟩ := Gen.bind_ok hrun
  cases hset
  cases hrun
  rw [hq]
  exact hto₉.region (hregion'.mono h₉.grows) h₁₂

theorem genLoop_nests (varName : Name) (startF64 endF64 stepF64 : Nat) {body : BerlinGen D Nat}
    (hbody : Nests entryOf body) :
    Nests entryOf (genLoop ops varName startF64 endF64 stepF64 body) := by
  unfold genLoop
  apply (create_nests _).bind
  intro startI64
  apply (create_nests _).bind
  intro endI64
  apply (create_nests _).bind
  intro stepI64
  apply (create_nests _).bind
  intro lb
  apply (create_nests _).bind
  intro ub
  apply (create_nests _).bind
  intro step s v s' hrun q hq
  obtain ⟨after, s₁, hafter, hrun⟩ := Gen.bind_ok hrun
  cases hafter
  obtain ⟨bodyBlock, s₂, hblock, hrun⟩ := Gen.bind_ok hrun
  obtain ⟨iv, s₃, hiv, hrun⟩ := Gen.bind_ok hrun
  obtain ⟨_, s₄, hfor, hrun⟩ := Gen.bind_ok hrun
  have h₂ := newBlock_nests.after (show NestedIn entryOf q _ _ from .refl hq) hblock
  have h₃ := newValue_nests.after h₂ hiv
  have hto := (createOp_nests _).after h₃ hfor
  obtain ⟨_, hmem⟩ := createOp_at h₃.insert hfor
  have hregion : Nested entryOf s₄.builder.blocks q bodyBlock :=
    .single ⟨_, hmem, by simp [Op.regions]⟩
  obtain ⟨_, s₅, hset, hrun⟩ := Gen.bind_ok hrun
  cases hset
  obtain ⟨ivI64, s₆, hrun₆, hrun⟩ := Gen.bind_ok hrun
  have h₆ := (create_nests _).after (show NestedIn entryOf bodyBlock _ _ from .refl rfl) hrun₆
  obtain ⟨ivF64, s₇, hrun₇, hrun⟩ := Gen.bind_ok hrun
  have h₇ := (create_nests _).after h₆ hrun₇
  obtain ⟨varAlloca, s₈, hrun₈, hrun⟩ := Gen.bind_ok hrun
  have h₈ := (create_nests _).after h₇ hrun₈
  obtain ⟨_, s₉, hrun₉, hrun⟩ := Gen.bind_ok hrun
  have h₉ := (createOp_nests _).after h₈ hrun₉
  obtain ⟨saved, s₁₀, hsaved, hrun⟩ := Gen.bind_ok hrun
  have h₁₀ := (lookupName_nests _).after h₉ hsaved
  obtain ⟨_, s₁₁, hbind, hrun⟩ := Gen.bind_ok hrun
  have h₁₁ := (bindName_nests _ _).after h₁₀ hbind
  obtain ⟨bodyVal, s₁₂, hrun₁₂, hrun⟩ := Gen.bind_ok hrun
  obtain ⟨_, s₁₃, hbind, hrun⟩ := Gen.bind_ok hrun
  cases bodyVal with
  | none => cases hrun
  | some bodyVal =>
    have h₁₂ := hbody.after h₁₁ (Gen.attempt_some hrun₁₂)
    have h₁₃ := (bindName_nests _ _).after h₁₂ hbind
    obtain ⟨_, s₁₄, hset, hrun⟩ := Gen.bind_ok hrun
    cases hset
    have hback := hto.region hregion h₁₃
    rw [hq] at hrun
    exact (create_nests _).after hback hrun

/-- The code of an expression is nested in the block where the builder is. -/
theorem gen_nests (ops : FloatOps D) (e : ExprAST D) : Nests entryOf (gen ops e) := by
  induction e using ExprAST.induction with
  | null =>
    rw [gen]
    exact .failed fun _ => rfl
  | numberExpr val =>
    rw [gen]
    exact create_nests _
  | variableExpr name =>
    rw [gen]
    apply (lookupName_nests name).bind
    intro it
    cases it with
    | none => exact complain_nests _
    | some memref => exact create_nests _
  | unaryExpr op operand ih =>
    rw [gen]
    exact ih.bind fun v => unaryOp_nests op v
  | binaryExpr op lhs rhs ihl ihr =>
    rw [gen]
    split
    · exact genAssignment_nests lhs ihr
    apply ihl.attempt_bind
    · exact fun s => Gen.bind_never fun _ _ => rfl
    intro l
    apply ihr.attempt_bind fun _ => rfl
    exact fun r => binaryOp_nests op l r
  | callExpr callee args ih =>
    rw [gen]
    exact (genArgs_nest ih).bind fun argVals => create_nests _
  | ifExpr cond then_ else_ ihc iht ihe => exact genIf_nests ihc iht ihe
  | forExpr varName start end_ step body ihstart ihend ihstep ihbody =>
    rw [gen]
    apply ihstart.attempt_bind
    · exact fun s => Gen.bind_never fun _ _ => rfl
    intro startF64
    apply ihend.attempt_bind fun _ => rfl
    intro endF64
    apply (genOr_nests (create_nests _) ihstep).bind
    exact fun stepF64 => genLoop_nests varName startF64 endF64 stepF64 ihbody
  | varExpr varNames body ihinit ihbody =>
    rw [gen]
    apply (genBindings_nest ihinit).bind
    intro olds
    apply ihbody.attempt_bind
    · exact fun s => Gen.bind_never fun _ _ => rfl
    intro v
    apply (restoreNames_nests olds).bind
    exact fun _ => .pure v

end

end AroundTheWorld.Berlin
