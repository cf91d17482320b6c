import AroundTheWorld.Berlin.Grown
import AroundTheWorld.Mlir.Run

/-!
# The loops of Berlin

`genFor` converts the bounds and the step in front of an `scf.for`, and begins its
body by storing the converted induction variable.
-/

namespace AroundTheWorld.Berlin

open AroundTheWorld.Base AroundTheWorld.Lex AroundTheWorld.Mlir
open AroundTheWorld.Athens (ExprAST Name)
open AroundTheWorld.Llvm (IntOps Callees)

variable {D W : Type}

/-- How the generator has come through a `for`, from state `s` on. -/
structure ForCode (ops : IntOps D) (varName : Name) (start end_ step body : ExprAST D)
    (s : BerlinState D) where
  startVal : Nat
  endVal : Nat
  stepVal : Nat
  result : Nat
  started : BerlinState D
  ended : BerlinState D
  stepped : BerlinState D
  final : BerlinState D
  genStart : gen ops.toFloatOps start s = .ok startVal started
  genEnd : gen ops.toFloatOps end_ started = .ok endVal ended
  genStep : (if step.isNull then create (.constant · ops.unit) else gen ops.toFloatOps step) ended =
    .ok stepVal stepped
  genLoop : genLoop ops.toFloatOps varName startVal endVal stepVal (gen ops.toFloatOps body)
    stepped =
    .ok result final

/-- The builder behind an operation at the end of block `p`. -/
def pushed (p : Nat) (op : Op D Name) (b : OpBuilder D Name) : OpBuilder D Name :=
  { b with blocks := fun k => if k = p then b.blocks k ++ [op] else b.blocks k }

/-- The builder behind an operation with a result. -/
def created (p : Nat) (op : Nat → Op D Name) (b : OpBuilder D Name) : OpBuilder D Name :=
  pushed p (op b.nextValue) { b with nextValue := b.nextValue + 1 }

/-- The operations in front of a loop whose values start with `n`. -/
def conversions (n startF64 endF64 stepF64 : Nat) : List (Op D Name) :=
  [.fptosi n startF64, .fptosi (n + 1) endF64, .fptosi (n + 2) stepF64, .indexCast (n + 3) n,
    .indexCast (n + 4) (n + 1), .indexCast (n + 5) (n + 2)]

/-- The operations in front of the body. -/
def bodyHead (n : Nat) : List (Op D Name) :=
  [.indexCast (n + 7) (n + 6), .sitofp (n + 8) (n + 7), .alloca (n + 9), .store (n + 8) (n + 9)]

/-- The builder where the body begins. -/
def enterFor (p startF64 endF64 stepF64 : Nat) (b : OpBuilder D Name) : OpBuilder D Name :=
  let n := b.nextValue
  let b := created p (.fptosi · startF64) b
  let b := created p (.fptosi · endF64) b
  let b := created p (.fptosi · stepF64) b
  let b := created p (.indexCast · n) b
  let b := created p (.indexCast · (n + 1)) b
  let b := created p (.indexCast · (n + 2)) b
  let body := b.nextBlock
  let b := { b with nextBlock := b.nextBlock + 1, nextValue := b.nextValue + 1 }
  let b := (pushed p (.forOp (n + 3) (n + 4) (n + 5) (n + 6) body) b).setInsertPoint (.atEnd body)
  let b := created body (.indexCast · (n + 6)) b
  let b := created body (.sitofp · (n + 7)) b
  let b := created body .alloca b
  pushed body (.store (n + 8) (n + 9)) b

/-- What `genFor` does from the body on. -/
def forBody (ops : IntOps D) (varName : Name) (p varAlloca : Nat) (body : BerlinGen D Nat) :
    BerlinGen D Nat := do
  let saved ← lookupName varName
  bindName varName (some varAlloca)
  let bodyVal ← Gen.attempt body
  bindName varName saved
  match bodyVal with
  | none => do
    eraseLast (.atEnd p)
    Gen.null
  | some _ => do
    setInsertPoint (.atEnd p)
    defaultF64Zero ops.toFloatOps

theorem genLoop_run (ops : IntOps D) (varName : Name) (startF64 endF64 stepF64 : Nat)
    (body : BerlinGen D Nat) {s : BerlinState D} {p : Nat} (hp : s.builder.insertPoint = .atEnd p) :
    genLoop ops.toFloatOps varName startF64 endF64 stepF64 body s =
      forBody ops varName p (s.builder.nextValue + 9) body
        { s with builder := enterFor p startF64 endF64 stepF64 s.builder } := by
  obtain ⟨⟨blocks, insertPoint, nextBlock, nextValue⟩, namedValues, errors⟩ := s
  cases hp
  rfl

/-- A body that is generated, in the scope of the loop variable. -/
theorem forBody_run {ops : IntOps D} {varName : Name} {p varAlloca v : Nat} {body : BerlinGen D Nat}
    {s s' : BerlinState D}
    (hbody : body { s with
      namedValues := fun k => if k = varName then some varAlloca else s.namedValues k } =
        .ok v s') :
    forBody ops varName p varAlloca body s = .ok s'.builder.nextValue
      { s' with
        builder := created p (.constant · ops.zero) (s'.builder.setInsertPoint (.atEnd p))
        namedValues := fun k => if k = varName then s.namedValues varName else
          s'.namedValues k } := by
  unfold forBody
  rw [Gen.bind_of_ok (show lookupName varName s = .ok (s.namedValues varName) s from rfl)]
  show ((Gen.attempt body >>= _) _) = _
  rw [Gen.bind_of_ok (Gen.attempt_of_ok hbody)]
  rfl

section
variable {b : OpBuilder D Name} {p startF64 endF64 stepF64 : Nat}

theorem enterFor_here (hne : p ≠ b.nextBlock) : (enterFor p startF64 endF64 stepF64 b).blocks p =
    b.blocks p ++ (conversions b.nextValue startF64 endF64 stepF64 ++
      [.forOp (b.nextValue + 3) (b.nextValue + 4) (b.nextValue + 5) (b.nextValue + 6)
        b.nextBlock]) := by
  simp [enterFor, created, pushed, OpBuilder.setInsertPoint, conversions, hne]

theorem enterFor_body (hne : p ≠ b.nextBlock) :
    (enterFor p startF64 endF64 stepF64 b).blocks b.nextBlock =
      b.blocks b.nextBlock ++ bodyHead b.nextValue := by
  simp [enterFor, created, pushed, OpBuilder.setInsertPoint, bodyHead, hne.symm]

theorem enterFor_wf (hwf : b.Wf) (hp : b.insertPoint = .atEnd p) :
    (enterFor p startF64 endF64 stepF64 b).Wf := by
  obtain ⟨q, hq, hlt⟩ := hwf.insert
  obtain rfl : q = p := by
    rw [hq] at hp
    cases hp
    rfl
  refine ⟨⟨b.nextBlock, rfl, Nat.lt_succ_self _⟩, fun k hk => ?_⟩
  have hk : b.nextBlock + 1 ≤ k := hk
  have hne : k ≠ q := by omega
  have hne' : k ≠ b.nextBlock := by omega
  have hempty := hwf.empty k (by omega)
  simp [enterFor, created, pushed, OpBuilder.setInsertPoint, hne, hne', hempty]

end

namespace ForCode

variable {ops : IntOps D} {varName : Name} {start end_ step body : ExprAST D} {s : BerlinState D}
  (c : ForCode ops varName start end_ step body s)

/-- Every `for` that is generated is generated so. -/
theorem of_gen {v : Nat} {s' : BerlinState D}
    (h : gen ops.toFloatOps (.forExpr varName start end_ step body) s = .ok v s') :
    ∃ c : ForCode ops varName start end_ step body s, s' = c.final := by
  rw [gen] at h
  obtain ⟨startVal, s₁, h₁, h⟩ := Gen.bind_ok h
  obtain ⟨endVal, s₂, h₂, h⟩ := Gen.bind_ok h
  cases startVal with
  | none => cases h
  | some startVal =>
    cases endVal with
    | none => cases h
    | some endVal =>
      obtain ⟨stepVal, s₃, h₃, h⟩ := Gen.bind_ok h
      exact ⟨⟨startVal, endVal, stepVal, v, s₁, s₂, s₃, s', Gen.attempt_some h₁,
        Gen.attempt_some h₂, h₃, h⟩, rfl⟩

variable {c}

/-- Where the step has been generated, the values are still there. -/
theorem stepped_spec (hs : s.builder.Wf) : c.stepped.builder.Wf ∧
    c.stepped.builder.insertPoint = s.builder.insertPoint ∧
    InValues c.startVal c.stepped.builder ∧ InValues c.endVal c.stepped.builder ∧
    InValues c.stepVal c.stepped.builder := by
  obtain ⟨⟨hstarted, hinsert⟩, hstart⟩ :=
    gen_extends ops.toFloatOps start s c.startVal c.started hs c.genStart
  obtain ⟨⟨hended, hinsert'⟩, hend⟩ :=
    gen_extends ops.toFloatOps end_ _ c.endVal c.ended hstarted.wf c.genEnd
  have hstep : Extends InValues
      (if step.isNull then create (.constant · ops.unit) else gen ops.toFloatOps step) := by
    split
    · exact create_extends _
    · exact gen_extends ops.toFloatOps step
  obtain ⟨⟨hstepped, hinsert''⟩, hstepVal⟩ := hstep _ c.stepVal c.stepped hended.wf c.genStep
  exact ⟨hstepped.wf, (hinsert''.trans hinsert').trans hinsert,
    Nat.lt_of_lt_of_le hstart (Nat.le_trans hended.values hstepped.values),
    Nat.lt_of_lt_of_le hend hstepped.values, hstepVal⟩

/-- The code of the loop: conversions and the operation in front, and the store
of the loop variable at the beginning of the body. -/
theorem final_code (hs : s.builder.Wf) {p : Nat} (hp : s.builder.insertPoint = .atEnd p) :
    (∃ more, c.final.builder.blocks p = c.stepped.builder.blocks p ++
      (conversions c.stepped.builder.nextValue c.startVal c.endVal c.stepVal ++
        [.forOp (c.stepped.builder.nextValue + 3) (c.stepped.builder.nextValue + 4)
          (c.stepped.builder.nextValue + 5) (c.stepped.builder.nextValue + 6)
          c.stepped.builder.nextBlock]) ++ more) ∧
    ∃ more, c.final.builder.blocks c.stepped.builder.nextBlock =
      bodyHead c.stepped.builder.nextValue ++ more := by
  obtain ⟨hwf, hinsert, _⟩ := stepped_spec (c := c) hs
  have hp' := hinsert.trans hp
  have hlt : p < c.stepped.builder.nextBlock := by
    obtain ⟨q, hq, hlt⟩ := hwf.insert
    rw [hp'] at hq
    cases hq
    exact hlt
  have hne : p ≠ c.stepped.builder.nextBlock := Nat.ne_of_lt hlt
  have hrun := c.genLoop
  rw [genLoop_run ops varName _ _ _ _ hp'] at hrun
  obtain ⟨saved, s₁, hsaved, hrun⟩ := Gen.bind_ok hrun
  cases hsaved
  obtain ⟨_, s₂, hbind, hrun⟩ := Gen.bind_ok hrun
  cases hbind
  obtain ⟨bodyVal, s₃, hbody, hrun⟩ := Gen.bind_ok hrun
  obtain ⟨_, s₄, hbind, hrun⟩ := Gen.bind_ok hrun
  cases hbind
  cases bodyVal with
  | none => cases hrun
  | some bodyVal =>
    have hstart : (enterFor p c.startVal c.endVal c.stepVal c.stepped.builder).Wf :=
      enterFor_wf hwf hp'
    obtain ⟨⟨hgrown, _⟩, _⟩ := gen_extends ops.toFloatOps body _ _ _ (by exact hstart)
      (Gen.attempt_some hbody)
    have hfinal : c.final.builder = created p (.constant · ops.zero)
        (s₃.builder.setInsertPoint (.atEnd p)) := by
      injection hrun with _ hfinal
      rw [← hfinal]
      rfl
    constructor
    · obtain ⟨more, hmore, _⟩ := hgrown.code p
      rw [enterFor_here hne] at hmore
      refine ⟨more ++ [.constant s₃.builder.nextValue ops.zero], ?_⟩
      rw [hfinal, ← List.append_assoc, ← hmore]
      exact if_pos rfl
    · obtain ⟨more, hmore, _⟩ := hgrown.code c.stepped.builder.nextBlock
      rw [enterFor_body hne, hwf.empty _ (Nat.le_refl _), List.nil_append] at hmore
      refine ⟨more, ?_⟩
      rw [hfinal, ← hmore]
      exact if_neg hne.symm

/-- The loop variable in each iteration, from the values of bounds and step. -/
theorem loopVariable_eq (callees : Callees D Name W) (hs : s.builder.Wf) {p : Nat}
    (hp : s.builder.insertPoint = .atEnd p) {blocks : Nat → List (Op D Name)}
    (hblocks : ∀ k, c.final.builder.blocks k <+: blocks k) (env : Env D Name W) (k : Nat) :
    loopVariable ops callees blocks env
        ((blocks p).drop (c.stepped.builder.blocks p).length) k =
      (forIv (ops.fptosi (env.floats c.startVal)) (ops.fptosi (env.floats c.endVal))
        (ops.fptosi (env.floats c.stepVal)) k).map ops.sitofp := by
  obtain ⟨⟨more, hhere⟩, more', hbody⟩ := final_code (c := c) hs hp
  obtain ⟨rest, hrest⟩ := hblocks p
  obtain ⟨rest', hrest'⟩ := hblocks c.stepped.builder.nextBlock
  rw [← hrest, hhere, List.append_assoc, List.append_assoc, List.drop_left]
  rw [hbody] at hrest'
  simp only [loopVariable, conversions, List.cons_append, List.nil_append, untilFor, Op.run,
    Option.bind_some, ← hrest', bodyHead, untilStore]
  simp [Env.setInt, Env.setFloat, forIv]
  split <;> rfl

end ForCode

end AroundTheWorld.Berlin
