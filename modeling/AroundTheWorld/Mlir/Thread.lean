import AroundTheWorld.Base.Endings
import AroundTheWorld.Mlir.Run

/-!
# Running nested operations

A thread has the operations that are left of the block that it is in, and of the blocks
around it, each with the value that the `scf.if` there gets from the `scf.yield` of the
branch. Loops and what is around functions do not run here.
-/

namespace AroundTheWorld.Mlir

open AroundTheWorld.Base
open AroundTheWorld.Llvm (IntOps Callees)

structure Thread (D F W : Type) where
  env : Env D F W
  todo : List (Op D F)
  around : List (Nat × List (Op D F))

namespace Thread

variable {D F W : Type}

def step (ops : IntOps D) (callees : Callees D F W) (blocks : Nat → List (Op D F))
    (th : Thread D F W) : Option (Thread D F W) :=
  match th.todo, th.around with
  | [], _ => none
  | .ifOp dst cond thenBlock elseBlock :: rest, around =>
    some ⟨th.env, blocks (if th.env.flags cond then thenBlock else elseBlock),
      (dst, rest) :: around⟩
  | .yieldOp _ :: _, [] => none
  | .yieldOp val :: _, (dst, rest) :: around =>
    some ⟨th.env.setFloat dst (th.env.floats val), rest, around⟩
  | op :: rest, around => (op.run ops callees th.env).map fun env => ⟨env, rest, around⟩

/-- The thread is about to call a function that does not come back. -/
def Calls (callees : Callees D F W) (th : Thread D F W) (callee : F) (args : List D) : Prop :=
  ∃ dst vals rest, th.todo = .call dst callee vals :: rest ∧ vals.map th.env.floats = args ∧
    callees callee args th.env.world = none

theorem Calls.step {ops : IntOps D} {callees : Callees D F W} {blocks : Nat → List (Op D F)}
    {th : Thread D F W} {callee : F} {args : List D} (h : th.Calls callees callee args) :
    th.step ops callees blocks = none := by
  obtain ⟨dst, vals, rest, htodo, hargs, hnone⟩ := h
  unfold Thread.step
  rw [htodo]
  show Option.map _ (Option.map _ (callees callee (vals.map th.env.floats) th.env.world)) = none
  rw [hargs, hnone]
  rfl

/-- An operation without regions leads to the next one. -/
theorem step_of_run {ops : IntOps D} {callees : Callees D F W} {blocks : Nat → List (Op D F)}
    {th : Thread D F W} {op : Op D F} {rest : List (Op D F)} {env : Env D F W}
    (htodo : th.todo = op :: rest) (hrun : op.run ops callees th.env = some env) :
    th.step ops callees blocks = some ⟨env, rest, th.around⟩ := by
  unfold step
  rw [htodo]
  cases op with
  | ifOp dst cond thenBlock elseBlock => cases hrun
  | yieldOp val => cases hrun
  | _ =>
    show Option.map _ _ = _
    rw [hrun]
    rfl

end Thread

/-- The thread stands at the insertion point. -/
def OpBuilder.At {D F W : Type} (b : OpBuilder D F) (blocks : Nat → List (Op D F))
    (th : Thread D F W) : Prop :=
  ∃ p, b.insertPoint = .atEnd p ∧ th.todo = (blocks p).drop (b.blocks p).length

/-- There it meets what is emitted next. -/
theorem OpBuilder.At.fetch {D F W : Type} {b b' : OpBuilder D F} {blocks : Nat → List (Op D F)}
    {th : Thread D F W} (hat : b.At blocks th) (hem : Emitted b.blocks b'.blocks blocks) {p : Nat}
    (hp : b.insertPoint = .atEnd p) {op : Op D F} (hop : b.blocks p ++ [op] <+: b'.blocks p) :
    th.todo = op :: (blocks p).drop ((b.blocks p).length + 1) := by
  obtain ⟨q, hq, htodo⟩ := hat
  rw [hp] at hq
  cases hq
  obtain ⟨hlt, hget⟩ := List.getElem?_eq_some_iff.mp (hem.fetch hop)
  rw [htodo, List.drop_eq_getElem_cons hlt, hget]

end AroundTheWorld.Mlir
