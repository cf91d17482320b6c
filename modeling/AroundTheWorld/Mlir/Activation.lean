import AroundTheWorld.Base.Steps
import AroundTheWorld.Mlir.Run

/-!
# Running functions

An activation of a function has the operations that are left of the block that it is in,
and the operations around them that it is inside of: an `scf.if`, which gets its value from
the `scf.yield` of the branch, or an `scf.for` with what is left of its iterations. At the
end of its body a loop tests the next value of the induction variable.
-/

namespace AroundTheWorld.Mlir

open AroundTheWorld.Base
open AroundTheWorld.Llvm (IntOps Callees)

/-- An operation that an activation is inside of, and the operations behind it. -/
inductive Frame (D F : Type) where
  | branch (dst : Nat) (rest : List (Op D F))
  | loop (iv : Nat) (next ub step : Int) (body : Nat) (rest : List (Op D F))

structure Activation (D F W : Type) where
  env : Env D F W
  todo : List (Op D F)
  frames : List (Frame D F)

variable {D F W : Type}

namespace Activation

def step (ops : IntOps D) (callees : Callees D F W) (blocks : Nat → List (Op D F))
    (a : Activation D F W) : Option (Activation D F W) :=
  match a.todo, a.frames with
  | [], [] => none
  | [], .branch _ _ :: _ => none
  | [], .loop iv next ub step body rest :: frames =>
    if next < ub then
      some ⟨a.env.setInt iv next, blocks body, .loop iv (next + step) ub step body rest :: frames⟩
    else some ⟨a.env, rest, frames⟩
  | .ifOp dst cond thenBlock elseBlock :: rest, frames =>
    some ⟨a.env, blocks (if a.env.flags cond then thenBlock else elseBlock),
      .branch dst rest :: frames⟩
  | .forOp lb ub step iv body :: rest, frames =>
    some ⟨a.env, [], .loop iv (a.env.ints lb) (a.env.ints ub) (a.env.ints step) body rest :: frames⟩
  | .yieldOp _ :: _, [] => none
  | .yieldOp _ :: _, .loop _ _ _ _ _ _ :: _ => none
  | .yieldOp val :: _, .branch dst rest :: frames =>
    some ⟨a.env.setFloat dst (a.env.floats val), rest, frames⟩
  | op :: rest, frames => (op.run ops callees a.env).map fun env => ⟨env, rest, frames⟩

/-- The activation is about to call a function that does not come back. -/
def Blocked (callees : Callees D F W) (a : Activation D F W) : Prop :=
  ∃ dst callee vals rest, a.todo = .call dst callee vals :: rest ∧
    callees callee (vals.map a.env.floats) a.env.world = none

section
variable {ops : IntOps D} {callees : Callees D F W} {blocks : Nat → List (Op D F)}
  {a : Activation D F W}

theorem Blocked.step_eq (h : a.Blocked callees) : a.step ops callees blocks = none := by
  obtain ⟨dst, callee, vals, rest, htodo, hnone⟩ := h
  unfold Activation.step
  rw [htodo]
  show Option.map _ (Option.map _ (callees callee (vals.map a.env.floats) a.env.world)) = none
  rw [hnone]
  rfl

/-- An operation without regions leads to the next one. -/
theorem step_of_run {op : Op D F} {rest : List (Op D F)} {env : Env D F W}
    (htodo : a.todo = op :: rest) (hrun : op.run ops callees a.env = some env) :
    a.step ops callees blocks = some ⟨env, rest, a.frames⟩ := by
  unfold step
  rw [htodo]
  cases op with
  | ifOp dst cond thenBlock elseBlock => cases hrun
  | forOp lb ub step iv body => cases hrun
  | yieldOp val => cases hrun
  | _ =>
    show Option.map _ _ = _
    rw [hrun]
    rfl

theorem step_if {dst cond thenBlock elseBlock : Nat} {rest : List (Op D F)}
    (htodo : a.todo = .ifOp dst cond thenBlock elseBlock :: rest) :
    a.step ops callees blocks = some ⟨a.env,
      blocks (if a.env.flags cond then thenBlock else elseBlock),
        .branch dst rest :: a.frames⟩ := by
  unfold step
  rw [htodo]

theorem step_yield {val dst : Nat} {more rest : List (Op D F)} {frames : List (Frame D F)}
    (htodo : a.todo = .yieldOp val :: more) (hframes : a.frames = .branch dst rest :: frames) :
    a.step ops callees blocks = some ⟨a.env.setFloat dst (a.env.floats val), rest, frames⟩ := by
  unfold step
  rw [htodo, hframes]

theorem step_for {lb ub step iv body : Nat} {rest : List (Op D F)}
    (htodo : a.todo = .forOp lb ub step iv body :: rest) :
    a.step ops callees blocks = some ⟨a.env, [],
      .loop iv (a.env.ints lb) (a.env.ints ub) (a.env.ints step) body rest :: a.frames⟩ := by
  unfold Activation.step
  rw [htodo]

/-- Another iteration, or what is behind the loop. -/
theorem step_loop {iv body : Nat} {next ub step : Int} {rest : List (Op D F)}
    {frames : List (Frame D F)} (htodo : a.todo = [])
    (hframes : a.frames = .loop iv next ub step body rest :: frames) :
    a.step ops callees blocks = some (if next < ub then
      ⟨a.env.setInt iv next, blocks body, .loop iv (next + step) ub step body rest :: frames⟩
      else ⟨a.env, rest, frames⟩) := by
  unfold Activation.step
  rw [htodo, hframes]
  dsimp only
  split <;> rfl

/-- Operations without regions, one after another. -/
theorem reaches_runs {done : List (Op D F)} {rest : List (Op D F)} {env env' : Env D F W}
    {frames : List (Frame D F)}
    (hrun : done.foldlM (fun env op => op.run ops callees env) env = some env') :
    Reaches (step ops callees blocks) ⟨env, done ++ rest, frames⟩ ⟨env', rest, frames⟩ := by
  induction done generalizing env with
  | nil =>
    cases hrun
    exact Reaches.refl
  | cons op done ih =>
    obtain ⟨env₁, hop, hrun⟩ := Option.bind_eq_some_iff.mp hrun
    have hstep : step ops callees blocks ⟨env, op :: (done ++ rest), frames⟩ =
        some ⟨env₁, done ++ rest, frames⟩ := step_of_run rfl hop
    exact (Reaches.one hstep).trans (ih hrun)

end

end Activation

/-- The SSA values below `n` are the same. -/
structure Env.Below (n : Nat) (env env' : Env D F W) : Prop where
  floats : ∀ r < n, env'.floats r = env.floats r
  flags : ∀ r < n, env'.flags r = env.flags r
  ints : ∀ r < n, env'.ints r = env.ints r

namespace Env.Below

variable {n n' : Nat} {env env' env'' : Env D F W}

theorem refl : Env.Below n env env := ⟨fun _ _ => rfl, fun _ _ => rfl, fun _ _ => rfl⟩

theorem trans (hle : n ≤ n') (h : Env.Below n env env') (h' : Env.Below n' env' env'') :
    Env.Below n env env'' where
  floats r hr := (h'.floats r (by omega)).trans (h.floats r hr)
  flags r hr := (h'.flags r (by omega)).trans (h.flags r hr)
  ints r hr := (h'.ints r (by omega)).trans (h.ints r hr)

theorem setFloat {r : Nat} (h : n ≤ r) (env : Env D F W) (x : D) :
    Env.Below n env (env.setFloat r x) where
  floats k hk := if_neg (show k ≠ r by omega)
  flags _ _ := rfl
  ints _ _ := rfl

theorem setFlag {r : Nat} (h : n ≤ r) (env : Env D F W) (x : Bool) :
    Env.Below n env (env.setFlag r x) where
  floats _ _ := rfl
  flags k hk := if_neg (show k ≠ r by omega)
  ints _ _ := rfl

theorem setInt {r : Nat} (h : n ≤ r) (env : Env D F W) (x : Int) :
    Env.Below n env (env.setInt r x) where
  floats _ _ := rfl
  flags _ _ := rfl
  ints k hk := if_neg (show k ≠ r by omega)

end Env.Below

end AroundTheWorld.Mlir
