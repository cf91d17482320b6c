import AroundTheWorld.Llvm.IntOps
import AroundTheWorld.Mlir.Builder

/-!
# Running MLIR

Operations without regions change an environment that has the SSA values by type,
the memory behind the `memref`s, the world that calls change, and the calls that
have returned. An `scf.if` runs one of its two blocks. An `scf.for` tests
`lower bound + k * step < upper bound` before its `k`-th iteration, from zero on;
the iterations are given on their own, and a block with a loop is not run further.
-/

namespace AroundTheWorld.Mlir

open AroundTheWorld.Llvm (IntOps FloatOps Callees)

structure Env (D F W : Type) where
  floats : Nat → D
  flags : Nat → Bool
  ints : Nat → Int
  cells : Nat → D
  world : W
  calls : List (F × List D)

variable {D F W : Type}

namespace Env

def setFloat (env : Env D F W) (r : Nat) (d : D) : Env D F W :=
  { env with floats := fun k => if k = r then d else env.floats k }

def setFlag (env : Env D F W) (r : Nat) (b : Bool) : Env D F W :=
  { env with flags := fun k => if k = r then b else env.flags k }

def setInt (env : Env D F W) (r : Nat) (n : Int) : Env D F W :=
  { env with ints := fun k => if k = r then n else env.ints k }

def setCell (env : Env D F W) (c : Nat) (d : D) : Env D F W :=
  { env with cells := fun k => if k = c then d else env.cells k }

end Env

def arith (ops : FloatOps D) : ArithOp → D → D → D
  | .addf => ops.add
  | .subf => ops.sub
  | .mulf => ops.mul

def cmpf (ops : IntOps D) : CmpFPredicate → D → D → Bool
  | .ult => ops.ult
  | .une => ops.une

variable (ops : IntOps D) (callees : Callees D F W)

/-- One operation without regions; none for the others and for a call that does
not return. -/
def Op.run (env : Env D F W) : Op D F → Option (Env D F W)
  | .constant dst val => some (env.setFloat dst val)
  | .alloca _ => some env
  | .load dst memref => some (env.setFloat dst (env.cells memref))
  | .store val memref => some (env.setCell memref (env.floats val))
  | .arith op dst lhs rhs =>
    some (env.setFloat dst (Mlir.arith ops.toFloatOps op (env.floats lhs) (env.floats rhs)))
  | .cmpf pred dst lhs rhs =>
      some (env.setFlag dst (Mlir.cmpf ops pred (env.floats lhs) (env.floats rhs)))
  | .extui dst src => some (env.setInt dst (if env.flags src then 1 else 0))
  | .sitofp dst src => some (env.setFloat dst (ops.sitofp (env.ints src)))
  | .fptosi dst src => some (env.setInt dst (ops.fptosi (env.floats src)))
  | .indexCast dst src => some (env.setInt dst (env.ints src))
  | .call dst callee args =>
    (callees callee (args.map env.floats) env.world).map fun (d, world) =>
      { env.setFloat dst d with world, calls := env.calls ++ [(callee, args.map env.floats)] }
  | .ifOp _ _ _ _ => none
  | .yieldOp _ => none
  | .forOp _ _ _ _ _ => none
  | .funcOp _ => none
  | .returnOp _ => none

/-! ## Loops -/

/-- The value of the induction variable in the `k`-th iteration of an `scf.for`,
which takes place below the upper bound. -/
def forIv (lb ub step : Int) (k : Nat) : Option Int :=
  if lb + k * step < ub then some (lb + k * step) else none

/-- The operations in front of a loop, and the loop. -/
def untilFor (env : Env D F W) : List (Op D F) → Option (Env D F W × Op D F)
  | [] => none
  | .forOp lb ub step iv body :: _ => some (env, .forOp lb ub step iv body)
  | op :: rest => (op.run ops callees env).bind fun env => untilFor env rest

/-- What the first store puts into its cell. -/
def untilStore (env : Env D F W) : List (Op D F) → Option D
  | [] => none
  | .store val _ :: _ => some (env.floats val)
  | op :: rest => (op.run ops callees env).bind fun env => untilStore env rest

/-- The loop variable, which the body of a loop begins by storing, in the `k`-th
iteration of the first loop among `code`. -/
def loopVariable (blocks : Nat → List (Op D F)) (env : Env D F W) (code : List (Op D F)) (k : Nat) :
    Option D :=
  (untilFor ops callees env code).bind fun (env, op) =>
    match op with
    | .forOp lb ub step iv body =>
      (forIv (env.ints lb) (env.ints ub) (env.ints step) k).bind fun n =>
        untilStore ops callees (env.setInt iv n) (blocks body)
    | _ => none

end AroundTheWorld.Mlir
