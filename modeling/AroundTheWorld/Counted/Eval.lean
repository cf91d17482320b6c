import AroundTheWorld.Athens.Ast
import AroundTheWorld.Base.Linking
import AroundTheWorld.Base.Locals
import AroundTheWorld.Llvm.IntOps

/-!
# What expressions mean whose loops count

Berlin and Cairo turn the bounds and the step of a loop into integers in front of it, and
count. What else they do differently is up to the dialect: the step of a loop that has
none, whether the end is tested before the first iteration, how the counter is increased,
unary operators and calls. Names are kept with their values, innermost first. `eval N`
allows `N` tests of each loop.
-/

namespace AroundTheWorld.Counted

open AroundTheWorld.Base AroundTheWorld.Lex AroundTheWorld.Llvm
open AroundTheWorld.Athens (ExprAST Name)

structure State (D W : Type) where
  locals : List (Name × D)
  world : W
  calls : List (Name × List D)

namespace State

variable {D W : Type}

def push (st : State D W) (name : Name) (x : D) : State D W :=
  { st with locals := (name, x) :: st.locals }

def pop (st : State D W) (n : Nat) : State D W := { st with locals := st.locals.drop n }

def read (st : State D W) (name : Name) : Option D := st.locals.lookup name

def write (st : State D W) (name : Name) (x : D) : Option (State D W) :=
  (assign name x st.locals).map fun locals => { st with locals }

end State

abbrev Meaning (D W : Type) := State D W → Option (D × State D W)

structure Dialect (D W : Type) where
  ops : IntOps D
  noStep : D
  /-- Whether there is a first iteration, from the bounds. -/
  first : Int → Int → Bool
  next : Int → Int → Int
  unary : Byte → D → Meaning D W
  /-- A call, from its arguments and from what these mean. -/
  call : Name → List (ExprAST D) → List (Meaning D W) → Meaning D W

section
variable {D W : Type}

/-- A call that comes back is recorded. -/
def callFunction (callees : Callees D Name W) (callee : Name) (args : List D) : Meaning D W :=
  fun st => (callees callee args st.world).map fun r =>
    (r.1, { st with world := r.2, calls := st.calls ++ [(callee, args)] })

/-- The arguments of a call, in order. -/
def evalAll : List (Meaning D W) → State D W → Option (List D × State D W)
  | [], st => some ([], st)
  | m :: ms, st => (m st).bind fun r => (evalAll ms r.2).map fun rs => (r.1 :: rs.1, rs.2)

variable (d : Dialect D W)

def evalBinary (op : Byte) (x y : D) (st : State D W) : Option (D × State D W) :=
  if op = byte '+' then some (d.ops.add x y, st)
  else if op = byte '-' then some (d.ops.sub x y, st)
  else if op = byte '*' then some (d.ops.mul x y, st)
  else if op = byte '<' then some (d.ops.uitofp (d.ops.ult x y), st)
  else none

def evalAssignment (lhs : ExprAST D) (x : D) (st : State D W) : Option (D × State D W) :=
  match lhs with
  | .variableExpr name => (st.write name x).map fun st => (x, st)
  | _ => none

/-- One iteration, for the value `p.1` of the counter, and whether there is another. -/
def iteration (varName : Name) (ub step : Int) (body : Meaning D W) (p : Int × State D W) :
    Option (Bool × Int × State D W) :=
  (body (p.2.push varName (d.ops.sitofp p.1))).map fun r =>
    (decide (d.next p.1 step < ub), d.next p.1 step, r.2.pop 1)

def loop (N : Nat) (varName : Name) (lb ub step : Int) (body : Meaning D W) (st : State D W) :
    Option (State D W) :=
  (whileLoop (fun p => p.1) (fun p => iteration d varName ub step body p.2) N
    (d.first lb ub, lb, st)).map fun p => p.2.2

variable (N : Nat)

mutual

def eval : ExprAST D → Meaning D W
  | .null => fun _ => none
  | .numberExpr val => fun st => some (val, st)
  | .variableExpr name => fun st => (st.read name).map fun x => (x, st)
  | .unaryExpr op operand => fun st => (eval operand st).bind fun r => d.unary op r.1 r.2
  | .binaryExpr op lhs rhs => fun st =>
    if op = byte '=' then (eval rhs st).bind fun r => evalAssignment lhs r.1 r.2
    else (eval lhs st).bind fun l => (eval rhs l.2).bind fun r => evalBinary d op l.1 r.1 r.2
  | .callExpr callee args => d.call callee args (evals args)
  | .ifExpr cond then_ else_ => fun st =>
    (eval cond st).bind fun r =>
      if d.ops.une r.1 d.ops.zero then eval then_ r.2 else eval else_ r.2
  | .forExpr varName start end_ step body => fun st =>
    (eval start st).bind fun x =>
    (eval end_ x.2).bind fun y =>
    (if step.isNull then some (d.noStep, y.2) else eval step y.2).bind fun z =>
    (loop d N varName (d.ops.fptosi x.1) (d.ops.fptosi y.1) (d.ops.fptosi z.1) (eval body)
      z.2).map fun st => (d.ops.zero, st)
  | .varExpr varNames body => fun st =>
    (evalBindings varNames st).bind fun st' =>
    (eval body st').map fun r => (r.1, r.2.pop varNames.length)

def evals : List (ExprAST D) → List (Meaning D W)
  | [] => []
  | arg :: args => eval arg :: evals args

/-- Each initialiser sees the names before it, and not its own. -/
def evalBindings : List (Name × ExprAST D) → State D W → Option (State D W)
  | [], st => some st
  | (name, init) :: rest, st =>
    (if init.isNull then some (d.ops.zero, st) else eval init st).bind fun r =>
    evalBindings rest (r.2.push name r.1)

end

-- The equations are generated here, once, for all the proofs that ask for them.
attribute [local simp] eval evals evalBindings

end

end AroundTheWorld.Counted
