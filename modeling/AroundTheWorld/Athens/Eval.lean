import AroundTheWorld.Base.While
import AroundTheWorld.Athens.Ast
import AroundTheWorld.Llvm.Ir

/-!
# What Athens expressions mean

A reference evaluation that knows nothing of blocks and registers. Names bound by
`var` and `for` are kept with their values, innermost first; other names stand
for cells of a memory. `eval N` allows `N` tests of the condition of each loop: an
expression that does not terminate is one without a result under every bound.
-/

namespace AroundTheWorld.Athens

open AroundTheWorld.Base AroundTheWorld.Lex AroundTheWorld.Llvm

structure EvalState (D W : Type) where
  locals : List (Name × D)
  mem : Nat → D
  world : W
  calls : List (Name × List D)

namespace EvalState

variable {D W : Type}

def push (st : EvalState D W) (name : Name) (x : D) : EvalState D W :=
  { st with locals := (name, x) :: st.locals }

def pop (st : EvalState D W) (n : Nat) : EvalState D W := { st with locals := st.locals.drop n }

/-- The innermost name, a loop variable, is increased. -/
def bump (st : EvalState D W) (ops : FloatOps D) (inc : D) : EvalState D W :=
  match st.locals with
  | [] => st
  | (name, x) :: locals => { st with locals := (name, ops.add x inc) :: locals }

end EvalState

section
variable {D W : Type} (ops : FloatOps D) (callees : Callees D Name W) (table : Name → Option Nat)

def readName (name : Name) (st : EvalState D W) : Option D :=
  match st.locals.lookup name with
  | some x => some x
  | none => (table name).map st.mem

/-- The innermost local of a name with a new value. -/
def updateLocal (name : Name) (x : D) : List (Name × D) → Option (List (Name × D))
  | [] => none
  | (y, old) :: locals =>
    if y = name then some ((y, x) :: locals) else (updateLocal name x locals).map ((y, old) :: ·)

def writeName (name : Name) (x : D) (st : EvalState D W) : Option (EvalState D W) :=
  match updateLocal name x st.locals with
  | some locals => some { st with locals }
  | none => (table name).map fun c => { st with mem := fun k => if k = c then x else st.mem k }

/-- A call that returns is recorded. -/
def evalCall (callee : Name) (args : List D) (st : EvalState D W) : Option (D × EvalState D W) :=
  (callees callee args st.world).map fun (x, world) =>
    (x, { st with world, calls := st.calls ++ [(callee, args)] })

def evalBinary (op : Byte) (x y : D) (st : EvalState D W) : Option (D × EvalState D W) :=
  if op = byte '+' then some (ops.add x y, st)
  else if op = byte '-' then some (ops.sub x y, st)
  else if op = byte '*' then some (ops.mul x y, st)
  else if op = byte '<' then some (if ops.ult x y then ops.unit else ops.zero, st)
  else evalCall callees (text "binary" ++ [op]) [x, y] st

/-- What an assignment does with the result of its right side. -/
def evalAssignment (lhs : ExprAST D) (rhs : Option (D × EvalState D W)) :
    Option (D × EvalState D W) :=
  match lhs with
  | .variableExpr name => rhs.bind fun (x, st) => (writeName table name x st).map fun st => (x, st)
  | _ => none

/-- One iteration of a loop, and whether there is another: the end is tested
before the variable is increased, and after the body. -/
def evalIteration (body step end_ : EvalState D W → Option (D × EvalState D W))
    (st : EvalState D W) : Option (Bool × EvalState D W) :=
  (body st).bind fun (_, st) =>
  (step st).bind fun (inc, st) =>
  (end_ st).map fun (test, st) => (ops.one test ops.zero, st.bump ops inc)

/-- The first iteration is not tested for. -/
def evalLoop (N : Nat) (iteration : EvalState D W → Option (Bool × EvalState D W))
    (st : EvalState D W) : Option (EvalState D W) :=
  (whileLoop (fun p => p.1) (fun p => iteration p.2) N (true, st)).map fun p => p.2

variable (N : Nat)

mutual

def eval : ExprAST D → EvalState D W → Option (D × EvalState D W)
  | .null, _ => none
  | .numberExpr val, st => some (val, st)
  | .variableExpr name, st => (readName table name st).map fun x => (x, st)
  | .unaryExpr op operand, st =>
    (eval operand st).bind fun (x, st) => evalCall callees (text "unary" ++ [op]) [x] st
  | .binaryExpr op lhs rhs, st =>
    if op = byte '=' then evalAssignment table lhs (eval rhs st)
    else
      (eval lhs st).bind fun (x, st) =>
      (eval rhs st).bind fun (y, st) => evalBinary ops callees op x y st
  | .callExpr callee args, st =>
    (evalArgs args st).bind fun (xs, st) => evalCall callees callee xs st
  | .ifExpr cond then_ else_, st =>
    (eval cond st).bind fun (x, st) => if ops.one x ops.zero then eval then_ st else eval else_ st
  | .forExpr varName start end_ step body, st =>
    (eval start st).bind fun (x, st) =>
    (evalLoop N (evalIteration ops (eval body)
      (fun st => if step.isNull then some (ops.unit, st) else eval step st) (eval end_))
        (st.push varName x)).map fun st => (ops.zero, st.pop 1)
  | .varExpr varNames body, st =>
    (evalBindings varNames st).bind fun st =>
    (eval body st).map fun (x, st) => (x, st.pop varNames.length)

def evalArgs : List (ExprAST D) → EvalState D W → Option (List D × EvalState D W)
  | [], st => some ([], st)
  | arg :: args, st =>
    (eval arg st).bind fun (x, st) => (evalArgs args st).map fun (xs, st) => (x :: xs, st)

/-- Each initialiser sees the names before it, and not its own. -/
def evalBindings : List (Name × ExprAST D) → EvalState D W → Option (EvalState D W)
  | [], st => some st
  | (name, init) :: rest, st =>
    (if init.isNull then some (ops.zero, st) else eval init st).bind fun (x, st) =>
    evalBindings rest (st.push name x)

end

-- The equations are generated here, once, for all the proofs that ask for them.
attribute [local simp] eval evalArgs evalBindings

end

end AroundTheWorld.Athens
