import AroundTheWorld.Base.Gen
import AroundTheWorld.Athens.Ast
import AroundTheWorld.Llvm.Ir
import AroundTheWorld.Mlir.Builder

/-!
# Berlin's code generation

`MLIRGen` on expressions of the Athens AST. A method returns a value, a null
value, or does not return: a null pointer is dereferenced, an operation is
created in a block that has been erased.
-/

namespace AroundTheWorld.Berlin

open AroundTheWorld.Base AroundTheWorld.Lex AroundTheWorld.Mlir
open AroundTheWorld.Athens (ExprAST Name)
open AroundTheWorld.Llvm (FloatOps)

structure BerlinState (D : Type) where
  builder : OpBuilder D Name := {}
  namedValues : Name → Option Nat := fun _ => none
  errors : List Text := []

inductive Abort where
  | nullDereference
  | insertIntoErased
  deriving DecidableEq, Repr

abbrev BerlinGen (D α : Type) := Gen (BerlinState D) Abort α

variable {D : Type}

/-- A line on `std::cerr`, and a null value. -/
def complain {α : Type} (line : Text) : BerlinGen D α := fun s =>
  .null { s with errors := s.errors ++ [line] }

/-- `builder_.create` for an operation without result. -/
def createOp (op : Op D Name) : BerlinGen D Unit := fun s =>
  match s.builder.insert op with
  | none => .abort .insertIntoErased
  | some builder => .ok () { s with builder }

def newValue : BerlinGen D Nat := fun s =>
  .ok s.builder.newValue.1 { s with builder := s.builder.newValue.2 }

def newBlock : BerlinGen D Nat := fun s =>
  .ok s.builder.newBlock.1 { s with builder := s.builder.newBlock.2 }

/-- `builder_.create` for an operation with one result. -/
def create (op : Nat → Op D Name) : BerlinGen D Nat := do
  let dst ← newValue
  createOp (op dst)
  pure dst

def getInsertPoint : BerlinGen D InsertPoint := fun s => .ok s.builder.insertPoint s

def setInsertPoint (p : InsertPoint) : BerlinGen D Unit := fun s =>
  .ok () { s with builder := s.builder.setInsertPoint p }

def eraseLast (p : InsertPoint) : BerlinGen D Unit := fun s =>
  .ok () { s with builder := s.builder.eraseLast p }

/-- `namedValues_.find`. -/
def lookupName (name : Name) : BerlinGen D (Option Nat) := fun s => .ok (s.namedValues name) s

/-- `namedValues_[name] = value`, or `namedValues_.erase(name)`. -/
def bindName (name : Name) (value : Option Nat) : BerlinGen D Unit := fun s =>
  .ok () { s with namedValues := fun k => if k = name then value else s.namedValues k }

section
variable (ops : FloatOps D)

def defaultF64Zero : BerlinGen D Nat := create (.constant · ops.zero)

/-- The assignment branch of `genBinary`. -/
def genAssignment (lhs : ExprAST D) (rhs : BerlinGen D Nat) : BerlinGen D Nat :=
  match lhs with
  | .null => Gen.abort .nullDereference
  | .variableExpr name => do
    let rhs ← rhs
    let it ← lookupName name
    match it with
    | none => complain (text "Unknown variable in assignment: " ++ name ++ text "\n")
    | some memref => do
      createOp (.store rhs memref)
      pure rhs
  | _ => complain (text "LHS of = must be a variable\n")

/-- The `switch` of `genBinary`. -/
def binaryOp (op : Byte) (lhs rhs : Nat) : BerlinGen D Nat :=
  if op = byte '+' then create (.arith .addf · lhs rhs)
  else if op = byte '-' then create (.arith .subf · lhs rhs)
  else if op = byte '*' then create (.arith .mulf · lhs rhs)
  else if op = byte '<' then do
    let cmp ← create (.cmpf .ult · lhs rhs)
    let ext ← create (.extui · cmp)
    create (.sitofp · ext)
  else complain (text "Unknown binary operator: " ++ [op] ++ text "\n")

/-- The part of `genUnary` behind the operand. -/
def unaryOp (op : Byte) (operand : Nat) : BerlinGen D Nat :=
  if op = byte '-' then do
    let zeroVal ← defaultF64Zero ops
    create (.arith .subf · zeroVal operand)
  else create (.call · (text "unary" ++ [op]) [operand])

/-- The part of `genFor` behind the bounds and the step. -/
def genLoop (varName : Name) (startF64 endF64 stepF64 : Nat) (body : BerlinGen D Nat) :
    BerlinGen D Nat := do
  let startI64 ← create (.fptosi · startF64)
  let endI64 ← create (.fptosi · endF64)
  let stepI64 ← create (.fptosi · stepF64)
  let lb ← create (.indexCast · startI64)
  let ub ← create (.indexCast · endI64)
  let step ← create (.indexCast · stepI64)
  let after ← getInsertPoint
  let bodyBlock ← newBlock
  let iv ← newValue
  createOp (.forOp lb ub step iv bodyBlock)
  setInsertPoint (.atEnd bodyBlock)
  let ivI64 ← create (.indexCast · iv)
  let ivF64 ← create (.sitofp · ivI64)
  let varAlloca ← create .alloca
  createOp (.store ivF64 varAlloca)
  let saved ← lookupName varName
  bindName varName (some varAlloca)
  let bodyVal ← Gen.attempt body
  bindName varName saved
  match bodyVal with
  | none => do
    -- the builder goes on pointing into the erased loop
    eraseLast after
    Gen.null
  | some _ => do
    setInsertPoint after
    defaultF64Zero ops

/-- The restoring loop of `genVar`, from the first binding on. -/
def restoreNames : List (Name × Option Nat) → BerlinGen D Unit
  | [] => pure ()
  | (name, oldVal) :: oldBindings => do
    bindName name oldVal
    restoreNames oldBindings

mutual

def gen : ExprAST D → BerlinGen D Nat
  | .null => Gen.abort .nullDereference
  | .numberExpr val => create (.constant · val)
  | .variableExpr name => do
    let it ← lookupName name
    match it with
    | none => complain (text "Unknown variable: " ++ name ++ text "\n")
    | some memref => create (.load · memref)
  | .binaryExpr op lhs rhs =>
    if op = byte '=' then genAssignment lhs (gen rhs)
    else do
      -- both sides are generated before either value is tested
      let lhs ← Gen.attempt (gen lhs)
      let rhs ← Gen.attempt (gen rhs)
      match lhs, rhs with
      | some lhs, some rhs => binaryOp op lhs rhs
      | _, _ => Gen.null
  | .unaryExpr op operand => do
    let operand ← gen operand
    unaryOp ops op operand
  | .ifExpr cond then_ else_ => do
    let cond ← gen cond
    let zeroVal ← defaultF64Zero ops
    let i1 ← create (.cmpf .une · cond zeroVal)
    let after ← getInsertPoint
    let thenBlock ← newBlock
    let elseBlock ← newBlock
    let result ← create (.ifOp · i1 thenBlock elseBlock)
    setInsertPoint (.atEnd thenBlock)
    let thenVal ← gen then_
    createOp (.yieldOp thenVal)
    setInsertPoint (.atEnd elseBlock)
    let elseVal ← gen else_
    createOp (.yieldOp elseVal)
    setInsertPoint after
    pure result
  | .forExpr varName start end_ step body => do
    let startF64 ← Gen.attempt (gen start)
    let endF64 ← Gen.attempt (gen end_)
    match startF64, endF64 with
    | some startF64, some endF64 => do
      let stepF64 ← (if step.isNull then create (.constant · ops.unit) else gen step)
      genLoop ops varName startF64 endF64 stepF64 (gen body)
    | _, _ => Gen.null
  | .callExpr callee args => do
    let args ← genArgs args
    create (.call · callee args)
  | .varExpr varNames body => do
    let oldBindings ← genBindings varNames
    let bodyVal ← Gen.attempt (gen body)
    restoreNames oldBindings
    match bodyVal with
    | none => Gen.null
    | some v => pure v

/-- The argument loop of `genCall`. -/
def genArgs : List (ExprAST D) → BerlinGen D (List Nat)
  | [] => pure []
  | arg :: args => do
    let argVal ← gen arg
    let argVals ← genArgs args
    pure (argVal :: argVals)

/-- The first loop of `genVar`. -/
def genBindings : List (Name × ExprAST D) → BerlinGen D (List (Name × Option Nat))
  | [] => pure []
  | (name, init) :: rest => do
    let initVal ← (if init.isNull then defaultF64Zero ops else gen init)
    let alloca ← create .alloca
    createOp (.store initVal alloca)
    let it ← lookupName name
    bindName name (some alloca)
    let oldBindings ← genBindings rest
    pure ((name, it) :: oldBindings)

end

-- The equations are generated here, once, for all the proofs that ask for them.
attribute [local simp] gen genArgs genBindings

end

end AroundTheWorld.Berlin
