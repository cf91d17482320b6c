import AroundTheWorld.Base.Gen
import AroundTheWorld.Athens.GrammarPack
import AroundTheWorld.Llvm.Builder

/-!
# Athens code generation

The `codegen` methods of the AST over the globals they share. A method returns a
value, a null pointer, or does not return at all: a failed assertion, a null
pointer that is dereferenced, a `static_cast` to the wrong class.
-/

namespace AroundTheWorld.Athens

open AroundTheWorld.Base AroundTheWorld.Lex AroundTheWorld.Llvm

/-- `FunctionProtos`, whose keys are always the names of the prototypes. -/
structure ProtoTable where
  find : Name → Option PrototypeAST
  named : ∀ name p, find name = some p → p.name = name

namespace ProtoTable

def empty : ProtoTable := ⟨fun _ => none, by simp⟩

/-- `FunctionProtos[p.getName()] = p`. -/
def insert (table : ProtoTable) (p : PrototypeAST) : ProtoTable where
  find name := if name = p.name then some p else table.find name
  named name q h := by
    split at h
    · rename_i heq
      cases h
      exact heq.symm
    · exact table.named name q h

end ProtoTable

/-- The functions of `TheModule` by name, each with the names of its arguments. -/
abbrev Module := Name → Option (List Name)

structure AthensState (D : Type) where
  builder : Builder D Name := .entry
  namedValues : Name → Option Nat := fun _ => none
  theModule : Module := fun _ => none
  functionProtos : ProtoTable := .empty
  binopPrecedence : BinopTable := fun _ => none
  errors : List Text := []

/-- Why a call of `codegen` does not return. -/
inductive Abort where
  | nullDereference
  | badCast
  | binaryOperatorNotFound
  | badSignature
  deriving DecidableEq, Repr

abbrev AthensGen (D α : Type) := Gen (AthensState D) Abort α

variable {D : Type}

/-- `LogErrorV`. -/
def logErrorV {α : Type} (str : Text) : AthensGen D α := fun s =>
  .null { s with errors := s.errors ++ [str] }

/-- A builder function that returns something. -/
def build {α : Type} (f : Builder D Name → α × Builder D Name) : AthensGen D α := fun s =>
  .ok (f s.builder).1 { s with builder := (f s.builder).2 }

/-- A builder function that returns nothing. -/
def buildUnit (f : Builder D Name → Builder D Name) : AthensGen D Unit := fun s =>
  .ok () { s with builder := f s.builder }

def getInsertBlock : AthensGen D Nat := fun s => .ok s.builder.insertBlock s

/-- `NamedValues[name]` read: absent and null alike are `none`. -/
def lookupName (name : Name) : AthensGen D (Option Nat) := fun s => .ok (s.namedValues name) s

/-- `NamedValues[name] = cell`, or its removal. -/
def bindName (name : Name) (cell : Option Nat) : AthensGen D Unit := fun s =>
  .ok () { s with namedValues := fun k => if k = name then cell else s.namedValues k }

/-! ## Functions -/

/-- `LastUnique` counts up until the name with the number behind it is free. -/
def uniqueSuffix (taken : List Name) (base : Name) (lastUnique : Nat) : Nat :=
  (((List.range (taken.length + 1)).map (lastUnique + 1 + ·)).find? fun k =>
    !taken.contains (base ++ text (toString k))).getD 0

/-- `setName` on the arguments in order: a name that is taken gets a number. -/
def setArgNames : Nat → List Name → List Name → List Name
  | _, _, [] => []
  | lastUnique, taken, arg :: args =>
    if taken.contains arg then
      let k := uniqueSuffix taken arg lastUnique
      let arg' := arg ++ text (toString k)
      arg' :: setArgNames k (arg' :: taken) args
    else arg :: setArgNames lastUnique (arg :: taken) args

/-- `PrototypeAST::codegen`, with the names of the arguments as the function. A
function whose name is taken gets a name with a dot in it, which no name that
the front end looks up has. -/
def PrototypeAST.codegen (p : PrototypeAST) : AthensGen D (List Name) := fun s =>
  let args := setArgNames 0 [] p.args
  match s.theModule p.name with
  | some _ => .ok args s
  | none => .ok args
      { s with theModule := fun name => if name = p.name then some args else s.theModule name }

def getFunction (name : Name) : AthensGen D (Option (List Name)) := fun s =>
  match s.theModule name with
  | some args => .ok (some args) s
  | none =>
    match s.functionProtos.find name with
    | some p => (do
        let args ← p.codegen
        pure (some args)) s
    | none => .ok none s

/-- `Builder->CreateCall`, which asserts that the signature fits. -/
def createCall (callee : Name) (params : List Name) (args : List (Operand D)) :
    AthensGen D (Operand D) :=
  if params.length = args.length then build (·.createCall callee args) else Gen.abort .badSignature

/-! ## Expressions -/

section
variable (ops : FloatOps D)

/-- `BinaryExprAST::handleAssignment`; a left side of another class is cast
unchecked. -/
def handleAssignment (lhs : ExprAST D) (rhs : AthensGen D (Operand D)) : AthensGen D (Operand D) :=
  match lhs with
  | .null => logErrorV (text "lhs of = must be a variable")
  | .variableExpr name => do
    let val ← rhs
    let variable_ ← lookupName name
    match variable_ with
    | none => logErrorV (text "unknown variable name" ++ name ++ text "\n")
    | some cell => do
      buildUnit (·.createStore val cell)
      pure val
  | _ => Gen.abort .badCast

/-- The `switch` of `BinaryExprAST::codegen` and what follows it. -/
def binaryOp (op : Byte) (l r : Operand D) : AthensGen D (Operand D) :=
  if op = byte '+' then build fun b => Builder.createFBin ops .fadd b l r
  else if op = byte '-' then build fun b => Builder.createFBin ops .fsub b l r
  else if op = byte '*' then build fun b => Builder.createFBin ops .fmul b l r
  else if op = byte '<' then do
    let flag ← build fun b => Builder.createFCmp ops .ult b l r
    build fun b => Builder.createUIToFP ops b flag
  else do
    let f ← getFunction (text "binary" ++ [op])
    match f with
    | none => Gen.abort .binaryOperatorNotFound
    | some params => createCall (text "binary" ++ [op]) params [l, r]

/-- The restoring loop of `VarExprAST::codegen`, from the first name on. -/
def restoreNames : List Name → List (Option Nat) → AthensGen D Unit
  | name :: names, old :: olds => do
    bindName name old
    restoreNames names olds
  | _, _ => pure ()

mutual

def codegen : ExprAST D → AthensGen D (Operand D)
  | .null => Gen.abort .nullDereference
  | .numberExpr val => pure (.const val)
  | .variableExpr name => do
    let a ← lookupName name
    match a with
    | none => logErrorV (text "Unknown variable name")
    | some a => build (·.createLoad a)
  | .unaryExpr op operand => do
    let operandV ← codegen operand
    let f ← getFunction (text "unary" ++ [op])
    match f with
    | none => logErrorV (text "Unknown unary operator: " ++ [op] ++ text "\n")
    | some params => createCall (text "unary" ++ [op]) params [operandV]
  | .binaryExpr op lhs rhs =>
    if op = byte '=' then handleAssignment lhs (codegen rhs)
    else do
      -- both sides are generated before either pointer is tested
      let l ← Gen.attempt (codegen lhs)
      let r ← Gen.attempt (codegen rhs)
      match l, r with
      | some l, some r => binaryOp ops op l r
      | _, _ => Gen.null
  | .callExpr callee args => do
    let f ← getFunction callee
    match f with
    | none => logErrorV (text "Unknown function referenced")
    | some params =>
      if params.length ≠ args.length then logErrorV (text "Incorrect # arguments passed")
      else do
        let argsV ← codegenArgs args
        createCall callee params argsV
  | .ifExpr cond then_ else_ => do
    let condV ← codegen cond
    let flag ← build fun b => Builder.createFCmp ops .one b condV (.const ops.zero)
    let thenBB ← build (·.createBlockIn)
    let elseBB ← build (·.createBlock)
    let mergeBB ← build (·.createBlock)
    buildUnit (·.createCondBr flag thenBB elseBB)
    buildUnit (·.setInsertPoint thenBB)
    let thenV ← codegen then_
    buildUnit (·.createBr mergeBB)
    let thenEnd ← getInsertBlock
    buildUnit (·.appendBlock elseBB)
    buildUnit (·.setInsertPoint elseBB)
    let elseV ← codegen else_
    buildUnit (·.createBr mergeBB)
    let elseEnd ← getInsertBlock
    buildUnit (·.appendBlock mergeBB)
    buildUnit (·.setInsertPoint mergeBB)
    build (·.createPhi [(thenV, thenEnd), (elseV, elseEnd)])
  | .forExpr varName start end_ step body => do
    let alloca ← build (·.createAlloca)
    let startVal ← codegen start
    buildUnit (·.createStore startVal alloca)
    let loopBB ← build (·.createBlockIn)
    buildUnit (·.createBr loopBB)
    buildUnit (·.setInsertPoint loopBB)
    let oldVal ← lookupName varName
    bindName varName (some alloca)
    let _ ← codegen body
    let stepVal ← (if step.isNull then pure (.const ops.unit) else codegen step)
    let endV ← codegen end_
    let endCond ← build fun b => Builder.createFCmp ops .one b endV (.const ops.zero)
    let curVal ← build (·.createLoad alloca)
    let nextVar ← build fun b => Builder.createFBin ops .fadd b curVal stepVal
    buildUnit (·.createStore nextVar alloca)
    let afterBB ← build (·.createBlockIn)
    buildUnit (·.createCondBr endCond loopBB afterBB)
    buildUnit (·.setInsertPoint afterBB)
    bindName varName oldVal
    pure (.const ops.zero)
  | .varExpr varNames body => do
    let oldBindings ← codegenBindings varNames
    let bodyVal ← codegen body
    restoreNames (varNames.map (·.1)) oldBindings
    pure bodyVal

/-- The argument loop of `CallExprAST::codegen`. -/
def codegenArgs : List (ExprAST D) → AthensGen D (List (Operand D))
  | [] => pure []
  | arg :: args => do
    let v ← codegen arg
    let vs ← codegenArgs args
    pure (v :: vs)

/-- The first loop of `VarExprAST::codegen`; the result is `OldBindings`. -/
def codegenBindings : List (Name × ExprAST D) → AthensGen D (List (Option Nat))
  | [] => pure []
  | (varName, init) :: rest => do
    let initVal ← (if init.isNull then pure (.const ops.zero) else codegen init)
    let alloca ← build (·.createAlloca)
    buildUnit (·.createStore initVal alloca)
    let old ← lookupName varName
    bindName varName (some alloca)
    let olds ← codegenBindings rest
    pure (old :: olds)

end

/-! ## Function definitions -/

/-- The function that `FunctionAST::codegen` returns a pointer to, with the value
that its last block returns. -/
structure FunctionIR (D : Type) where
  name : Name
  args : List Name
  body : Builder D Name
  retVal : Operand D

/-- `FunctionProtos[p.getName()] = p`. -/
def registerProto (p : PrototypeAST) : AthensGen D Unit := fun s =>
  .ok () { s with functionProtos := s.functionProtos.insert p }

/-- `BinopPrecedence` at the operator of `p`, when it is a binary one. -/
def setOperator (p : PrototypeAST) (precedence : Option Int) : AthensGen D Unit := fun s =>
  if p.isBinaryOp then
    .ok () { s with binopPrecedence := s.binopPrecedence.set p.getOperatorName precedence }
  else .ok () s

/-- A new entry block for a function with this many arguments, and an empty
symbol table. -/
def enterFunction (argc : Nat) : AthensGen D Unit := fun s =>
  .ok () { s with builder := { Builder.entry with nextReg := argc }, namedValues := fun _ => none }

/-- The loop over the arguments; the arguments are the first registers. -/
def codegenParams : Nat → List Name → AthensGen D Unit
  | _, [] => pure ()
  | reg, arg :: args => do
    let alloca ← build (·.createAlloca)
    buildUnit (·.createStore (.reg reg) alloca)
    bindName arg (some alloca)
    codegenParams (reg + 1) args

/-- `eraseFromParent`. -/
def eraseFunction (name : Name) : AthensGen D Unit := fun s =>
  .ok () { s with theModule := fun k => if k = name then none else s.theModule k }

def getBuilder : AthensGen D (Builder D Name) := fun s => .ok s.builder s

def FunctionAST.codegen (f : FunctionAST D) : AthensGen D (FunctionIR D) := do
  registerProto f.proto
  let theFunction ← getFunction f.proto.name
  match theFunction with
  | none => Gen.null
  | some args => do
    setOperator f.proto (some f.proto.getBinaryPrecedence)
    enterFunction args.length
    codegenParams 0 args
    let retVal ← Gen.attempt (Athens.codegen ops f.body)
    match retVal with
    | some retVal => do
      let body ← getBuilder
      pure ⟨f.proto.name, args, body, retVal⟩
    | none => do
      -- error reading the body: the function and the operator are removed
      eraseFunction f.proto.name
      setOperator f.proto none
      Gen.null

-- The equations are generated here, once, for all the proofs that ask for them.
attribute [local simp] codegen codegenArgs codegenBindings

end

end AroundTheWorld.Athens
