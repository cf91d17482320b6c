import AroundTheWorld.Cairo.Ir

/-!
# Cairo's code generation

`NVPTXCodegen` over its members. The methods return a value, a null pointer with
a line on `std::cerr`, or do not return: a null pointer is followed, a call is
created with arguments of other types than the function has. LLVM's verifier is
a parameter of `genFunction`.
-/

namespace AroundTheWorld.Cairo

open AroundTheWorld.Base AroundTheWorld.Lex AroundTheWorld.Llvm
open AroundTheWorld.Athens (ExprAST FunctionAST PrototypeAST Name)

structure KernelParam where
  name : Name
  ptr : Owned
  deriving DecidableEq, Repr

/-- A kernel takes pointers and returns nothing, a device function takes and
returns doubles. -/
structure Signature where
  kernel : Bool
  argc : Nat
  deriving DecidableEq, Repr

/-- The members of an `NVPTXCodegen`. `theModule` has its functions by name, `symbols`
their names, and `annotations` the kernels; functions are numbered as they are
created. -/
structure CairoState (D : Type) where
  theModule : Name → Option Signature := fun _ => none
  symbols : SymbolTable := ⟨[], 0⟩
  annotations : List Nat := []
  nextFunction : Nat := 0
  builder : Builder D := { function := 0 }
  namedValues : Name → Option Owned := fun _ => none
  kernelParams : List KernelParam := []
  builtins : List Text := []
  errors : List Text := []

inductive Crash where
  | nullDereference
  | badSignature
  deriving DecidableEq, Repr

abbrev CairoGen (D α : Type) := Gen (CairoState D) Crash α

variable {D : Type}

/-- A line on `std::cerr`, and a null pointer. -/
def complain {α : Type} (line : Text) : CairoGen D α := fun s =>
  .null { s with errors := s.errors ++ [line] }

/-- A builder function that returns something. -/
def build {α : Type} (f : Builder D → α × Builder D) : CairoGen D α := fun s =>
  .ok (f s.builder).1 { s with builder := (f s.builder).2 }

/-- A builder function that returns nothing. -/
def buildUnit (f : Builder D → Builder D) : CairoGen D Unit := fun s =>
  .ok () { s with builder := f s.builder }

def emit (i : Instr D) : CairoGen D Unit := buildUnit (·.emit i)

def emitReg (i : Nat → Instr D) : CairoGen D Nat := build (·.emitReg i)

def getInsertBlock : CairoGen D Nat := fun s => .ok s.builder.insertBlock s

/-- `namedValues_.find`. -/
def lookupName (name : Name) : CairoGen D (Option Owned) := fun s => .ok (s.namedValues name) s

/-- `namedValues_[name] = cell`, or `namedValues_.erase(name)`. -/
def bindName (name : Name) (cell : Option Owned) : CairoGen D Unit := fun s =>
  .ok () { s with namedValues := fun k => if k = name then cell else s.namedValues k }

/-- `kernelParams_[index]` behind the test of its bound. -/
def lookupParam (index : Nat) : CairoGen D (Option KernelParam) := fun s =>
  .ok s.kernelParams[index]? s

/-- `module_->getFunction`. -/
def lookupFunction (name : Name) : CairoGen D (Option Signature) := fun s =>
  .ok (s.theModule name) s

def getOrDeclareIntrinsic (name : Text) : CairoGen D Unit := fun s =>
  .ok () { s with builtins := if s.builtins.contains name then s.builtins else name :: s.builtins }

/-! ## Calls and built-ins -/

/-- The built-ins that read a register, with their intrinsics. -/
def registerBuiltins : List (String × String) :=
  [("cairoThreadX", "llvm.nvvm.read.ptx.sreg.tid.x"),
    ("cairoBlockX", "llvm.nvvm.read.ptx.sreg.ctaid.x"),
    ("cairoDimX", "llvm.nvvm.read.ptx.sreg.ntid.x")]

def findRegisterBuiltin (name : Name) : Option Text :=
  (registerBuiltins.find? fun p => text p.1 = name).map fun p => text p.2

def isBuiltinCall (name : Name) : Bool :=
  (findRegisterBuiltin name).isSome || name == text "cairoLoad" || name == text "cairoStore"

def genRegisterBuiltin (intrinsic : Text) : CairoGen D (Operand D) := do
  getOrDeclareIntrinsic intrinsic
  let val ← emitReg (.callIntrinsic · intrinsic)
  let reg ← emitReg (.sitofp · val)
  pure (.reg reg)

section
variable (ops : IntOps D)

/-- The pointer index of `cairoLoad` and `cairoStore`, a literal. -/
def literalIndex : ExprAST D → Option Nat
  | .numberExpr val => some (ops.toUnsigned val)
  | _ => none

/-- The element that a pointer parameter and an index give. -/
def genElement (name : Name) (ptrIdx : Nat) (elemI64 : IntOperand) : CairoGen D Nat := do
  let param ← lookupParam ptrIdx
  match param with
  | none =>
    complain (name ++ text ": ptr index " ++ toText ptrIdx ++ text " out of range\n")
  | some param => emitReg (.gep · param.ptr elemI64)

/-- `cairoLoad`, given what its arguments generate. -/
def genLoad (args : List (ExprAST D)) (gens : List (CairoGen D (Operand D))) :
    CairoGen D (Operand D) :=
  match args, gens with
  | [ptrArg, _], [_, elem] =>
    match literalIndex ops ptrArg with
    | none => complain (text "cairoLoad: first arg must be a number literal\n")
    | some ptrIdx => do
      let elemIdx ← elem
      let elemI64 ← build (·.createFPToSI ops elemIdx)
      let ptr ← genElement (text "cairoLoad") ptrIdx elemI64
      let reg ← emitReg (.loadPtr · ptr)
      pure (.reg reg)
  | _, _ => complain (text "cairoLoad expects 2 args\n")

/-- `cairoStore`, given what its arguments generate. -/
def genStore (args : List (ExprAST D)) (gens : List (CairoGen D (Operand D))) :
    CairoGen D (Operand D) :=
  match args, gens with
  | [ptrArg, _, _], [_, elem, val] =>
    match literalIndex ops ptrArg with
    | none => complain (text "cairoStore: first arg must be a number literal\n")
    | some ptrIdx => do
      let elemIdx ← elem
      let elemI64 ← build (·.createFPToSI ops elemIdx)
      let val ← val
      let ptr ← genElement (text "cairoStore") ptrIdx elemI64
      emit (.storePtr val ptr)
      pure val
  | _, _ => complain (text "cairoStore expects 3 args\n")

/-- `genBuiltinCall`. -/
def genBuiltinCall (name : Name) (args : List (ExprAST D)) (gens : List (CairoGen D (Operand D))) :
    CairoGen D (Operand D) :=
  match findRegisterBuiltin name with
  | some intrinsic => genRegisterBuiltin intrinsic
  | none =>
    if name = text "cairoLoad" then genLoad ops args gens
    else if name = text "cairoStore" then genStore ops args gens
    else Gen.null

/-- The arguments of a call, in order. -/
def genAll : List (CairoGen D (Operand D)) → CairoGen D (List (Operand D))
  | [] => pure []
  | g :: gens => do
    let argVal ← g
    let argVals ← genAll gens
    pure (argVal :: argVals)

/-- `builder_->CreateCall`, which asserts that the signature fits. -/
def createCall (callee : Name) (signature : Signature) (args : List (Operand D)) :
    CairoGen D (Operand D) :=
  if signature.kernel = false ∧ signature.argc = args.length then do
    let reg ← emitReg (.call · callee args)
    pure (.reg reg)
  else Gen.abort .badSignature

def genCall (callee : Name) (args : List (ExprAST D)) (gens : List (CairoGen D (Operand D))) :
    CairoGen D (Operand D) :=
  if isBuiltinCall callee then genBuiltinCall ops callee args gens
  else do
    let signature ← lookupFunction callee
    match signature with
    | none => complain (text "unknown function: " ++ callee ++ text "\n")
    | some signature => do
      let argVals ← genAll gens
      createCall callee signature argVals

/-! ## Expressions -/

/-- The assignment branch of `genBinary`. -/
def genAssignment (lhs : ExprAST D) (rhs : CairoGen D (Operand D)) : CairoGen D (Operand D) :=
  match lhs with
  | .null => Gen.abort .nullDereference
  | .variableExpr name => do
    let rhs ← rhs
    let it ← lookupName name
    match it with
    | none => complain (text "unknown variable in assignment\n")
    | some cell => do
      emit (.store rhs cell)
      pure rhs
  | _ => complain (text "LHS of = must be a variable\n")

/-- The `switch` of `genBinary`. -/
def binaryOp (op : Byte) (lhs rhs : Operand D) : CairoGen D (Operand D) :=
  if op = byte '+' then build (·.createFBin ops .fadd lhs rhs)
  else if op = byte '-' then build (·.createFBin ops .fsub lhs rhs)
  else if op = byte '*' then build (·.createFBin ops .fmul lhs rhs)
  else if op = byte '<' then do
    let cmp ← build (·.createFCmp ops .ult lhs rhs)
    build (·.createUIToFP ops cmp)
  else complain (text "unknown binary operator\n")

def genUnary (op : Byte) (operand : CairoGen D (Operand D)) : CairoGen D (Operand D) :=
  if op = byte '-' then do
    let operand ← operand
    build (·.createFBin ops .fsub (.const ops.zero) operand)
  else complain (text "unknown unary operator\n")

/-- What the end of `genFor` knows of its beginning. -/
structure LoopHead where
  loopBB : Nat
  afterBB : Nat
  iv : Nat
  stepI64 : IntOperand
  endI64 : IntOperand

/-- What `genFor` emits between the bounds and the body: the loop variable, the
preheader and the head of the loop. -/
def genLoopHead (varName : Name) (start end_ step : Operand D) : CairoGen D LoopHead := do
  let varAlloca ← build (·.createAlloca)
  emit (.store start varAlloca)
  let startI64 ← build (·.createFPToSI ops start)
  let endI64 ← build (·.createFPToSI ops end_)
  let stepI64 ← build (·.createFPToSI ops step)
  let preheaderBB ← getInsertBlock
  let loopBB ← build (·.createBlock)
  let afterBB ← build (·.createBlock)
  emit (.br loopBB)
  buildUnit (·.setInsertPoint loopBB)
  let iv ← emitReg (.phiInt · [(startI64, preheaderBB)])
  let ivFP ← emitReg (.sitofp · iv)
  emit (.store (.reg ivFP) varAlloca)
  bindName varName (some varAlloca)
  pure ⟨loopBB, afterBB, iv, stepI64, endI64⟩

/-- What `genFor` emits behind the body. -/
def genLoopLatch (head : LoopHead) : CairoGen D Unit := do
  let nextVal ← emitReg (.add · (.reg head.iv) head.stepI64)
  let endCmp ← emitReg (.icmpSLT · (.reg nextVal) head.endI64)
  emit (.condBr (.reg endCmp) head.loopBB head.afterBB)
  let latchBB ← getInsertBlock
  buildUnit (·.addIncoming head.iv (.reg nextVal, latchBB))
  buildUnit (·.setInsertPoint head.afterBB)

/-- The part of `genFor` behind the bounds and the step. -/
def genLoop (varName : Name) (start end_ step : Operand D) (body : CairoGen D (Operand D)) :
    CairoGen D (Operand D) := do
  let head ← genLoopHead ops varName start end_ step
  let _ ← body
  genLoopLatch head
  bindName varName none
  pure (.const ops.zero)

/-- The restoring loop of `genVar`, from the first binding on. -/
def restoreNames : List (Name × Option Owned) → CairoGen D Unit
  | [] => pure ()
  | (name, oldVal) :: oldBindings => do
    bindName name oldVal
    restoreNames oldBindings

mutual

def gen : ExprAST D → CairoGen D (Operand D)
  | .null => Gen.abort .nullDereference
  | .numberExpr val => pure (.const val)
  | .variableExpr name => do
    let it ← lookupName name
    match it with
    | none => complain (text "unknown variable: " ++ name ++ text "\n")
    | some cell => build (·.createLoad cell)
  | .binaryExpr op lhs rhs =>
    if op = byte '=' then genAssignment lhs (gen rhs)
    else do
      -- both sides are generated before either pointer is tested
      let lhs ← Gen.attempt (gen lhs)
      let rhs ← Gen.attempt (gen rhs)
      match lhs, rhs with
      | some lhs, some rhs => binaryOp ops op lhs rhs
      | _, _ => Gen.null
  | .unaryExpr op operand => genUnary ops op (gen operand)
  | .ifExpr cond then_ else_ => do
    let cond ← gen cond
    let condCmp ← build (·.createFCmp ops .une cond (.const ops.zero))
    let thenBB ← build (·.createBlock)
    let elseBB ← build (·.createBlock)
    let mergeBB ← build (·.createBlock)
    emit (.condBr condCmp thenBB elseBB)
    buildUnit (·.setInsertPoint thenBB)
    let thenVal ← gen then_
    emit (.br mergeBB)
    let thenEnd ← getInsertBlock
    buildUnit (·.setInsertPoint elseBB)
    let elseVal ← gen else_
    emit (.br mergeBB)
    let elseEnd ← getInsertBlock
    buildUnit (·.setInsertPoint mergeBB)
    let reg ← emitReg (.phi · [(thenVal, thenEnd), (elseVal, elseEnd)])
    pure (.reg reg)
  | .forExpr varName start end_ step body => do
    let start ← Gen.attempt (gen start)
    let end_ ← Gen.attempt (gen end_)
    match start, end_ with
    | some start, some end_ => do
      let step ← (if step.isNull then pure (.const ops.zero) else gen step)
      genLoop ops varName start end_ step (gen body)
    | _, _ => Gen.null
  | .callExpr callee args => genCall ops callee args (genArgs args)
  | .varExpr varNames body => do
    let oldBindings ← genBindings varNames
    let bodyVal ← Gen.attempt (gen body)
    restoreNames oldBindings
    match bodyVal with
    | none => Gen.null
    | some v => pure v

def genArgs : List (ExprAST D) → List (CairoGen D (Operand D))
  | [] => []
  | arg :: args => gen arg :: genArgs args

/-- The first loop of `genVar`. -/
def genBindings : List (Name × ExprAST D) → CairoGen D (List (Name × Option Owned))
  | [] => pure []
  | (name, init) :: rest => do
    let initVal ← (if init.isNull then pure (.const ops.zero) else gen init)
    let alloca ← build (·.createAlloca)
    emit (.store initVal alloca)
    let it ← lookupName name
    bindName name (some alloca)
    let oldBindings ← genBindings rest
    pure ((name, it) :: oldBindings)

end

/-! ## Functions -/

def isKernel (name : Name) : Bool := (text "kernel_").isPrefixOf name

/-- A function as it is passed to the verifier: its number, its name in the module, its
signature, its blocks. -/
structure FunctionIR (D : Type) where
  number : Nat
  name : Name
  signature : Signature
  code : Code D

/-- A function of the module: its number, and the name that it has got. -/
structure FunctionRef where
  number : Nat
  name : Name
  deriving DecidableEq, Repr

/-- `Function::Create`. A name that is taken gets a number behind it, and no dot before
the number, since the module is one for NVPTX. -/
def createFunction (name : Name) (signature : Signature) : CairoGen D FunctionRef := fun s =>
  let named := s.symbols.setName name
  .ok ⟨s.nextFunction, named.1⟩ { s with
    nextFunction := s.nextFunction + 1
    symbols := named.2
    theModule := fun k => if k = named.1 ∧ k ≠ [] then some signature else s.theModule k }

/-- The entry block, named `entry`, of the function with this number; its
arguments are the first registers. -/
def enterFunction (number argc : Nat) : CairoGen D Unit :=
  buildUnit fun _ => { function := number, nextReg := argc, symbols := ⟨[text "entry"], 0⟩ }

/-- The loop over the arguments of a kernel. -/
def genKernelParams : Nat → List Name → CairoGen D Unit
  | _, [] => pure ()
  | idx, arg :: args => do
    let _ ← build (Builder.setName arg)
    let pushParam : CairoGen D Unit := fun s =>
      .ok () { s with kernelParams := s.kernelParams ++ [⟨arg, ⟨s.builder.function, idx⟩⟩] }
    pushParam
    genKernelParams (idx + 1) args

/-- The loop over the arguments of a device function: the table is keyed by the
name that the argument has got. -/
def genDeviceParams : Nat → List Name → CairoGen D Unit
  | _, [] => pure ()
  | idx, arg :: args => do
    let argName ← build (Builder.setName arg)
    let alloca ← build (·.createAlloca)
    let _ ← build (Builder.setName argName)
    emit (.store (.reg idx) alloca)
    bindName argName (some alloca)
    genDeviceParams (idx + 1) args

def clearKernelParams : CairoGen D Unit := fun s => .ok () { s with kernelParams := [] }

def clearNamedValues : CairoGen D Unit := fun s => .ok () { s with namedValues := fun _ => none }

def getCode : CairoGen D (Code D) := fun s => .ok s.builder.code s

/-- `eraseFromParent` on the function that has this name. -/
def eraseFunction (name : Name) : CairoGen D Unit := fun s =>
  .ok () { s with
    symbols := s.symbols.removeName name
    theModule := fun k => if k = name then none else s.theModule k }

/-- The entry block of a kernel. -/
def enterKernel (proto : PrototypeAST) : CairoGen D FunctionRef := do
  let llvmFunc ← createFunction proto.name ⟨true, proto.args.length⟩
  enterFunction llvmFunc.number proto.args.length
  clearKernelParams
  genKernelParams 0 proto.args
  pure llvmFunc

/-- The entry block of a device function. -/
def enterDevice (proto : PrototypeAST) : CairoGen D FunctionRef := do
  let llvmFunc ← createFunction proto.name ⟨false, proto.args.length⟩
  enterFunction llvmFunc.number proto.args.length
  clearNamedValues
  genDeviceParams 0 proto.args
  pure llvmFunc

/-- `genFunction` on a kernel, up to the verifier. -/
def genKernel (proto : PrototypeAST) (body : ExprAST D) : CairoGen D (FunctionIR D) := do
  let llvmFunc ← enterKernel proto
  let _ ← gen ops body
  emit (.ret none)
  let code ← getCode
  pure ⟨llvmFunc.number, llvmFunc.name, ⟨true, proto.args.length⟩, code⟩

/-- `genFunction` on a device function, up to the verifier. -/
def genDevice (proto : PrototypeAST) (body : ExprAST D) : CairoGen D (FunctionIR D) := do
  let llvmFunc ← enterDevice proto
  let bodyVal ← Gen.attempt (gen ops body)
  match bodyVal with
  | none => do
    eraseFunction llvmFunc.name
    Gen.null
  | some bodyVal => do
    emit (.ret (some bodyVal))
    let code ← getCode
    pure ⟨llvmFunc.number, llvmFunc.name, ⟨false, proto.args.length⟩, code⟩

/-- The code of a function, before it is verified. -/
def genCode (f : FunctionAST D) : CairoGen D (FunctionIR D) :=
  if isKernel f.proto.name then genKernel ops f.proto f.body else genDevice ops f.proto f.body

def addKernelMetadata (number : Nat) : CairoGen D Unit := fun s =>
  .ok () { s with annotations := s.annotations ++ [number] }

/-- `genFunction`; `verifies` is what `verifyFunction` finds nothing wrong with. -/
def genFunction (verifies : FunctionIR D → Bool) (f : FunctionAST D) :
    CairoGen D (FunctionIR D) := do
  let ir ← genCode ops f
  if verifies ir then do
    if ir.signature.kernel then addKernelMetadata ir.number else pure ()
    pure ir
  else do
    eraseFunction ir.name
    complain (if ir.signature.kernel then text "kernel function verification failed\n"
      else text "function verification failed\n")

/-- `genTopLevel`, with what the functions have been compiled to. -/
def genTopLevel (verifies : FunctionIR D → Bool) :
    List (FunctionAST D) → CairoGen D (List (FunctionIR D))
  | [] => pure []
  | f :: functions => do
    let ir ← genFunction ops verifies f
    let irs ← genTopLevel verifies functions
    pure (ir :: irs)

-- The equations are generated here, once, for all the proofs that ask for them.
attribute [local simp] gen genArgs genBindings

end

end AroundTheWorld.Cairo
