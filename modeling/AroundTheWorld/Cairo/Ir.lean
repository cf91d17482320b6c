import AroundTheWorld.Athens.Codegen
import AroundTheWorld.Lex.Decimal
import AroundTheWorld.Llvm.IntOps

/-!
# The LLVM IR of Cairo's functions

The instructions that `NVPTXCodegen` emits, on doubles, flags, `i64` values and
pointers to global memory, and the part of `IRBuilder` that appends them. A
stack slot and a pointer argument carry the number of the function that they
belong to, since the code generator keeps them in tables that outlive it.
-/

namespace AroundTheWorld.Cairo

open AroundTheWorld.Lex AroundTheWorld.Llvm
open AroundTheWorld.Athens (Name uniqueSuffix)

/-- An `alloca` or an argument of the function with this number. -/
structure Owned where
  function : Nat
  index : Nat
  deriving DecidableEq, Repr

/-- An operand of type `i64`. -/
inductive IntOperand where
  | const (val : Int)
  | reg (r : Nat)
  deriving DecidableEq, Repr

inductive FCmpPred where
  | ult | une
  deriving DecidableEq, Repr

inductive Instr (D : Type) where
  | alloca (cell : Owned)
  | load (dst : Nat) (cell : Owned)
  | store (val : Operand D) (cell : Owned)
  | fbin (op : FBinOp) (dst : Nat) (lhs rhs : Operand D)
  | fcmp (pred : FCmpPred) (dst : Nat) (lhs rhs : Operand D)
  | uitofp (dst : Nat) (flag : Flag)
  | fptosi (dst : Nat) (src : Operand D)
  | sitofp (dst src : Nat)
  | add (dst : Nat) (lhs rhs : IntOperand)
  | icmpSLT (dst : Nat) (lhs rhs : IntOperand)
  | gep (dst : Nat) (ptr : Owned) (index : IntOperand)
  | loadPtr (dst ptr : Nat)
  | storePtr (val : Operand D) (ptr : Nat)
  | call (dst : Nat) (callee : Name) (args : List (Operand D))
  | callIntrinsic (dst : Nat) (name : Text)
  | phi (dst : Nat) (incoming : List (Operand D × Nat))
  | phiInt (dst : Nat) (incoming : List (IntOperand × Nat))
  | br (target : Nat)
  | condBr (cond : Flag) (ifTrue ifFalse : Nat)
  | ret (val : Option (Operand D))
  deriving DecidableEq, Repr

namespace Instr

variable {D : Type}

/-- The slots and pointers that the instruction refers to. -/
def owned : Instr D → List Owned
  | .alloca cell => [cell]
  | .load _ cell => [cell]
  | .store _ cell => [cell]
  | .gep _ ptr _ => [ptr]
  | _ => []

/-- The functions of the module that the instruction refers to. -/
def callees : Instr D → List Name
  | .call _ callee _ => [callee]
  | _ => []

/-- The register that the instruction writes. -/
def dst : Instr D → Option Nat
  | .load dst _ => some dst
  | .fbin _ dst _ _ => some dst
  | .fcmp _ dst _ _ => some dst
  | .uitofp dst _ => some dst
  | .fptosi dst _ => some dst
  | .sitofp dst _ => some dst
  | .add dst _ _ => some dst
  | .icmpSLT dst _ _ => some dst
  | .gep dst _ _ => some dst
  | .loadPtr dst _ => some dst
  | .call dst _ _ => some dst
  | .callIntrinsic dst _ => some dst
  | .phi dst _ => some dst
  | .phiInt dst _ => some dst
  | _ => none

/-- The blocks that the instruction branches to. -/
def targets : Instr D → List Nat
  | .br target => [target]
  | .condBr _ ifTrue ifFalse => [ifTrue, ifFalse]
  | _ => []

/-- `addIncoming` on the phi that writes this register. -/
def addIncoming (reg : Nat) (entry : IntOperand × Nat) : Instr D → Instr D
  | .phiInt dst incoming =>
    if dst = reg then .phiInt dst (incoming ++ [entry]) else .phiInt dst incoming
  | i => i

end Instr

abbrev Code (D : Type) := Nat → List (Instr D)

/-- The names that the values of a function, or the functions of a module, have, and
the last number that was put behind one. -/
structure SymbolTable where
  names : List Name
  lastUnique : Nat := 0

/-- `setName`, with the name that the value gets: a name that is taken gets a
number behind it, and the empty name is none. -/
def SymbolTable.setName (name : Name) (t : SymbolTable) : Name × SymbolTable :=
  if name = [] then ([], t)
  else if t.names.contains name then
    let k := uniqueSuffix t.names name t.lastUnique
    (name ++ toText k, ⟨(name ++ toText k) :: t.names, k⟩)
  else (name, { t with names := name :: t.names })

/-- The value of this name is gone, the number counts on. -/
def SymbolTable.removeName (name : Name) (t : SymbolTable) : SymbolTable :=
  { t with names := t.names.filter (· != name) }

/-- A function under construction: its number, its blocks, and as much of its
symbol table as is read again. -/
structure Builder (D : Type) where
  function : Nat
  code : Code D := fun _ => []
  insertBlock : Nat := 0
  nextLabel : Nat := 1
  nextReg : Nat := 0
  nextCell : Nat := 0
  symbols : SymbolTable := ⟨[], 0⟩

namespace Builder

variable {D : Type}

def setName (name : Name) (b : Builder D) : Name × Builder D :=
  ((b.symbols.setName name).1, { b with symbols := (b.symbols.setName name).2 })

def emit (b : Builder D) (i : Instr D) : Builder D :=
  { b with code := fun l => if l = b.insertBlock then b.code l ++ [i] else b.code l }

def bumpReg (b : Builder D) : Builder D := { b with nextReg := b.nextReg + 1 }

/-- An instruction with a result. -/
def emitReg (b : Builder D) (i : Nat → Instr D) : Nat × Builder D :=
  (b.nextReg, (b.emit (i b.nextReg)).bumpReg)

def setInsertPoint (l : Nat) (b : Builder D) : Builder D := { b with insertBlock := l }

def createBlock (b : Builder D) : Nat × Builder D :=
  (b.nextLabel, { b with nextLabel := b.nextLabel + 1 })

def createAlloca (b : Builder D) : Owned × Builder D :=
  (⟨b.function, b.nextCell⟩, { b.emit (.alloca ⟨b.function, b.nextCell⟩) with
    nextCell := b.nextCell + 1 })

def createLoad (cell : Owned) (b : Builder D) : Operand D × Builder D :=
  let (r, b) := b.emitReg (.load · cell)
  (.reg r, b)

/-- Operations on constants are folded. -/
def createFBin (ops : IntOps D) (op : FBinOp) (lhs rhs : Operand D) (b : Builder D) :
    Operand D × Builder D :=
  match lhs, rhs with
  | .const x, .const y => (.const (ops.fbin op x y), b)
  | lhs, rhs =>
    let (r, b) := b.emitReg (.fbin op · lhs rhs)
    (.reg r, b)

def fcmp (ops : IntOps D) : FCmpPred → D → D → Bool
  | .ult => ops.ult
  | .une => ops.une

def createFCmp (ops : IntOps D) (pred : FCmpPred) (lhs rhs : Operand D) (b : Builder D) :
    Flag × Builder D :=
  match lhs, rhs with
  | .const x, .const y => (.const (fcmp ops pred x y), b)
  | lhs, rhs =>
    let (r, b) := b.emitReg (.fcmp pred · lhs rhs)
    (.reg r, b)

def createUIToFP (ops : IntOps D) (flag : Flag) (b : Builder D) : Operand D × Builder D :=
  match flag with
  | .const x => (.const (ops.uitofp x), b)
  | flag =>
    let (r, b) := b.emitReg (.uitofp · flag)
    (.reg r, b)

def createFPToSI (ops : IntOps D) (src : Operand D) (b : Builder D) : IntOperand × Builder D :=
  match src with
  | .const x => (.const (ops.fptosi x), b)
  | src =>
    let (r, b) := b.emitReg (.fptosi · src)
    (.reg r, b)

/-- `addIncoming` on a phi that has been created. -/
def addIncoming (reg : Nat) (entry : IntOperand × Nat) (b : Builder D) : Builder D :=
  { b with code := fun l => (b.code l).map (Instr.addIncoming reg entry) }

end Builder

end AroundTheWorld.Cairo
