import Mathlib.Init

/-!
# A fragment of MLIR and its builder

The operations of `arith`, `memref`, `scf` and `func` that Berlin emits, and
`OpBuilder` over them. Values and blocks are numbered; a region of one block is
referred to by its block, a function by its number. The implicit terminator of an
`scf.for` body is left out, so that the insertion point is always behind all
operations of its block.
-/

namespace AroundTheWorld.Mlir

inductive ArithOp where
  | addf | subf | mulf
  deriving DecidableEq, Repr

inductive CmpFPredicate where
  | ult | une
  deriving DecidableEq, Repr

/-- Operations over doubles `D` and functions named by `F`; `dst` is the result. -/
inductive Op (D F : Type) where
  | constant (dst : Nat) (val : D)
  | alloca (dst : Nat)
  | load (dst memref : Nat)
  | store (val memref : Nat)
  | arith (op : ArithOp) (dst lhs rhs : Nat)
  | cmpf (pred : CmpFPredicate) (dst lhs rhs : Nat)
  | extui (dst src : Nat)
  | sitofp (dst src : Nat)
  | fptosi (dst src : Nat)
  | indexCast (dst src : Nat)
  | call (dst : Nat) (callee : F) (args : List Nat)
  | ifOp (dst cond thenBlock elseBlock : Nat)
  | yieldOp (val : Nat)
  | forOp (lb ub step iv body : Nat)
  | funcOp (func : Nat)
  | returnOp (val : Nat)
  deriving DecidableEq, Repr

/-- Where the next operation goes: to the end of a block, nowhere, or into a
block that has been freed. -/
inductive InsertPoint where
  | unset
  | atEnd (block : Nat)
  | erased
  deriving DecidableEq, Repr

structure OpBuilder (D F : Type) where
  blocks : Nat → List (Op D F) := fun _ => []
  insertPoint : InsertPoint := .unset
  nextBlock : Nat := 0
  nextValue : Nat := 0

namespace OpBuilder

variable {D F : Type}

/-- `create`; nothing can be inserted into a freed block. -/
def insert (b : OpBuilder D F) (op : Op D F) : Option (OpBuilder D F) :=
  match b.insertPoint with
  | .unset => some b
  | .atEnd block =>
    some { b with blocks := fun k => if k = block then b.blocks k ++ [op] else b.blocks k }
  | .erased => none

def newValue (b : OpBuilder D F) : Nat × OpBuilder D F :=
  (b.nextValue, { b with nextValue := b.nextValue + 1 })

def newBlock (b : OpBuilder D F) : Nat × OpBuilder D F :=
  (b.nextBlock, { b with nextBlock := b.nextBlock + 1 })

def setInsertPoint (b : OpBuilder D F) (p : InsertPoint) : OpBuilder D F :=
  { b with insertPoint := p }

/-- `erase` on the last operation at `p`, while the builder inserts somewhere
inside that operation. -/
def eraseLast (b : OpBuilder D F) : InsertPoint → OpBuilder D F
  | .atEnd block =>
    { b with
      blocks := fun k => if k = block then (b.blocks k).dropLast else b.blocks k
      insertPoint := .erased }
  | _ => { b with insertPoint := .erased }

/-- Inserting changes nothing but the block. -/
theorem insert_some {b b' : OpBuilder D F} {op : Op D F} (h : b.insert op = some b') :
    b'.nextValue = b.nextValue ∧ b'.nextBlock = b.nextBlock ∧ b'.insertPoint = b.insertPoint := by
  unfold insert at h
  split at h
  · cases h
    exact ⟨rfl, rfl, rfl⟩
  · cases h
    exact ⟨rfl, rfl, rfl⟩
  · cases h

end OpBuilder

end AroundTheWorld.Mlir
