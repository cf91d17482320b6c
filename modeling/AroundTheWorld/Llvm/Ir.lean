import AroundTheWorld.Base.Steps

/-!
# A fragment of LLVM IR

The instructions on doubles and flags that front ends of Kaleidoscope's kind
emit, and the machine that runs a control flow graph of them. The doubles `D`
come with their operations; functions are named by `F`; a call may change a
world `W` or not return. Blocks, registers and the stack slots of `alloca`s
(cells) are numbered. Registers are never undefined here: one that has not been
written holds an arbitrary value.
-/

namespace AroundTheWorld.Llvm

open AroundTheWorld.Base

/-- The doubles: `ult` is "unordered or less than", `one` is "ordered and not
equal", `zero` and `unit` are `0.0` and `1.0`. -/
structure FloatOps (D : Type) where
  add : D → D → D
  sub : D → D → D
  mul : D → D → D
  ult : D → D → Bool
  one : D → D → Bool
  zero : D
  unit : D

/-- Whole numbers in place of doubles. -/
def wholeOps : FloatOps Int where
  add := (· + ·)
  sub := (· - ·)
  mul := (· * ·)
  ult x y := decide (x < y)
  one x y := decide (x ≠ y)
  zero := 0
  unit := 1

inductive Operand (D : Type) where
  | const (val : D)
  | reg (r : Nat)
  deriving DecidableEq, Repr

/-- An operand of type `i1`. -/
inductive Flag where
  | const (val : Bool)
  | reg (r : Nat)
  deriving DecidableEq, Repr

inductive FBinOp where
  | fadd | fsub | fmul
  deriving DecidableEq, Repr

inductive FCmpPred where
  | ult | one
  deriving DecidableEq, Repr

inductive Instr (D F : Type) where
  | load (dst : Nat) (cell : Nat)
  | store (val : Operand D) (cell : Nat)
  | fbin (op : FBinOp) (dst : Nat) (lhs rhs : Operand D)
  | fcmp (pred : FCmpPred) (dst : Nat) (lhs rhs : Operand D)
  | uitofp (dst : Nat) (flag : Flag)
  | call (dst : Nat) (callee : F) (args : List (Operand D))
  | phi (dst : Nat) (incoming : List (Operand D × Nat))
  | br (target : Nat)
  | condBr (cond : Flag) (ifTrue ifFalse : Nat)
  deriving DecidableEq, Repr

abbrev Code (D F : Type) := Nat → List (Instr D F)

/-- What functions do: the result and the world after a call that returns. -/
abbrev Callees (D F W : Type) := F → List D → W → Option (D × W)

namespace FloatOps

variable {D : Type} (ops : FloatOps D)

def fbin : FBinOp → D → D → D
  | .fadd => ops.add
  | .fsub => ops.sub
  | .fmul => ops.mul

def fcmp : FCmpPred → D → D → Bool
  | .ult => ops.ult
  | .one => ops.one

def uitofp (flag : Bool) : D := if flag then ops.unit else ops.zero

end FloatOps

/-! ## The machine -/

/-- The machine stands before instruction `index` of `block`, which it entered
from `prev`; `calls` lists the calls that have returned. -/
structure Machine (D F W : Type) where
  block : Nat
  index : Nat
  prev : Nat
  regs : Nat → D
  flags : Nat → Bool
  mem : Nat → D
  world : W
  calls : List (F × List D)

namespace Machine

variable {D F W : Type}

def val (m : Machine D F W) : Operand D → D
  | .const d => d
  | .reg r => m.regs r

def flag (m : Machine D F W) : Flag → Bool
  | .const b => b
  | .reg r => m.flags r

def setReg (m : Machine D F W) (r : Nat) (d : D) : Machine D F W :=
  { m with index := m.index + 1, regs := fun k => if k = r then d else m.regs k }

def setFlag (m : Machine D F W) (r : Nat) (b : Bool) : Machine D F W :=
  { m with index := m.index + 1, flags := fun k => if k = r then b else m.flags k }

def setCell (m : Machine D F W) (c : Nat) (d : D) : Machine D F W :=
  { m with index := m.index + 1, mem := fun k => if k = c then d else m.mem k }

def jump (m : Machine D F W) (l : Nat) : Machine D F W :=
  { m with block := l, index := 0, prev := m.block }

variable (ops : FloatOps D) (callees : Callees D F W)

def exec (m : Machine D F W) : Instr D F → Option (Machine D F W)
  | .load dst cell => some (m.setReg dst (m.mem cell))
  | .store val cell => some (m.setCell cell (m.val val))
  | .fbin op dst lhs rhs => some (m.setReg dst (ops.fbin op (m.val lhs) (m.val rhs)))
  | .fcmp pred dst lhs rhs => some (m.setFlag dst (ops.fcmp pred (m.val lhs) (m.val rhs)))
  | .uitofp dst flag => some (m.setReg dst (ops.uitofp (m.flag flag)))
  | .call dst callee args =>
    (callees callee (args.map m.val) m.world).map fun (d, world) =>
      { m.setReg dst d with world, calls := m.calls ++ [(callee, args.map m.val)] }
  | .phi dst incoming =>
    (incoming.find? fun entry => entry.2 == m.prev).map fun entry => m.setReg dst (m.val entry.1)
  | .br target => some (m.jump target)
  | .condBr cond ifTrue ifFalse => some (m.jump (if m.flag cond then ifTrue else ifFalse))

/-- One step of the machine: none at the end of a block without terminator. -/
def step (code : Code D F) (m : Machine D F W) : Option (Machine D F W) :=
  (code m.block)[m.index]?.bind (m.exec ops callees)

/-- An instruction that cannot be executed, a call that does not return. -/
def Blocked (code : Code D F) (m : Machine D F W) : Prop :=
  ∃ i, (code m.block)[m.index]? = some i ∧ m.exec ops callees i = none

variable {ops callees}

theorem Blocked.step_eq {code : Code D F} {m : Machine D F W} (h : m.Blocked ops callees code) :
    m.step ops callees code = none := by
  obtain ⟨i, hi, hexec⟩ := h
  rw [step, hi]
  exact hexec

/-- At the end of its block the machine has halted, and is not blocked. -/
theorem halted_at_end {code : Code D F} {m : Machine D F W}
    (h : m.index = (code m.block).length) :
    m.step ops callees code = none ∧ ¬ m.Blocked ops callees code := by
  have hnone :
      (code m.block)[m.index]? = none := by rw [h]; exact List.getElem?_eq_none (Nat.le_refl _)
  constructor
  · rw [step, hnone]
    rfl
  · rintro ⟨i, hi, -⟩
    rw [hnone] at hi
    cases hi

/-- Registers below `n` and everything beside the registers are as before. -/
structure Kept (n : Nat) (m m' : Machine D F W) : Prop where
  regs : ∀ r < n, m'.regs r = m.regs r
  flags : ∀ r < n, m'.flags r = m.flags r
  mem : m'.mem = m.mem
  world : m'.world = m.world
  calls : m'.calls = m.calls

theorem Kept.refl (n : Nat) (m : Machine D F W) : Kept n m m :=
  ⟨fun _ _ => rfl, fun _ _ => rfl, rfl, rfl, rfl⟩

theorem Kept.trans {n k : Nat} {m m' m'' : Machine D F W} (h : Kept n m m') (h' : Kept k m' m'')
    (hle : n ≤ k) : Kept n m m'' := by
  refine ⟨?_, ?_, h'.mem.trans h.mem, h'.world.trans h.world, h'.calls.trans h.calls⟩
  · intro r hr
    exact (h'.regs r (by omega)).trans (h.regs r hr)
  · intro r hr
    exact (h'.flags r (by omega)).trans (h.flags r hr)

end Machine

/-- The operand is a constant or a register below `n`. -/
def Operand.Below {D : Type} (n : Nat) : Operand D → Prop
  | .const _ => True
  | .reg r => r < n

theorem Operand.Below.mono {D : Type} {n k : Nat} {v : Operand D} (h : v.Below n) (hle : n ≤ k) :
    v.Below k := by
  cases v with
  | const d => trivial
  | reg r => exact Nat.lt_of_lt_of_le h hle

/-- An operand below `n` keeps its value while registers below `n` are kept. -/
theorem Operand.Below.val_eq {D F W : Type} {n : Nat} {v : Operand D} (h : v.Below n)
    {m m' : Machine D F W} (hregs : ∀ r < n, m'.regs r = m.regs r) : m'.val v = m.val v := by
  cases v with
  | const d => rfl
  | reg r => exact hregs r h

/-- The flag is a constant or a register below `n`. -/
def Flag.Below (n : Nat) : Flag → Prop
  | .const _ => True
  | .reg r => r < n

theorem Flag.Below.flag_eq {D F W : Type} {n : Nat} {v : Flag} (h : v.Below n)
    {m m' : Machine D F W} (hflags : ∀ r < n, m'.flags r = m.flags r) : m'.flag v = m.flag v := by
  cases v with
  | const b => rfl
  | reg r => exact hflags r h

end AroundTheWorld.Llvm
