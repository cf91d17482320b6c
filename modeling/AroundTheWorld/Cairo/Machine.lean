import AroundTheWorld.Base.Visits
import AroundTheWorld.Cairo.Grown

/-!
# Running Cairo's code

The machine that runs the code of one function. What is outside of the function,
that is calls, special registers and the global memory behind the pointers, is a
parameter. Registers of each type have their own file; one that has not been
written holds an arbitrary value.
-/

namespace AroundTheWorld.Cairo

open AroundTheWorld.Base AroundTheWorld.Lex AroundTheWorld.Llvm
open AroundTheWorld.Athens (Name)

/-- What is outside of a function, over a world `W`. -/
structure Device (D W : Type) where
  call : Callees D Name W
  special : Text → W → Int
  load : Owned → Int → W → Option D
  store : Owned → Int → D → W → Option W

/-- The machine stands before instruction `index` of `block`, which it entered
from `prev`. -/
structure Machine (D W : Type) where
  block : Nat
  index : Nat
  prev : Nat
  regs : Nat → D
  ints : Nat → Int
  flags : Nat → Bool
  ptrs : Nat → Owned × Int
  mem : Owned → D
  world : W
  calls : List (Name × List D)

namespace Machine

variable {D W : Type}

def val (m : Machine D W) : Operand D → D
  | .const d => d
  | .reg r => m.regs r

def int (m : Machine D W) : IntOperand → Int
  | .const n => n
  | .reg r => m.ints r

def flag (m : Machine D W) : Flag → Bool
  | .const b => b
  | .reg r => m.flags r

def next (m : Machine D W) : Machine D W := { m with index := m.index + 1 }

def setReg (m : Machine D W) (r : Nat) (d : D) : Machine D W :=
  { m.next with regs := fun k => if k = r then d else m.regs k }

def setInt (m : Machine D W) (r : Nat) (n : Int) : Machine D W :=
  { m.next with ints := fun k => if k = r then n else m.ints k }

def setFlag (m : Machine D W) (r : Nat) (b : Bool) : Machine D W :=
  { m.next with flags := fun k => if k = r then b else m.flags k }

def setPtr (m : Machine D W) (r : Nat) (p : Owned × Int) : Machine D W :=
  { m.next with ptrs := fun k => if k = r then p else m.ptrs k }

def setCell (m : Machine D W) (c : Owned) (d : D) : Machine D W :=
  { m.next with mem := fun k => if k = c then d else m.mem k }

def jump (m : Machine D W) (l : Nat) : Machine D W :=
  { m with block := l, index := 0, prev := m.block }

variable (ops : IntOps D) (device : Device D W)

/-- One instruction; nothing is left to do behind a `ret`. -/
def exec (m : Machine D W) : Instr D → Option (Machine D W)
  | .alloca _ => some m.next
  | .load dst cell => some (m.setReg dst (m.mem cell))
  | .store val cell => some (m.setCell cell (m.val val))
  | .fbin op dst lhs rhs => some (m.setReg dst (ops.fbin op (m.val lhs) (m.val rhs)))
  | .fcmp pred dst lhs rhs =>
    some (m.setFlag dst (Builder.fcmp ops pred (m.val lhs) (m.val rhs)))
  | .uitofp dst flag => some (m.setReg dst (ops.uitofp (m.flag flag)))
  | .fptosi dst src => some (m.setInt dst (ops.fptosi (m.val src)))
  | .sitofp dst src => some (m.setReg dst (ops.sitofp (m.ints src)))
  | .add dst lhs rhs => some (m.setInt dst (wrap64 (m.int lhs + m.int rhs)))
  | .icmpSLT dst lhs rhs => some (m.setFlag dst (decide (m.int lhs < m.int rhs)))
  | .gep dst ptr index => some (m.setPtr dst (ptr, m.int index))
  | .loadPtr dst ptr =>
    (device.load (m.ptrs ptr).1 (m.ptrs ptr).2 m.world).map fun d => m.setReg dst d
  | .storePtr val ptr =>
    (device.store (m.ptrs ptr).1 (m.ptrs ptr).2 (m.val val) m.world).map fun world =>
      { m.next with world }
  | .call dst callee args =>
    (device.call callee (args.map m.val) m.world).map fun (d, world) =>
      { m.setReg dst d with world, calls := m.calls ++ [(callee, args.map m.val)] }
  | .callIntrinsic dst name => some (m.setInt dst (device.special name m.world))
  | .phi dst incoming =>
    (incoming.find? fun entry => entry.2 == m.prev).map fun entry => m.setReg dst (m.val entry.1)
  | .phiInt dst incoming =>
    (incoming.find? fun entry => entry.2 == m.prev).map fun entry => m.setInt dst (m.int entry.1)
  | .br target => some (m.jump target)
  | .condBr cond ifTrue ifFalse => some (m.jump (if m.flag cond then ifTrue else ifFalse))
  | .ret _ => none

def step (code : Code D) (m : Machine D W) : Option (Machine D W) :=
  (code m.block)[m.index]?.bind (m.exec ops device)

/-- Registers below `n` are as before. -/
structure Kept (n : Nat) (m m' : Machine D W) : Prop where
  regs : ∀ r < n, m'.regs r = m.regs r
  ints : ∀ r < n, m'.ints r = m.ints r
  flags : ∀ r < n, m'.flags r = m.flags r

namespace Kept

variable {n k : Nat} {m m' m'' : Machine D W}

theorem refl : Kept n m m := ⟨fun _ _ => rfl, fun _ _ => rfl, fun _ _ => rfl⟩

theorem trans (h : Kept n m m') (h' : Kept n m' m'') : Kept n m m'' :=
  ⟨fun r hr => (h'.regs r hr).trans (h.regs r hr), fun r hr => (h'.ints r hr).trans (h.ints r hr),
    fun r hr => (h'.flags r hr).trans (h.flags r hr)⟩

theorem mono (h : Kept k m m') (hle : n ≤ k) : Kept n m m' :=
  ⟨fun r hr => h.regs r (by omega), fun r hr => h.ints r (by omega),
    fun r hr => h.flags r (by omega)⟩

theorem val (h : Kept n m m') {v : Operand D} (hv : v.Below n) : m'.val v = m.val v := by
  cases v with
  | const d => rfl
  | reg r => exact h.regs r hv

theorem int (h : Kept n m m') {v : IntOperand} (hv : ∀ r, v = .reg r → r < n) :
    m'.int v = m.int v := by
  cases v with
  | const i => rfl
  | reg r => exact h.ints r (hv r rfl)

theorem setReg {r : Nat} (hr : n ≤ r) (d : D) : Kept n m (m.setReg r d) := by
  refine ⟨fun k hk => ?_, fun _ _ => rfl, fun _ _ => rfl⟩
  simp [Machine.setReg, Nat.ne_of_lt (Nat.lt_of_lt_of_le hk hr)]

theorem setInt {r : Nat} (hr : n ≤ r) (i : Int) : Kept n m (m.setInt r i) := by
  refine ⟨fun _ _ => rfl, fun k hk => ?_, fun _ _ => rfl⟩
  simp [Machine.setInt, Nat.ne_of_lt (Nat.lt_of_lt_of_le hk hr)]

theorem setFlag {r : Nat} (hr : n ≤ r) (b : Bool) : Kept n m (m.setFlag r b) := by
  refine ⟨fun _ _ => rfl, fun _ _ => rfl, fun k hk => ?_⟩
  simp [Machine.setFlag, Nat.ne_of_lt (Nat.lt_of_lt_of_le hk hr)]

theorem of_eq (hregs : m'.regs = m.regs) (hints : m'.ints = m.ints) (hflags : m'.flags = m.flags) :
    Kept n m m' :=
  ⟨fun r _ => by rw [hregs], fun r _ => by rw [hints], fun r _ => by rw [hflags]⟩

end Kept

variable {ops device} {m m' : Machine D W} {i : Instr D}

theorem step_of_fetch {code : Code D} (h : (code m.block)[m.index]? = some i) :
    m.step ops device code = m.exec ops device i := by
  rw [step, h]
  rfl

/-- An instruction leads to the next one, or to a block that it branches to. -/
theorem exec_position (h : m.exec ops device i = some m') :
    (m'.block = m.block ∧ m'.index = m.index + 1) ∨
      (m'.block ∈ i.targets ∧ m'.index = 0 ∧ m'.prev = m.block) := by
  cases i with
  | br target =>
    cases h
    exact .inr ⟨List.mem_singleton.mpr rfl, rfl, rfl⟩
  | condBr cond ifTrue ifFalse =>
    cases h
    refine .inr ⟨?_, rfl, rfl⟩
    show (if m.flag cond then ifTrue else ifFalse) ∈ [ifTrue, ifFalse]
    split <;> simp
  | ret val => cases h
  | loadPtr dst ptr =>
    obtain ⟨d, _, rfl⟩ := Option.map_eq_some_iff.mp h
    exact .inl ⟨rfl, rfl⟩
  | storePtr val ptr =>
    obtain ⟨d, _, rfl⟩ := Option.map_eq_some_iff.mp h
    exact .inl ⟨rfl, rfl⟩
  | call dst callee args =>
    obtain ⟨d, _, rfl⟩ := Option.map_eq_some_iff.mp h
    exact .inl ⟨rfl, rfl⟩
  | phi dst incoming =>
    obtain ⟨d, _, rfl⟩ := Option.map_eq_some_iff.mp h
    exact .inl ⟨rfl, rfl⟩
  | phiInt dst incoming =>
    obtain ⟨d, _, rfl⟩ := Option.map_eq_some_iff.mp h
    exact .inl ⟨rfl, rfl⟩
  | _ =>
    cases h
    exact .inl ⟨rfl, rfl⟩

/-- An instruction writes the register that it names, and no other. -/
theorem exec_kept {n : Nat} (h : m.exec ops device i = some m')
    (hi : ∀ r, i.dst = some r → n ≤ r) : Kept n m m' := by
  cases i with
  | load dst cell =>
    cases h
    exact .setReg (hi dst rfl) _
  | fbin op dst lhs rhs =>
    cases h
    exact .setReg (hi dst rfl) _
  | uitofp dst flag =>
    cases h
    exact .setReg (hi dst rfl) _
  | sitofp dst src =>
    cases h
    exact .setReg (hi dst rfl) _
  | fcmp pred dst lhs rhs =>
    cases h
    exact .setFlag (hi dst rfl) _
  | icmpSLT dst lhs rhs =>
    cases h
    exact .setFlag (hi dst rfl) _
  | fptosi dst src =>
    cases h
    exact .setInt (hi dst rfl) _
  | add dst lhs rhs =>
    cases h
    exact .setInt (hi dst rfl) _
  | callIntrinsic dst name =>
    cases h
    exact .setInt (hi dst rfl) _
  | ret val => cases h
  | loadPtr dst ptr =>
    obtain ⟨d, _, rfl⟩ := Option.map_eq_some_iff.mp h
    exact .setReg (hi dst rfl) _
  | storePtr val ptr =>
    obtain ⟨d, _, rfl⟩ := Option.map_eq_some_iff.mp h
    exact .of_eq rfl rfl rfl
  | call dst callee args =>
    obtain ⟨⟨d, world⟩, _, rfl⟩ := Option.map_eq_some_iff.mp h
    have hkept : Kept n m (m.setReg dst d) := .setReg (hi dst rfl) d
    exact ⟨hkept.regs, hkept.ints, hkept.flags⟩
  | phi dst incoming =>
    obtain ⟨d, _, rfl⟩ := Option.map_eq_some_iff.mp h
    exact .setReg (hi dst rfl) _
  | phiInt dst incoming =>
    obtain ⟨d, _, rfl⟩ := Option.map_eq_some_iff.mp h
    exact .setInt (hi dst rfl) _
  | _ =>
    cases h
    exact .of_eq rfl rfl rfl

end Machine

/-! ## Running a piece of code -/

section
variable {D W : Type}

/-- The machine stands at the insertion point. -/
structure Builder.At (b : Builder D) (m : Machine D W) : Prop where
  block : m.block = b.insertBlock
  index : m.index = (b.code b.insertBlock).length

/-- `code` has what was emitted from `b` to `b'`, up to the insertion point of `b'`. -/
def HasPiece (b b' : Builder D) (code : Code D) : Prop :=
  ∀ l i, (l = b.insertBlock ∨ b.nextLabel ≤ l) → (b.code l).length ≤ i → i ≤ (b'.code l).length →
    ¬ (l = b'.insertBlock ∧ i = (b'.code l).length) → (code l)[i]? = (b'.code l)[i]?

/-- The machine stands inside of what was emitted from `b` to `b'`, or at its end. -/
def Inside (b b' : Builder D) (m : Machine D W) : Prop :=
  (m.block = b.insertBlock ∧ (b.code b.insertBlock).length ≤ m.index ∨ b.nextLabel ≤ m.block) ∧
    m.index ≤ (b'.code m.block).length

variable {ops : IntOps D} {device : Device D W} {code : Code D} {b b' : Builder D}
  {m m' : Machine D W}

/-- One step inside of the piece: another register is written, and the machine is
inside of the piece behind its beginning. -/
theorem Inside.step (hb : b.Wf) (h : b.Grown b') (hhas : HasPiece b b' code)
    (hin : Inside b b' m) (hend : ¬ b'.At m) (hstep : m.step ops device code = some m') :
    Inside b b' m' ∧ ¬ b.At m' ∧ (m'.block = b.insertBlock ∨ b.nextLabel ≤ m'.block) ∧
      Machine.Kept b.nextReg m m' := by
  obtain ⟨hwhere, hlen⟩ := hin
  have hlow : (b.code m.block).length ≤ m.index := by
    rcases hwhere with ⟨hblock, hindex⟩ | hblock
    · rwa [hblock]
    · rw [hb.empty _ hblock]
      exact Nat.zero_le _
  have hwhere' : m.block = b.insertBlock ∨ b.nextLabel ≤ m.block := hwhere.imp And.left id
  have hcode := hhas m.block m.index hwhere' hlow hlen
    fun ⟨hblock, hindex⟩ => hend ⟨hblock, by rw [hindex, hblock]⟩
  obtain ⟨i, hi, hexec⟩ := Option.bind_eq_some_iff.mp hstep
  rw [hcode] at hi
  obtain ⟨more, hsplit, hmore⟩ := h.code m.block
  have hmem : i ∈ more := by
    rw [hsplit, List.getElem?_append_right hlow] at hi
    exact List.mem_of_getElem? hi
  obtain ⟨_, hnew⟩ := hmore i hmem
  have hlt : m.index < (b'.code m.block).length := (List.getElem?_eq_some_iff.mp hi).1
  have hkept := Machine.exec_kept hexec hnew.dst
  rcases Machine.exec_position hexec with ⟨hblock, hindex⟩ | ⟨htarget, hindex, _⟩
  · refine ⟨⟨?_, by rw [hblock, hindex]; omega⟩, fun hat => ?_, by rwa [hblock], hkept⟩
    · rw [hblock, hindex]
      exact hwhere.imp (fun ⟨heq, hle⟩ => ⟨heq, Nat.le_succ_of_le hle⟩) id
    · have heq := hat.index
      rw [← hat.block, hblock, hindex] at heq
      omega
  · have hle := hnew.targets _ htarget
    have hinsert := hb.insert
    refine ⟨⟨.inr hle, by rw [hindex]; exact Nat.zero_le _⟩, fun hat => ?_, .inr hle, hkept⟩
    have heq := hat.block
    omega

/-- A machine that gets to the end of a piece of code gets there without coming
back to its beginning, and keeps the registers that were there before. -/
theorem Inside.run (hb : b.Wf) (h : b.Grown b') (hhas : HasPiece b b' code)
    {stop : Machine D W → Prop}
    (hstop : ∀ m, stop m → ¬ (m.block = b.insertBlock ∨ b.nextLabel ≤ m.block))
    (hin : Inside b b' m) {n : Nat} (hsteps : Steps (Machine.step ops device code) n m m')
    (hend : b'.At m') :
    ∃ m'', b'.At m'' ∧ Quiet (Machine.step ops device code) b.At stop m m'' ∧
      Machine.Kept b.nextReg m m'' := by
  induction hsteps with
  | @refl m => exact ⟨m, hend, .refl, .refl⟩
  | @head n m m₁ m' hstep _ ih =>
    by_cases hat : b'.At m
    · exact ⟨m, hat, .refl, .refl⟩
    · obtain ⟨hin', hnot, hwhere, hkept⟩ := hin.step hb h hhas hat hstep
      obtain ⟨m'', hend', hquiet, hkept'⟩ := ih hin' hend
      exact ⟨m'', hend', .head hstep hnot (fun hs => hstop _ hs hwhere) hquiet, hkept.trans hkept'⟩

end

end AroundTheWorld.Cairo
