import AroundTheWorld.Base.Dominance
import AroundTheWorld.Llvm.Builder

/-!
# Control flow of what a builder emits

What LLVM's verifier asks of a function, for the code that was emitted since some
builder `b₀`: finished blocks end in their only terminator, a phi has one entry
for each predecessor of its block, definitions dominate their uses. Blocks that
are created and not entered yet are listed apart; they are still empty.
-/

namespace AroundTheWorld.Llvm

open AroundTheWorld.Base

variable {D F : Type}

def Instr.isTerminator : Instr D F → Bool
  | .br _ | .condBr _ _ _ => true
  | _ => false

def Instr.isPhi : Instr D F → Bool
  | .phi _ _ => true
  | _ => false

/-- The blocks an instruction may jump to. -/
def Instr.targets : Instr D F → List Nat
  | .br target => [target]
  | .condBr _ ifTrue ifFalse => [ifTrue, ifFalse]
  | _ => []

/-- The register an instruction defines. -/
def Instr.dst : Instr D F → Option Nat
  | .load dst _ | .fbin _ dst _ _ | .fcmp _ dst _ _ | .uitofp dst _ | .call dst _ _
  | .phi dst _ => some dst
  | .store _ _ | .br _ | .condBr _ _ _ => none

/-- What an instruction defines and others use; `cell` is the address of a slot. -/
inductive Value where
  | reg (r : Nat)
  | cell (c : Nat)
  deriving DecidableEq, Repr

/-- Where a value is used: in front of an instruction, or at the end of a block. -/
inductive Point where
  | before (l k : Nat)
  | endOf (l : Nat)
  deriving DecidableEq, Repr

def Point.block : Point → Nat
  | .before l _ | .endOf l => l

def Operand.values : Operand D → List Value
  | .const _ => []
  | .reg r => [.reg r]

def Flag.values : Flag → List Value
  | .const _ => []
  | .reg r => [.reg r]

/-- What the instruction at `here` uses, and where: a phi uses each of its values at
the end of the block that the value comes from. -/
def Instr.uses (here : Point) : Instr D F → List (Value × Point)
  | .load _ cell => [(.cell cell, here)]
  | .store val cell => (.cell cell, here) :: val.values.map (·, here)
  | .fbin _ _ lhs rhs | .fcmp _ _ lhs rhs => (lhs.values ++ rhs.values).map (·, here)
  | .uitofp _ flag => flag.values.map (·, here)
  | .call _ _ args => (args.flatMap Operand.values).map (·, here)
  | .phi _ incoming => incoming.flatMap fun entry => entry.1.values.map (·, .endOf entry.2)
  | .br _ => []
  | .condBr cond _ _ => cond.values.map (·, here)

/-- The place of a definition. -/
inductive Site where
  | alloca (l : Nat)
  | instr (l k : Nat)
  deriving DecidableEq, Repr

/-- The definition comes before the use, with `dom` between their blocks: allocas
stand in front of the code of their block. -/
def Site.Covers (dom : Nat → Nat → Prop) : Site → Point → Prop
  | .alloca d, p => dom d p.block
  | .instr d _, .endOf l => dom d l
  | .instr d i, .before l k => dom d l ∧ (d = l → i < k)

theorem Site.Covers.mono {dom dom' : Nat → Nat → Prop} (h : ∀ d l, dom d l → dom' d l)
    {site : Site} {p : Point} (hc : site.Covers dom p) : site.Covers dom' p := by
  cases site with
  | alloca d => exact h _ _ hc
  | instr d i =>
    cases p with
    | endOf l => exact h _ _ hc
    | before l k => exact ⟨h _ _ hc.1, hc.2⟩

def Unterminated (code : List (Instr D F)) : Prop := ∀ i ∈ code, i.isTerminator = false

/-- The code ends in its only terminator. -/
def Terminated (code : List (Instr D F)) : Prop :=
  ∃ body last, code = body ++ [last] ∧ Unterminated body ∧ last.isTerminator = true

namespace Builder

/-- Block `u` may be left for block `v`. -/
def Edge (b : Builder D F) (u v : Nat) : Prop := ∃ i ∈ b.code u, v ∈ i.targets

def Defines (b : Builder D F) : Site → Value → Prop
  | .alloca l, .cell c => (l, c) ∈ b.allocas
  | .instr l k, .reg r => ∃ i, (b.code l)[k]? = some i ∧ i.dst = some r
  | _, _ => False

/-- One entry for each predecessor of block `l`, and no other. -/
def CompletePhi (b : Builder D F) (l : Nat) (incoming : List (Operand D × Nat)) : Prop :=
  (incoming.map (·.2)).Nodup ∧ ∀ p, p ∈ incoming.map (·.2) ↔ b.Edge p l

/-- Instruction `i` at `k` in block `l` was emitted since `b₀`. -/
def Since (b₀ b : Builder D F) (l k : Nat) (i : Instr D F) : Prop :=
  (b₀.code l).length ≤ k ∧ (b.code l)[k]? = some i

section
variable {b : Builder D F} {i : Instr D F}

theorem emit_getElem? {l k : Nat} {j : Instr D F} : ((b.emit i).code l)[k]? = some j ↔
    (b.code l)[k]? = some j ∨ (l = b.insertBlock ∧ k = (b.code l).length ∧ j = i) := by
  by_cases hl : l = b.insertBlock
  · simp only [emit, hl, if_true, true_and]
    rcases Nat.lt_trichotomy k (b.code b.insertBlock).length with hk | rfl | hk
    · rw [List.getElem?_append_left hk]
      constructor
      · exact .inl
      · rintro (h | ⟨rfl, -⟩)
        · exact h
        · omega
    · simp [eq_comm]
    · rw [List.getElem?_append_right (by omega), List.getElem?_eq_none (by simp; omega),
        List.getElem?_eq_none (by omega)]
      simp
      omega
  · simp [emit, hl]

theorem emit_mem {l : Nat} {j : Instr D F} :
    j ∈ (b.emit i).code l ↔ j ∈ b.code l ∨ (l = b.insertBlock ∧ j = i) := by
  by_cases hl : l = b.insertBlock
  · simp [emit, hl]
  · simp [emit, hl]

theorem emit_edge {u v : Nat} :
    (b.emit i).Edge u v ↔ b.Edge u v ∨ (u = b.insertBlock ∧ v ∈ i.targets) := by
  constructor
  · rintro ⟨j, hj, hv⟩
    rcases emit_mem.mp hj with hj | ⟨hu, rfl⟩
    · exact .inl ⟨j, hj, hv⟩
    · exact .inr ⟨hu, hv⟩
  · rintro (⟨j, hj, hv⟩ | ⟨hu, hv⟩)
    · exact ⟨j, emit_mem.mpr (.inl hj), hv⟩
    · exact ⟨i, emit_mem.mpr (.inr ⟨hu, rfl⟩), hv⟩

theorem emit_since {b₀ : Builder D F} {l k : Nat} {j : Instr D F} (h : Since b₀ (b.emit i) l k j) :
    Since b₀ b l k j ∨ (l = b.insertBlock ∧ k = (b.code l).length ∧ j = i) := by
  rcases emit_getElem?.mp h.2 with hj | hj
  · exact .inl ⟨h.1, hj⟩
  · exact .inr hj

/-- A register is defined where it was, or by the new instruction. -/
theorem defines_emit {b : Builder D F} {i : Instr D F} {n r : Nat} {site : Site}
    (h : Defines { b.emit i with nextReg := n } site (.reg r)) : b.Defines site (.reg r) ∨
      (site = .instr b.insertBlock (b.code b.insertBlock).length ∧ i.dst = some r) := by
  cases site with
  | alloca l => cases h
  | instr l k =>
    obtain ⟨j, hj, hdst⟩ := h
    rcases emit_getElem?.mp hj with hj | ⟨rfl, rfl, rfl⟩
    · exact .inl ⟨j, hj, hdst⟩
    · exact .inr ⟨rfl, hdst⟩

/-- Only terminators jump. -/
theorem targets_of_not_terminator (h : i.isTerminator = false) : i.targets = [] := by
  cases i <;> first | rfl | cases h

theorem dst_of_terminator (h : i.isTerminator = true) : i.dst = none := by
  cases i <;> first | rfl | cases h

end

/-! ## What is appended -/

/-- From `b` to `b'` code was appended that jumps to blocks of its own only, and has
phis in blocks of its own only. -/
structure Appends (b b' : Builder D F) : Prop where
  grows : b.Grows b'
  layout : ∃ new, b'.layout = b.layout ++ new ∧ ∀ l ∈ new, b.nextLabel ≤ l
  allocas : b.allocas <:+ b'.allocas
  edges : ∀ u v, b'.Edge u v → b.Edge u v ∨ b.nextLabel ≤ v
  phis : ∀ (l k : Nat) (i : Instr D F), l < b.nextLabel → (b'.code l)[k]? = some i →
    i.isPhi = true →
    (b.code l)[k]? = some i

theorem entryBlock_append {b : Builder D F} (h : b.layout ≠ []) (new : List Nat) (l : Nat) :
    (b.layout ++ new).headD l = b.entryBlock := by
  cases hlayout : b.layout with
  | nil => exact absurd hlayout h
  | cons k ks => simp [entryBlock, hlayout]

namespace Appends

variable {b b' b'' : Builder D F}

theorem refl (b : Builder D F) : Appends b b :=
  ⟨.refl b, ⟨[], by simp⟩, List.suffix_rfl, fun _ _ h => .inl h, fun _ _ _ _ h _ => h⟩

theorem trans (h : Appends b b') (h' : Appends b' b'') : Appends b b'' := by
  have hle := h.grows.label_le
  refine ⟨h.grows.trans h'.grows, ?_, h.allocas.trans h'.allocas, ?_, ?_⟩
  · obtain ⟨new, hnew, hge⟩ := h.layout
    obtain ⟨new', hnew', hge'⟩ := h'.layout
    refine ⟨new ++ new', by rw [hnew', hnew, List.append_assoc], ?_⟩
    intro l hl
    rcases List.mem_append.mp hl with hl | hl
    · exact hge l hl
    · exact Nat.le_trans hle (hge' l hl)
  · intro u v he
    rcases h'.edges u v he with he | hge
    · exact h.edges u v he
    · exact .inr (Nat.le_trans hle hge)
  · intro l k i hl hk hi
    exact h.phis l k i hl (h'.phis l k i (by omega) hk hi) hi

/-- An instruction whose targets are new, and a phi only where the block is new. -/
theorem emit (h : Appends b b') {i : Instr D F} {n : Nat} (hn : b'.nextReg ≤ n)
    (htargets : ∀ t ∈ i.targets, b.nextLabel ≤ t)
    (hphi : i.isPhi = true → b.nextLabel ≤ b'.insertBlock) :
    Appends b { b'.emit i with nextReg := n } := by
  have hemit := h.grows.trans (.emit b' i)
  refine ⟨⟨hemit.prefix_, hemit.others, hemit.label_le, Nat.le_trans hemit.reg_le hn,
    hemit.cell_le, hemit.insert⟩, h.layout, h.allocas, ?_, ?_⟩
  · intro u v he
    rcases emit_edge.mp he with he | ⟨-, hv⟩
    · exact h.edges u v he
    · exact .inr (htargets v hv)
  · intro l k j hl hk hj
    rcases emit_getElem?.mp hk with hk | ⟨rfl, -, rfl⟩
    · exact h.phis l k j hl hk hj
    · have := hphi hj
      omega

theorem createBlock (h : Appends b b') : Appends b b'.createBlock.2 :=
  ⟨h.grows.trans (.createBlock b'), h.layout, h.allocas, h.edges, h.phis⟩

theorem appendBlock (h : Appends b b') {l : Nat} (hl : b.nextLabel ≤ l) :
    Appends b (b'.appendBlock l) := by
  obtain ⟨new, hnew, hge⟩ := h.layout
  refine ⟨h.grows.trans (.appendBlock b' l), ⟨new ++ [l], ?_, ?_⟩, h.allocas, h.edges, h.phis⟩
  · rw [Builder.appendBlock, hnew, List.append_assoc]
  · intro k hk
    rcases List.mem_append.mp hk with hk | hk
    · exact hge k hk
    · rwa [List.mem_singleton.mp hk]

theorem createAlloca (h : Appends b b') : Appends b b'.createAlloca.2 :=
  ⟨h.grows.trans (.createAlloca b'), h.layout, h.allocas.trans (List.suffix_cons _ _), h.edges,
    h.phis⟩

theorem setInsertPoint (h : Appends b b') {l : Nat} (hl : b.nextLabel ≤ l) :
    Appends b (b'.setInsertPoint l) :=
  ⟨h.grows.setInsertPoint hl, h.layout, h.allocas, h.edges, h.phis⟩

/-- The entry block of a function that has one stays. -/
theorem entryBlock_eq (h : Appends b b') (hne : b.layout ≠ []) :
    b'.entryBlock = b.entryBlock := by
  obtain ⟨new, hnew, -⟩ := h.layout
  rw [entryBlock, hnew]
  exact entryBlock_append hne new _

/-- Blocks that were there get no new predecessors. -/
theorem edge_iff (h : Appends b b') {u v : Nat} (hv : v < b.nextLabel) :
    b'.Edge u v ↔ b.Edge u v := by
  constructor
  · intro he
    rcases h.edges u v he with he | hge
    · exact he
    · omega
  · rintro ⟨i, hi, ht⟩
    exact ⟨i, (h.grows.prefix_ u).subset hi, ht⟩

end Appends

/-! ## Uses -/

/-- What is used at `p` has been defined: a slot in the entry block, a register above. -/
def Supplied (parent : Nat → Option Nat) (b : Builder D F) : Value → Point → Prop
  | .cell c, _ => (b.entryBlock, c) ∈ b.allocas
  | .reg r, p => ∃ d k, b.Defines (.instr d k) (.reg r) ∧ (Site.instr d k).Covers (Above parent) p

/-- What was defined in `b` is defined in `b'`. -/
structure Carries (b b' : Builder D F) : Prop where
  code : ∀ l, b.code l <+: b'.code l
  entry : b'.entryBlock = b.entryBlock
  allocas : b.allocas ⊆ b'.allocas

theorem Carries.trans {b b' b'' : Builder D F} (h : Carries b b') (h' : Carries b' b'') :
    Carries b b'' :=
  ⟨fun l => (h.code l).trans (h'.code l), h'.entry.trans h.entry,
    List.Subset.trans h.allocas h'.allocas⟩

theorem Appends.carries {b b' : Builder D F} (h : Appends b b') (hne : b.layout ≠ []) :
    Carries b b' := ⟨h.grows.prefix_, h.entryBlock_eq hne, h.allocas.subset⟩

theorem Defines.mono {b b' : Builder D F} (h : Carries b b') {site : Site} {v : Value}
    (hd : b.Defines site v) : b'.Defines site v := by
  cases site with
  | alloca l =>
    cases v with
    | reg r => exact hd
    | cell c => exact h.allocas hd
  | instr l k =>
    cases v with
    | cell c => exact hd
    | reg r =>
      obtain ⟨i, hi, hdst⟩ := hd
      obtain ⟨rest, hrest⟩ := h.code l
      refine ⟨i, ?_, hdst⟩
      rw [← hrest, List.getElem?_append_left (List.getElem?_eq_some_iff.mp hi).1]
      exact hi

theorem Supplied.mono {parent parent' : Nat → Option Nat} {b b' : Builder D F} {v : Value}
    {p : Point} (hs : Supplied parent b v p) (hext : Extends parent parent') (h : Carries b b') :
    Supplied parent' b' v p := by
  cases v with
  | cell c =>
    show (b'.entryBlock, c) ∈ b'.allocas
    rw [h.entry]
    exact h.allocas hs
  | reg r =>
    obtain ⟨d, k, hdef, hcovers⟩ := hs
    exact ⟨d, k, hdef.mono h, hcovers.mono fun _ _ h => h.extends hext⟩

/-- What is available at the end of a block is so at the end of every block below. -/
theorem Supplied.below {parent : Nat → Option Nat} {b : Builder D F} {v : Value} {l l' : Nat}
    (h : Supplied parent b v (.endOf l)) (habove : Above parent l l') :
    Supplied parent b v (.endOf l') := by
  cases v with
  | cell c => exact h
  | reg r =>
    obtain ⟨d, k, hdef, hcovers⟩ := h
    exact ⟨d, k, hdef, Above.trans hcovers habove⟩

/-- The insertion point is behind everything in its block. -/
theorem Supplied.here {parent : Nat → Option Nat} {b : Builder D F} {v : Value} {l : Nat}
    (h : Supplied parent b v (.endOf l)) :
    Supplied parent b v (.before l (b.code l).length) := by
  cases v with
  | cell c => exact h
  | reg r =>
    obtain ⟨d, k, ⟨i, hi, hdst⟩, hcovers⟩ := h
    refine ⟨d, k, ⟨i, hi, hdst⟩, hcovers, ?_⟩
    rintro rfl
    exact (List.getElem?_eq_some_iff.mp hi).1

end Builder

end AroundTheWorld.Llvm
