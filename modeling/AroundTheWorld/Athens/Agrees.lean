import AroundTheWorld.Llvm.Run
import AroundTheWorld.Athens.Scope
import AroundTheWorld.Athens.Emits
import AroundTheWorld.Athens.Eval

/-!
# Code generation and evaluation side by side

A scope lists the names bound inside an expression with their cells, innermost
first. While code is generated, the symbol table is the one it started from with
the scope in front (`Ready`); while the code runs, the cells of the scope hold the
values of the locals (`Agrees`).
-/

namespace AroundTheWorld.Athens

open AroundTheWorld.Base AroundTheWorld.Lex AroundTheWorld.Llvm

variable {D W : Type}

abbrev Scope := List (Name × Nat)

def resolve (table : Name → Option Nat) (scope : Scope) (name : Name) : Option Nat :=
  match scope.lookup name with
  | some c => some c
  | none => table name

/-- The state of code generation inside `scope`; `n₀` cells had been there before. -/
structure Ready (table : Name → Option Nat) (n₀ : Nat) (scope : Scope) (s : AthensState D) :
    Prop where
  wf : s.builder.Wf
  names : s.namedValues = resolve table scope
  cells : ∀ b ∈ scope, n₀ ≤ b.2 ∧ b.2 < s.builder.nextCell
  distinct : (scope.map (·.2)).Nodup
  base_le : n₀ ≤ s.builder.nextCell
  base : ∀ x c, table x = some c → c < n₀

/-- The machine holds what the evaluation has in `scope` and in the cells below `n₀`. -/
structure Agrees (n₀ : Nat) (scope : Scope) (st : EvalState D W) (m : Machine D Name W) :
    Prop where
  locals : st.locals = scope.map fun b => (b.1, m.mem b.2)
  mem : ∀ c < n₀, m.mem c = st.mem c
  world : m.world = st.world
  calls : m.calls = st.calls

section
variable {table : Name → Option Nat} {n₀ : Nat} {scope : Scope} {s : AthensState D}

theorem Ready.withBuilder {b : Builder D Name} (h : Ready table n₀ scope s) (hwf : b.Wf)
    (hle : s.builder.nextCell ≤ b.nextCell) : Ready table n₀ scope (s.withBuilder b) := by
  have hbase := h.base_le
  refine ⟨hwf, h.names, ?_, h.distinct, Nat.le_trans hbase hle, h.base⟩
  intro p hp
  have hcell := h.cells p hp
  exact ⟨hcell.1, Nat.lt_of_lt_of_le hcell.2 hle⟩

/-- A name comes into scope with a cell that is not in use. -/
theorem Ready.push {name : Name} {c : Nat} (h : Ready table n₀ scope s)
    (hc : n₀ ≤ c ∧ c < s.builder.nextCell) (hfresh : ∀ b ∈ scope, b.2 < c) :
    Ready table n₀ ((name, c) :: scope) (s.withName name (some c)) := by
  refine ⟨h.wf, ?_, ?_, ?_, h.base_le, h.base⟩
  · funext x
    show (if x = name then some c else s.namedValues x) = _
    rw [h.names]
    by_cases hx : x = name
    · simp [resolve, hx]
    · have hbeq : (x == name) = false := by simpa using hx
      simp [resolve, List.lookup_cons, hx, hbeq]
  · intro b hb
    rcases List.mem_cons.mp hb with rfl | hb
    · exact hc
    · exact h.cells b hb
  · rw [List.map_cons, List.nodup_cons]
    refine ⟨?_, h.distinct⟩
    intro hmem
    obtain ⟨b, hb, hbc⟩ := List.mem_map.mp hmem
    have := hfresh b hb
    omega

/-- An expression that repeats no name leaves the scope as it was. -/
theorem Ready.codegen {ops : FloatOps D} {e : ExprAST D} {s' : AthensState D} {v : Operand D}
    (h : Ready table n₀ scope s) (hrep : noRepeat e = true)
    (hcode : codegen ops e s = .ok v s') : Ready table n₀ scope s' := by
  have hpatched := codegen_patched e s s' v hcode
  have hle := hpatched.le
  have hbase := h.base_le
  refine ⟨(codegen_emitted e s s' v h.wf hcode).wf, ?_, ?_, h.distinct, by omega, h.base⟩
  · rw [← h.names]
    funext x
    exact hpatched.kept x (leaks_of_noRepeat true e hrep x)
  · intro b hb
    have := h.cells b hb
    omega

end

section
variable {table : Name → Option Nat} {n₀ : Nat} {scope : Scope} {s : AthensState D}
  {st : EvalState D W} {m m' : Machine D Name W}

theorem Agrees.jump (h : Agrees n₀ scope st m) (l : Nat) : Agrees n₀ scope st (m.jump l) :=
  ⟨h.locals, h.mem, h.world, h.calls⟩

theorem Agrees.kept {n : Nat} (h : Agrees n₀ scope st m) (hkept : m.Kept n m') :
    Agrees n₀ scope st m' := by
  refine ⟨?_, ?_, hkept.world.trans h.world, hkept.calls.trans h.calls⟩
  · rw [hkept.mem]
    exact h.locals
  · rw [hkept.mem]
    exact h.mem

theorem lookup_locals (scope : Scope) (mem : Nat → D) (name : Name) :
    (scope.map fun b => (b.1, mem b.2)).lookup name = (scope.lookup name).map mem := by
  induction scope with
  | nil => rfl
  | cons b scope ih =>
    obtain ⟨y, c⟩ := b
    simp only [List.map_cons, List.lookup_cons]
    cases name == y with
    | true => rfl
    | false => exact ih

/-- The cell that code generation finds for a name holds its value. -/
theorem Agrees.readName (h : Agrees n₀ scope st m) (hr : Ready table n₀ scope s) {name : Name}
    {c : Nat} (hc : s.namedValues name = some c) : readName table name st = some (m.mem c) := by
  rw [hr.names, resolve] at hc
  rw [Athens.readName, h.locals, lookup_locals]
  cases hlookup : scope.lookup name with
  | some k =>
    rw [hlookup] at hc
    obtain rfl := Option.some.inj hc
    rfl
  | none =>
    rw [hlookup] at hc
    simp [hc, h.mem c (hr.base name c hc)]

theorem mem_of_lookup {name : Name} {c : Nat} (h : scope.lookup name = some c) :
    (name, c) ∈ scope := by
  obtain ⟨l₁, l₂, rfl, -⟩ := List.lookup_eq_some_iff.mp h
  simp

theorem updateLocal_none {name : Name} {x : D} {mem : Nat → D} (h : scope.lookup name = none) :
    updateLocal name x (scope.map fun b => (b.1, mem b.2)) = none := by
  induction scope with
  | nil => rfl
  | cons b scope ih =>
    obtain ⟨y, c⟩ := b
    rw [List.lookup_cons] at h
    cases hbeq : name == y with
    | true => simp [hbeq] at h
    | false =>
      rw [hbeq] at h
      have hne : y ≠ name := by
        rintro rfl
        simp at hbeq
      rw [List.map_cons, updateLocal, if_neg hne, ih h]
      rfl

/-- With cells all different, writing to a name changes no other. -/
theorem updateLocal_some {name : Name} {x : D} {mem : Nat → D} {c : Nat}
    (hdistinct : (scope.map (·.2)).Nodup) (h : scope.lookup name = some c) :
    updateLocal name x (scope.map fun b => (b.1, mem b.2)) =
      some (scope.map fun b => (b.1, if b.2 = c then x else mem b.2)) := by
  induction scope with
  | nil => cases h
  | cons b scope ih =>
    obtain ⟨y, k⟩ := b
    rw [List.map_cons, List.nodup_cons] at hdistinct
    rw [List.lookup_cons] at h
    rw [List.map_cons, List.map_cons, updateLocal]
    cases hbeq : name == y with
    | true =>
      simp only [hbeq, Option.some.injEq] at h
      have heq : y = name := (eq_of_beq hbeq).symm
      rw [if_pos heq, if_pos h, Option.some.injEq, List.cons.injEq]
      refine ⟨rfl, ?_⟩
      apply List.map_congr_left
      intro b hb
      have hne : b.2 ≠ c := by
        rintro rfl
        exact hdistinct.1 (List.mem_map.mpr ⟨b, hb, h.symm⟩)
      rw [if_neg hne]
    | false =>
      rw [hbeq] at h
      have hne : y ≠ name := by
        rintro rfl
        simp at hbeq
      have hmem : c ∈ scope.map (·.2) := List.mem_map.mpr ⟨_, mem_of_lookup h, rfl⟩
      have hk : k ≠ c := by
        rintro rfl
        exact hdistinct.1 hmem
      rw [if_neg hne, ih hdistinct.2 h, if_neg hk]
      rfl

/-- Storing to the cell of a name is writing to the name. -/
theorem Agrees.writeName (h : Agrees n₀ scope st m) (hr : Ready table n₀ scope s) {name : Name}
    {c : Nat} (hc : s.namedValues name = some c) (x : D) :
    ∃ st', writeName table name x st = some st' ∧ Agrees n₀ scope st' (m.setCell c x) := by
  rw [hr.names, resolve] at hc
  rw [Athens.writeName, h.locals]
  cases hlookup : scope.lookup name with
  | some k =>
    rw [hlookup] at hc
    obtain rfl := Option.some.inj hc
    rw [updateLocal_some hr.distinct hlookup]
    refine ⟨_, rfl, rfl, ?_, h.world, h.calls⟩
    intro a ha
    have hge := (hr.cells _ (mem_of_lookup hlookup)).1
    have hne : a ≠ k := by omega
    simp [Machine.setCell, hne, h.mem a ha]
  | none =>
    rw [hlookup] at hc
    have hc' : table name = some c := hc
    rw [updateLocal_none hlookup, hc']
    refine ⟨_, rfl, ?_, ?_, h.world, h.calls⟩
    · apply List.map_congr_left
      intro b hb
      have hlt := hr.base name c hc
      have hge := (hr.cells b hb).1
      have hne : b.2 ≠ c := by omega
      simp [Machine.setCell, hne]
    · intro a ha
      by_cases hac : a = c
      · simp [Machine.setCell, hac]
      · simp [Machine.setCell, hac, h.mem a ha]

/-- A store to a cell that is not in use brings a name into scope. -/
theorem Agrees.push {name : Name} {c : Nat} (h : Agrees n₀ scope st m) (hc : n₀ ≤ c)
    (hfresh : ∀ b ∈ scope, b.2 < c) (x : D) :
    Agrees n₀ ((name, c) :: scope) (st.push name x) (m.setCell c x) := by
  refine ⟨?_, ?_, h.world, h.calls⟩
  · rw [EvalState.push, h.locals, List.map_cons]
    apply congrArg₂
    · simp [Machine.setCell]
    · apply List.map_congr_left
      intro b hb
      have := hfresh b hb
      have hne : b.2 ≠ c := by omega
      simp [Machine.setCell, hne]
  · intro a ha
    have hne : a ≠ c := by omega
    simp [Machine.setCell, hne, h.mem a ha, EvalState.push]

theorem Agrees.pop {inner : Scope} (h : Agrees n₀ (inner ++ scope) st m) :
    Agrees n₀ scope (st.pop inner.length) m := by
  refine ⟨?_, h.mem, h.world, h.calls⟩
  have hlen : (inner.map fun b => (b.1, m.mem b.2)).length = inner.length := List.length_map _
  rw [EvalState.pop, h.locals, List.map_append, ← hlen, List.drop_left]

/-- Storing the increased loop variable. -/
theorem Agrees.bump {name : Name} {c : Nat} (h : Agrees n₀ ((name, c) :: scope) st m)
    (hc : n₀ ≤ c) (hfresh : ∀ b ∈ scope, b.2 < c) (ops : FloatOps D) (inc : D) :
    Agrees n₀ ((name, c) :: scope) (st.bump ops inc) (m.setCell c (ops.add (m.mem c) inc)) := by
  have hpop : Agrees n₀ scope (st.pop [(name, c)].length) m := Agrees.pop h
  have hpush : Agrees n₀ ((name, c) :: scope) ((st.pop 1).push name (ops.add (m.mem c) inc))
      (m.setCell c (ops.add (m.mem c) inc)) := hpop.push hc hfresh _
  have hbump : st.bump ops inc = (st.pop 1).push name (ops.add (m.mem c) inc) := by
    simp [EvalState.bump, h.locals, EvalState.pop, EvalState.push]
  rw [hbump]
  exact hpush

end

end AroundTheWorld.Athens
