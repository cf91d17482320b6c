import Mathlib.Data.List.Nodup
import AroundTheWorld.Athens.Scope
import AroundTheWorld.Base.Endings
import AroundTheWorld.Llvm.IntOps

/-!
# What expressions without loops mean

A meaning that knows nothing of blocks and registers. `scopeAfter` is what the back ends
do to their tables of names while they generate: every binding gets a new cell, and a
`var` restores its names from the first one on, so that one that it binds twice keeps a
cell. Branches that are not taken are in the table all the same. `eval` reads and writes
the cells; one of which nothing is known has no value.
-/

namespace AroundTheWorld.Agreement

open AroundTheWorld.Base AroundTheWorld.Lex AroundTheWorld.Llvm
open AroundTheWorld.Athens (ExprAST Name noRepeat noRepeatArgs noRepeatVar)

/-! ## Scopes -/

structure NameScope where
  table : Name → Option Nat
  next : Nat

namespace NameScope

/-- `namedValues_[name] = ...`, or `namedValues_.erase(name)`. -/
def set (sc : NameScope) (name : Name) (cell : Option Nat) : NameScope :=
  { sc with table := fun k => if k = name then cell else sc.table k }

/-- A new cell. -/
def allocate (sc : NameScope) : NameScope := { sc with next := sc.next + 1 }

/-- A name in a new cell. -/
def bind (sc : NameScope) (name : Name) : NameScope := sc.allocate.set name (some sc.next)

/-- The parameters of a function, each in a new cell. -/
def bindAll : List Name → NameScope → NameScope
  | [], sc => sc
  | name :: names, sc => bindAll names (sc.bind name)

/-- The restoring loop, from the first binding on. -/
def restore : List (Name × Option Nat) → NameScope → NameScope
  | [], sc => sc
  | (name, old) :: olds, sc => restore olds (sc.set name old)

end NameScope

section
variable {D : Type}

mutual

def scopeAfter : ExprAST D → NameScope → NameScope
  | .null, sc => sc
  | .numberExpr _, sc => sc
  | .variableExpr _, sc => sc
  | .unaryExpr _ operand, sc => scopeAfter operand sc
  | .binaryExpr op lhs rhs, sc =>
    if op = byte '=' then scopeAfter rhs sc else scopeAfter rhs (scopeAfter lhs sc)
  | .callExpr _ args, sc => scopeArgs args sc
  | .ifExpr cond then_ else_, sc => scopeAfter else_ (scopeAfter then_ (scopeAfter cond sc))
  | .varExpr varNames body, sc =>
    NameScope.restore (scopeBindings varNames sc).1 (scopeAfter body (scopeBindings varNames sc).2)
  | .forExpr _ _ _ _ _, sc => sc

def scopeArgs : List (ExprAST D) → NameScope → NameScope
  | [], sc => sc
  | arg :: args, sc => scopeArgs args (scopeAfter arg sc)

/-- The names that a `var` has to restore, and the scope of its body. -/
def scopeBindings : List (Name × ExprAST D) → NameScope → List (Name × Option Nat) × NameScope
  | [], sc => ([], sc)
  | (name, init) :: rest, sc =>
    ((name, (scopeAfter init sc).table name) ::
      (scopeBindings rest ((scopeAfter init sc).bind name)).1,
      (scopeBindings rest ((scopeAfter init sc).bind name)).2)

end

mutual

/-- No loop in the expression, and every function that it calls is one of these. -/
def loopFree (callable : Name → Bool) : ExprAST D → Bool
  | .null => true
  | .numberExpr _ => true
  | .variableExpr _ => true
  | .unaryExpr _ operand => loopFree callable operand
  | .binaryExpr _ lhs rhs => loopFree callable lhs && loopFree callable rhs
  | .callExpr callee args => callable callee && loopFreeArgs callable args
  | .ifExpr cond then_ else_ =>
    loopFree callable cond && loopFree callable then_ && loopFree callable else_
  | .forExpr _ _ _ _ _ => false
  | .varExpr varNames body => loopFreeBindings callable varNames && loopFree callable body

def loopFreeArgs (callable : Name → Bool) : List (ExprAST D) → Bool
  | [] => true
  | arg :: args => loopFree callable arg && loopFreeArgs callable args

def loopFreeBindings (callable : Name → Bool) : List (Name × ExprAST D) → Bool
  | [] => true
  | (_, init) :: rest => loopFree callable init && loopFreeBindings callable rest

end

theorem loopFreeArgs_iff {callable : Name → Bool} {args : List (ExprAST D)} :
    loopFreeArgs callable args = true ↔ ∀ a ∈ args, loopFree callable a = true := by
  induction args with
  | nil => simp [loopFreeArgs]
  | cons arg args ih => simp [loopFreeArgs, ih]

theorem loopFreeBindings_iff {callable : Name → Bool} {varNames : List (Name × ExprAST D)} :
    loopFreeBindings callable varNames = true ↔
      ∀ b ∈ varNames, loopFree callable b.2 = true := by
  induction varNames with
  | nil => simp [loopFreeBindings]
  | cons b rest ih => simp [loopFreeBindings, ih]

mutual

/-- No loop in the expression, and no operator that a program has to define. -/
def builtIn : ExprAST D → Bool
  | .null => true
  | .numberExpr _ => true
  | .variableExpr _ => true
  | .unaryExpr _ _ => false
  | .binaryExpr op lhs rhs =>
    (op = byte '=' || op = byte '+' || op = byte '-' || op = byte '*' || op = byte '<') &&
      builtIn lhs && builtIn rhs
  | .callExpr _ args => builtInArgs args
  | .ifExpr cond then_ else_ => builtIn cond && builtIn then_ && builtIn else_
  | .forExpr _ _ _ _ _ => false
  | .varExpr varNames body => builtInBindings varNames && builtIn body

def builtInArgs : List (ExprAST D) → Bool
  | [] => true
  | arg :: args => builtIn arg && builtInArgs args

def builtInBindings : List (Name × ExprAST D) → Bool
  | [] => true
  | (_, init) :: rest => builtIn init && builtInBindings rest

end

theorem builtInArgs_iff {args : List (ExprAST D)} :
    builtInArgs args = true ↔ ∀ a ∈ args, builtIn a = true := by
  induction args with
  | nil => simp [builtInArgs]
  | cons arg args ih => simp [builtInArgs, ih]

theorem builtInBindings_iff {varNames : List (Name × ExprAST D)} :
    builtInBindings varNames = true ↔ ∀ b ∈ varNames, builtIn b.2 = true := by
  induction varNames with
  | nil => simp [builtInBindings]
  | cons b rest ih => simp [builtInBindings, ih]

theorem loopFree_of_builtIn {e : ExprAST D} (h : builtIn e = true) :
    loopFree (fun _ => true) e = true := by
  induction e using ExprAST.induction with
  | null => rw [loopFree]
  | numberExpr val => rw [loopFree]
  | variableExpr name => rw [loopFree]
  | unaryExpr op operand _ => cases h
  | forExpr varName start end_ step body _ _ _ _ => cases h
  | binaryExpr op lhs rhs ihl ihr =>
    rw [builtIn, Bool.and_eq_true, Bool.and_eq_true] at h
    rw [loopFree, ihl h.1.2, ihr h.2]
    rfl
  | callExpr callee args ih =>
    rw [builtIn, builtInArgs_iff] at h
    rw [loopFree, Bool.true_and, loopFreeArgs_iff]
    exact fun a ha => ih a ha (h a ha)
  | ifExpr cond then_ else_ ihc iht ihe =>
    rw [builtIn, Bool.and_eq_true, Bool.and_eq_true] at h
    rw [loopFree, ihc h.1.1, iht h.1.2, ihe h.2]
    rfl
  | varExpr varNames body ihs ih =>
    rw [builtIn, Bool.and_eq_true, builtInBindings_iff] at h
    rw [loopFree, Bool.and_eq_true, loopFreeBindings_iff]
    exact ⟨fun b hb => ihs b hb (h.1 b hb), ih h.2⟩

/-- A name in scope, as the left side of an assignment. -/
def Assignable (sc : NameScope) : ExprAST D → Prop
  | .variableExpr name => (sc.table name).isSome
  | _ => False

/-- The operators of which `eval` knows the meaning. -/
def Arithmetic (op : Byte) : Prop :=
  op = byte '+' ∨ op = byte '-' ∨ op = byte '*' ∨ op = byte '<'

mutual

/-- Every name is in scope where it stands, and every operator has a meaning. -/
def Resolves : ExprAST D → NameScope → Prop
  | .null, _ => False
  | .numberExpr _, _ => True
  | .variableExpr name, sc => (sc.table name).isSome
  | .unaryExpr _ operand, sc => Resolves operand sc
  | .binaryExpr op lhs rhs, sc =>
    if op = byte '=' then Resolves rhs sc ∧ Assignable (scopeAfter rhs sc) lhs
    else Resolves lhs sc ∧ Resolves rhs (scopeAfter lhs sc) ∧ Arithmetic op
  | .callExpr _ args, sc => ResolvesArgs args sc
  | .ifExpr cond then_ else_, sc =>
    Resolves cond sc ∧ Resolves then_ (scopeAfter cond sc) ∧
      Resolves else_ (scopeAfter then_ (scopeAfter cond sc))
  | .varExpr varNames body, sc =>
    ResolvesBindings varNames sc ∧ Resolves body (scopeBindings varNames sc).2
  | .forExpr _ _ _ _ _, _ => False

def ResolvesArgs : List (ExprAST D) → NameScope → Prop
  | [], _ => True
  | arg :: args, sc => Resolves arg sc ∧ ResolvesArgs args (scopeAfter arg sc)

def ResolvesBindings : List (Name × ExprAST D) → NameScope → Prop
  | [], _ => True
  | (name, init) :: rest, sc =>
    (init.isNull = true ∨ Resolves init sc) ∧ ResolvesBindings rest ((scopeAfter init sc).bind name)

end

/-! ## Cells of a back end -/

/-- The cells of a back end, by their numbers, and the table that it keeps. -/
structure NameScope.Placed {K : Type} (sc : NameScope) (cells : List K) (names : Name → Option K) :
    Prop where
  length : cells.length = sc.next
  distinct : cells.Nodup
  inside : ∀ name c, sc.table name = some c → c < sc.next
  names : ∀ name, names name = (sc.table name).bind (cells[·]?)

/-- In front of the parameters of a function nothing is in scope. -/
theorem NameScope.Placed.empty {K : Type} :
    NameScope.Placed ⟨fun _ => none, 0⟩ ([] : List K) fun _ => none where
  length := rfl
  distinct := List.nodup_nil
  inside := fun _ _ hc => by cases hc
  names := fun _ => rfl

namespace NameScope.Placed

variable {K : Type} {sc : NameScope} {cells : List K} {names : Name → Option K}

/-- The cell behind a name. -/
theorem find (h : sc.Placed cells names) {name : Name} {k : K} (hk : names name = some k) :
    ∃ c, sc.table name = some c ∧ c < sc.next ∧ cells[c]? = some k := by
  rw [h.names] at hk
  obtain ⟨c, hc, hk⟩ := Option.bind_eq_some_iff.mp hk
  exact ⟨c, hc, h.inside name c hc, hk⟩

theorem set (h : sc.Placed cells names) (name : Name) (old : Option Nat)
    (hold : ∀ c, old = some c → c < sc.next) : (sc.set name old).Placed cells
      (fun k => if k = name then old.bind (cells[·]?) else names k) where
  length := h.length
  distinct := h.distinct
  inside := by
    intro k c hc
    change (if k = name then old else sc.table k) = some c at hc
    split at hc
    · exact hold c hc
    · exact h.inside k c hc
  names := by
    intro k
    show _ = (if k = name then old else sc.table k).bind _
    split
    · rfl
    · exact h.names k

/-- A cell that no name is in yet. -/
theorem allocate (h : sc.Placed cells names) {k : K} (hk : k ∉ cells) :
    sc.allocate.Placed (cells ++ [k]) names where
  length := by
    rw [List.length_append, h.length]
    rfl
  distinct := by
    rw [List.nodup_append]
    refine ⟨h.distinct, by simp, ?_⟩
    rintro a ha b hb rfl
    exact hk (List.mem_singleton.mp hb ▸ ha)
  inside := by
    intro n c hc
    have hlt := h.inside n c hc
    show c < sc.next + 1
    omega
  names := by
    intro n
    show names n = (sc.table n).bind ((cells ++ [k])[·]?)
    rw [h.names]
    cases hn : sc.table n with
    | none => rfl
    | some c =>
      have hlt : c < cells.length := h.length ▸ h.inside n c hn
      simp [List.getElem?_append_left hlt]

/-- The last cell. -/
theorem last {k : K} (h : sc.allocate.Placed (cells ++ [k]) names) :
    (cells ++ [k])[sc.next]? = some k := by
  have hlength := h.length
  rw [List.length_append, List.length_singleton] at hlength
  have hnext : cells.length = sc.next := Nat.succ_inj.mp hlength
  rw [← hnext, List.getElem?_concat_length]

/-- The name of the last cell. -/
theorem bind {k : K} (h : sc.allocate.Placed (cells ++ [k]) names) (name : Name) :
    (sc.bind name).Placed (cells ++ [k]) (fun n => if n = name then some k else names n) := by
  have hset := h.set name (some sc.next) fun c hc => by
    cases hc
    exact Nat.lt_succ_self _
  rwa [Option.bind_some, h.last] at hset

end NameScope.Placed

/-- What the restoring loop does to a table. -/
def restoreTable {K : Type} : List (Name × Option K) → (Name → Option K) → Name → Option K
  | [], names => names
  | (name, old) :: olds, names => restoreTable olds fun k => if k = name then old else names k

/-- `olds` are the cells that have been saved. -/
structure Saved {K : Type} (saved : List (Name × Option Nat)) (cells : List K)
    (olds : List (Name × Option K)) : Prop where
  inside : ∀ p ∈ saved, ∀ c, p.2 = some c → c < cells.length
  olds : olds = saved.map fun p => (p.1, p.2.bind (cells[·]?))

theorem Saved.mono {K : Type} {saved : List (Name × Option Nat)} {cells cells' : List K}
    {olds : List (Name × Option K)} (h : Saved saved cells olds) (hle : cells <+: cells') :
    Saved saved cells' olds where
  inside p hp c hc := Nat.lt_of_lt_of_le (h.inside p hp c hc) hle.length_le
  olds := by
    rw [h.olds]
    apply List.map_congr_left
    intro p hp
    cases hc : p.2 with
    | none => rfl
    | some c =>
      have hget := List.getElem?_eq_getElem (h.inside p hp c hc)
      simp only [Option.bind_some, hget, getElem?_of_le hle hget]

/-- One more name that has been saved, before those. -/
theorem Saved.cons {K : Type} {sc : NameScope} {saved : List (Name × Option Nat)}
    {cells cells' : List K}
    {names : Name → Option K} {olds : List (Name × Option K)} (h : Saved saved cells' olds)
    (name : Name) (hp : sc.allocate.Placed cells names) (hle : cells <+: cells') :
    Saved ((name, sc.table name) :: saved) cells' ((name, names name) :: olds) := by
  have hinside : ∀ c, sc.table name = some c → c < cells.length := by
    intro c hc
    rw [hp.length]
    exact hp.inside name c hc
  have hone : Saved [(name, sc.table name)] cells [(name, names name)] := by
    refine ⟨fun p hmem c hc => ?_, ?_⟩
    · rw [List.mem_singleton.mp hmem] at hc
      exact hinside c hc
    · rw [hp.names]
      rfl
  have hmono := hone.mono hle
  refine ⟨fun p hmem => ?_, ?_⟩
  · rcases List.mem_cons.mp hmem with rfl | hmem
    · exact hmono.inside _ (List.mem_singleton_self _)
    · exact h.inside p hmem
  · rw [h.olds, List.map_cons, List.cons_eq_cons]
    exact ⟨(List.cons_eq_cons.mp hmono.olds).1, rfl⟩

theorem NameScope.Placed.restore {K : Type} {sc : NameScope} {cells : List K}
    {names : Name → Option K}
    {saved : List (Name × Option Nat)} {olds : List (Name × Option K)} (hs : Saved saved cells olds)
    (h : sc.Placed cells names) :
    (NameScope.restore saved sc).Placed cells (restoreTable olds names) := by
  obtain ⟨hinside, rfl⟩ := hs
  induction saved generalizing sc names with
  | nil => exact h
  | cons p saved ih =>
    obtain ⟨name, old⟩ := p
    have hset := h.set name old fun c hc => by
      rw [← h.length]
      exact hinside _ (List.mem_cons_self ..) c hc
    exact ih hset fun q hq => hinside q (List.mem_cons_of_mem _ hq)

end

/-! ## Evaluation -/

/-- What an `if` takes for true in the back ends that compare with `une`. -/
def holds {D : Type} (ops : IntOps D) (x : D) : Bool := ops.une x ops.zero

/-- What an `if` takes for true in Athens, which compares with `one`. -/
def holdsOrdered {D : Type} (ops : FloatOps D) (x : D) : Bool := ops.one x ops.zero

/-- What is known of the cells, and what calls have done. -/
structure State (D W : Type) where
  mem : Nat → Option D
  world : W
  calls : List (Name × List D)

namespace State

variable {D W : Type}

def write (st : State D W) (c : Nat) (x : D) : State D W :=
  { st with mem := fun k => if k = c then some x else st.mem k }

/-- The arguments of a function, in the cells from `c` on. -/
def writeAll : List D → Nat → State D W → State D W
  | [], _, st => st
  | x :: xs, c, st => writeAll xs (c + 1) (st.write c x)

/-- `later` knows of every cell that `st` knows of. -/
def Known (st later : State D W) : Prop := ∀ c, (st.mem c).isSome → (later.mem c).isSome

theorem Known.refl (st : State D W) : st.Known st := fun _ h => h

theorem Known.trans {st st' st'' : State D W} (h : st.Known st') (h' : st'.Known st'') :
    st.Known st'' := fun c hc => h' c (h c hc)

theorem known_write (st : State D W) (c : Nat) (x : D) : st.Known (st.write c x) := by
  intro k hk
  show (if k = c then some x else st.mem k).isSome
  split
  · rfl
  · exact hk

end State

/-- The memory of a back end has the values that are known, in these cells. -/
structure State.Matches {D W K : Type} (st : State D W) (cells : List K) (mem : K → D) (world : W)
    (calls : List (Name × List D)) : Prop where
  mem : ∀ c k x, cells[c]? = some k → st.mem c = some x → mem k = x
  world : world = st.world
  calls : calls = st.calls

/-- Whatever is in the memory, nothing is known of it. -/
theorem State.Matches.nothing {D W K : Type} {cells : List K} {mem : K → D} {world world' : W}
    {calls : List (Name × List D)} (hworld : world' = world) (hcalls : calls = []) :
    (⟨fun _ => none, world, []⟩ : State D W).Matches cells mem world' calls where
  mem := fun _ _ _ _ hx => by cases hx
  world := hworld
  calls := hcalls

theorem State.Matches.write {D W K : Type} [DecidableEq K] {st : State D W} {cells : List K}
    {mem : K → D} {world : W} {calls : List (Name × List D)} (h : st.Matches cells mem world calls)
    (hcells : cells.Nodup) {c : Nat} {k : K} (hk : cells[c]? = some k) (x : D) :
    (st.write c x).Matches cells (fun k' => if k' = k then x else mem k') world calls where
  mem := by
    intro c' k' y hk' hy
    change (if c' = c then some x else st.mem c') = some y at hy
    by_cases hc : c' = c
    · subst hc
      rw [if_pos rfl] at hy
      cases hy
      rw [hk] at hk'
      cases hk'
      exact if_pos rfl
    · rw [if_neg hc] at hy
      have hne : k' ≠ k := by
        rintro rfl
        obtain ⟨hlt, hget⟩ := List.getElem?_eq_some_iff.mp hk
        obtain ⟨hlt', hget'⟩ := List.getElem?_eq_some_iff.mp hk'
        exact hc ((hcells.getElem_inj_iff).mp (hget'.trans hget.symm))
      rw [if_neg hne]
      exact h.mem c' k' y hk' hy
  world := h.world
  calls := h.calls

/-- A result, or a call that does not come back, with its arguments. -/
abbrev Value (D W α : Type) := Ending (State D W) (Name × List D) α

section
variable {D W : Type} (ops : FloatOps D) (callees : Callees D Name W) (test : D → Bool)

/-- A call that comes back is recorded. -/
def evalCall (callee : Name) (args : List D) (st : State D W) : Value D W D :=
  match callees callee args st.world with
  | none => .waits (callee, args) st
  | some r => .done r.1 { st with world := r.2, calls := st.calls ++ [(callee, args)] }

def evalBinary (op : Byte) (x y : D) (st : State D W) : Value D W D :=
  if op = byte '+' then .done (ops.add x y) st
  else if op = byte '-' then .done (ops.sub x y) st
  else if op = byte '*' then .done (ops.mul x y) st
  else if op = byte '<' then .done (ops.uitofp (ops.ult x y)) st
  else .unknown

def evalUnary (op : Byte) (x : D) (st : State D W) : Value D W D :=
  if op = byte '-' then .done (ops.sub ops.zero x) st
  else evalCall callees (text "unary" ++ [op]) [x] st

/-- What an assignment does with its right side, in the scope behind it. -/
def evalAssignment (lhs : ExprAST D) (sc : NameScope) (x : D) (st : State D W) : Value D W D :=
  match lhs with
  | .variableExpr name =>
    match sc.table name with
    | some c => .done x (st.write c x)
    | none => .unknown
  | _ => .unknown

def evalVariable (name : Name) (sc : NameScope) (st : State D W) : Value D W D :=
  match (sc.table name).bind st.mem with
  | some x => .done x st
  | none => .unknown

mutual

def eval : ExprAST D → NameScope → State D W → Value D W D
  | .null, _, _ => .unknown
  | .numberExpr val, _, st => .done val st
  | .variableExpr name, sc, st => evalVariable name sc st
  | .unaryExpr op operand, sc, st => (eval operand sc st).bind (evalUnary ops callees op)
  | .binaryExpr op lhs rhs, sc, st =>
    if op = byte '=' then (eval rhs sc st).bind (evalAssignment lhs (scopeAfter rhs sc))
    else
      (eval lhs sc st).bind fun x st =>
      (eval rhs (scopeAfter lhs sc) st).bind (evalBinary ops op x)
  | .callExpr callee args, sc, st => (evalArgs args sc st).bind (evalCall callees callee)
  | .ifExpr cond then_ else_, sc, st =>
    (eval cond sc st).bind fun x st =>
      if test x then eval then_ (scopeAfter cond sc) st
      else eval else_ (scopeAfter then_ (scopeAfter cond sc)) st
  | .varExpr varNames body, sc, st =>
    (evalBindings varNames sc st).bind fun _ st => eval body (scopeBindings varNames sc).2 st
  | .forExpr _ _ _ _ _, _, _ => .unknown

def evalArgs : List (ExprAST D) → NameScope → State D W → Value D W (List D)
  | [], _, st => .done [] st
  | arg :: args, sc, st =>
    (eval arg sc st).bind fun x st => (evalArgs args (scopeAfter arg sc) st).map (x :: ·)

def evalBindings : List (Name × ExprAST D) → NameScope → State D W → Value D W Unit
  | [], _, st => .done () st
  | (name, init) :: rest, sc, st =>
    (if init.isNull then .done ops.zero st else eval init sc st).bind fun x st =>
      evalBindings rest ((scopeAfter init sc).bind name) (st.write (scopeAfter init sc).next x)

end

-- The equations are generated here, once, for all the proofs that ask for them.
attribute [local simp] eval evalArgs evalBindings

/-! ## Functions -/

/-- The parameters of a function are the first cells. -/
def entryScope (params : List Name) : NameScope := .bindAll params ⟨fun _ => none, 0⟩

/-- They have the arguments, and nothing else is known of the cells. -/
def entryState (args : List D) (world : W) : State D W :=
  .writeAll args 0 ⟨fun _ => none, world, []⟩

/-- What a call of a function with these parameters and this body means. -/
def evalFunction (params : List Name) (body : ExprAST D) (args : List D) (world : W) :
    Value D W D :=
  eval ops callees test body (entryScope params) (entryState args world)

/-- The inputs of a machine that are the arguments, one by one. -/
theorem inputs_eq {read : Nat → D} {args : List D} (h : ∀ i x, args[i]? = some x → read i = x) :
    (List.range' 0 args.length).map read = args := by
  apply List.ext_getElem
  · simp
  · intro i hi hi'
    simpa using h i _ (List.getElem?_eq_getElem hi')

end

end AroundTheWorld.Agreement
