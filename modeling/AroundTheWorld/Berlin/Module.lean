import AroundTheWorld.Berlin.MlirGen

/-!
# Berlin's module

`genFunction` and `genPrototype` over the module. An operation that is created
goes to the insertion point of the builder, which nobody resets between two
items; `push_back` takes an operation that is in no block.
-/

namespace AroundTheWorld.Berlin

open AroundTheWorld.Base AroundTheWorld.Lex AroundTheWorld.Mlir
open AroundTheWorld.Athens (ExprAST FunctionAST PrototypeAST Name)
open AroundTheWorld.Llvm (FloatOps)

/-- Where a `func.func` is. -/
inductive Place where
  | detached
  | inBlock (block : Nat)
  | inModule
  | erased
  deriving DecidableEq, Repr

structure FuncOp where
  name : Name
  numInputs : Nat
  place : Place
  entry : Option Nat := none
  deriving DecidableEq, Repr

/-- The members of `MLIRGen`, the functions that have been created, numbered in
this order, and the top-level operations of `module_`. -/
structure ModuleState (D : Type) where
  gen : BerlinState D := {}
  funcs : List FuncOp := []
  topLevel : List Nat := []

/-- Why a call does not return: `push_back` asserts that the operation is in no
block. -/
inductive Crash where
  | aborted (why : Abort)
  | alreadyInBlock
  deriving DecidableEq, Repr

inductive Item (D : Type) where
  | function (f : FunctionAST D)
  | prototype (p : PrototypeAST)

variable {D : Type}

namespace Item

def proto : Item D → PrototypeAST
  | .function f => f.proto
  | .prototype p => p

def isFunction : Item D → Bool
  | .function _ => true
  | .prototype _ => false

end Item

/-- Where `create` puts an operation. -/
def placeAt : InsertPoint → Place
  | .unset => .detached
  | .atEnd block => .inBlock block
  | .erased => .erased

namespace ModuleState

/-- `builder_.create<FuncOp>` and `setPrivate`. -/
def createFunc (proto : PrototypeAST) (s : ModuleState D) : Except Crash (Nat × ModuleState D) :=
  match s.gen.builder.insert (.funcOp s.funcs.length) with
  | none => .error (.aborted .insertIntoErased)
  | some builder =>
    .ok (s.funcs.length, { s with
      gen := { s.gen with builder }
      funcs := s.funcs ++
        [⟨proto.name, proto.args.length, placeAt s.gen.builder.insertPoint, none⟩] })

/-- `module_.push_back`. -/
def pushBack (func : Nat) (s : ModuleState D) : Except Crash (ModuleState D) :=
  if s.funcs[func]?.map (·.place) = some .detached then
    .ok { s with
      funcs := s.funcs.modify func fun op => { op with place := .inModule }
      topLevel := s.topLevel ++ [func] }
  else .error .alreadyInBlock

/-- `addEntryBlock`: the block and its arguments. -/
def addEntryBlock (func numInputs : Nat) (s : ModuleState D) : Nat × List Nat × ModuleState D :=
  let builder := s.gen.builder.newBlock.2
  (s.gen.builder.newBlock.1, List.range' builder.nextValue numInputs, { s with
    gen := { s.gen with builder := { builder with nextValue := builder.nextValue + numInputs } }
    funcs := s.funcs.modify func fun op => { op with entry := some s.gen.builder.newBlock.1 } })

/-- `funcOp.erase()`, while the builder inserts somewhere inside the function. -/
def eraseFunc (func : Nat) (s : ModuleState D) : ModuleState D :=
  { s with
    gen := { s.gen with builder := s.gen.builder.setInsertPoint .erased }
    funcs := s.funcs.modify func fun op => { op with place := .erased }
    topLevel := s.topLevel.filter (· ≠ func) }

end ModuleState

def clearNames : BerlinGen D Unit := fun s => .ok () { s with namedValues := fun _ => none }

/-- The loop of `genFunction` over the arguments of the entry block. -/
def genParams : List (Name × Nat) → BerlinGen D Unit
  | [] => pure ()
  | (name, arg) :: rest => do
    let alloca ← create .alloca
    createOp (.store arg alloca)
    bindName name (some alloca)
    genParams rest

section
variable (ops : FloatOps D)

/-- `genFunction` from `setInsertionPointToStart` on; null when the body is. -/
def genEntry (f : FunctionAST D) (entry : Nat) (args : List Nat) : BerlinGen D Unit := do
  setInsertPoint (.atEnd entry)
  clearNames
  genParams (f.proto.args.zip args)
  let bodyVal ← gen ops f.body
  createOp (.returnOp bodyVal)

/-- `genFunction` from `addEntryBlock` on. -/
def genBlock (f : FunctionAST D) (func : Nat) (s : ModuleState D) : Except Crash (ModuleState D) :=
  let (entry, args, s) := s.addEntryBlock func f.proto.args.length
  match genEntry ops f entry args s.gen with
  | .ok _ gen => .ok { s with gen }
  | .null gen => .ok (ModuleState.eraseFunc func { s with gen })
  | .abort why => .error (.aborted why)

def genFunction (f : FunctionAST D) (s : ModuleState D) : Except Crash (ModuleState D) := do
  let (func, s) ← s.createFunc f.proto
  let s ← s.pushBack func
  genBlock ops f func s

def genPrototype (proto : PrototypeAST) (s : ModuleState D) : Except Crash (ModuleState D) := do
  let (func, s) ← s.createFunc proto
  s.pushBack func

def genItem : Item D → ModuleState D → Except Crash (ModuleState D)
  | .function f => genFunction ops f
  | .prototype proto => genPrototype proto

/-- The items of a file, one after another. -/
def genItems : List (Item D) → ModuleState D → Except Crash (ModuleState D)
  | [], s => pure s
  | item :: items, s => do
    let s ← genItem ops item s
    genItems items s

end

/-! ## Functions that are created -/

theorem modify_last {α : Type} (l : List α) (a : α) (f : α → α) :
    (l ++ [a]).modify l.length f = l ++ [f a] := by
  apply List.ext_getElem?
  intro i
  rw [List.getElem?_modify, List.getElem?_append, List.getElem?_append]
  by_cases hi : i < l.length
  · have hne : l.length ≠ i := by omega
    simp [hi, hne]
  · by_cases heq : i = l.length
    · simp [heq]
    · have hout : i - l.length ≠ 0 := by omega
      simp [hi, Ne.symm heq, hout]

namespace ModuleState

/-- The module with one more function, which has no body yet. -/
def declared (s : ModuleState D) (proto : PrototypeAST) : ModuleState D :=
  { s with
    funcs := s.funcs ++ [⟨proto.name, proto.args.length, .inModule, none⟩]
    topLevel := s.topLevel ++ [s.funcs.length] }

/-- The module with one more function, whose entry block exists. -/
def started (s : ModuleState D) (f : FunctionAST D) : ModuleState D :=
  { gen := { s.gen with builder := { s.gen.builder with
      nextBlock := s.gen.builder.nextBlock + 1
      nextValue := s.gen.builder.nextValue + f.proto.args.length } }
    funcs := s.funcs ++
      [⟨f.proto.name, f.proto.args.length, .inModule, some s.gen.builder.nextBlock⟩]
    topLevel := s.topLevel ++ [s.funcs.length] }

/-- Outside all blocks a function is created detached, and goes into the module. -/
theorem createFunc_unset {s : ModuleState D} (h : s.gen.builder.insertPoint = .unset)
    (proto : PrototypeAST) : ∃ s', s.createFunc proto = .ok (s.funcs.length, s') ∧
      s'.pushBack s.funcs.length = .ok (s.declared proto) := by
  refine ⟨{ s with funcs := s.funcs ++ [⟨proto.name, proto.args.length, .detached, none⟩] }, ?_, ?_⟩
  · unfold createFunc OpBuilder.insert
    rw [h]
    rfl
  · unfold pushBack
    simp only [List.getElem?_concat_length, Option.map_some, if_true, modify_last]
    rfl

theorem addEntryBlock_declared (s : ModuleState D) (f : FunctionAST D) :
    (s.declared f.proto).addEntryBlock s.funcs.length f.proto.args.length =
      (s.gen.builder.nextBlock, List.range' s.gen.builder.nextValue f.proto.args.length,
        s.started f) := by
  unfold addEntryBlock declared
  simp only [modify_last]
  rfl

/-- Inside a block it is in that block, and cannot go anywhere else. -/
theorem createFunc_atEnd {s : ModuleState D} {q : Nat} (h : s.gen.builder.insertPoint = .atEnd q)
    (proto : PrototypeAST) : ∃ s', s.createFunc proto = .ok (s.funcs.length, s') ∧
      s'.pushBack s.funcs.length = .error .alreadyInBlock := by
  unfold createFunc OpBuilder.insert
  rw [h]
  refine ⟨_, rfl, ?_⟩
  unfold pushBack
  simp [placeAt]

end ModuleState

section
variable {ops : FloatOps D} {s : ModuleState D}

theorem genPrototype_unset (h : s.gen.builder.insertPoint = .unset) (proto : PrototypeAST) :
    genPrototype proto s = .ok (s.declared proto) := by
  obtain ⟨s', hcreate, hpush⟩ := ModuleState.createFunc_unset h proto
  unfold genPrototype
  rw [hcreate]
  exact hpush

/-- The entry block of a function that has gone into the module. -/
def runEntry (ops : FloatOps D) (f : FunctionAST D) (s : ModuleState D) :
    Outcome (BerlinState D) Abort Unit :=
  genEntry ops f s.gen.builder.nextBlock
    (List.range' s.gen.builder.nextValue f.proto.args.length) (s.started f).gen

/-- The code of a function when no other definition has come before. -/
theorem genFunction_unset (h : s.gen.builder.insertPoint = .unset) (f : FunctionAST D) :
    genFunction ops f s =
      match runEntry ops f s with
      | .ok _ gen => .ok { s.started f with gen }
      | .null gen => .ok (ModuleState.eraseFunc s.funcs.length { s.started f with gen })
      | .abort why => .error (.aborted why) := by
  obtain ⟨s', hcreate, hpush⟩ := ModuleState.createFunc_unset h f.proto
  unfold genFunction
  rw [hcreate]
  show (s'.pushBack _ >>= _) = _
  rw [hpush]
  show genBlock ops f s.funcs.length (s.declared f.proto) = _
  unfold genBlock runEntry
  rw [ModuleState.addEntryBlock_declared]

/-- Behind a definition every item crashes. -/
theorem genItem_atEnd {q : Nat} (h : s.gen.builder.insertPoint = .atEnd q) (item : Item D) :
    genItem ops item s = .error .alreadyInBlock := by
  cases item with
  | function f =>
    obtain ⟨s', hcreate, hpush⟩ := ModuleState.createFunc_atEnd h f.proto
    show genFunction ops f s = _
    unfold genFunction
    rw [hcreate]
    show (s'.pushBack _ >>= _) = _
    rw [hpush]
    rfl
  | prototype proto =>
    obtain ⟨s', hcreate, hpush⟩ := ModuleState.createFunc_atEnd h proto
    show genPrototype proto s = _
    unfold genPrototype
    rw [hcreate]
    exact hpush

/-- The function would be created in an erased one. -/
theorem genItem_erased (h : s.gen.builder.insertPoint = .erased) (item : Item D) :
    genItem ops item s = .error (.aborted .insertIntoErased) := by
  have hcreate : ∀ proto, s.createFunc proto = .error (.aborted .insertIntoErased) := by
    intro proto
    unfold ModuleState.createFunc OpBuilder.insert
    rw [h]
  cases item with
  | function f =>
    show genFunction ops f s = _
    unfold genFunction
    rw [hcreate]
    rfl
  | prototype proto =>
    show genPrototype proto s = _
    unfold genPrototype
    rw [hcreate]
    rfl

/-! ## Lists of items -/

theorem genItems_append (items items' : List (Item D)) (s : ModuleState D) :
    genItems ops (items ++ items') s = genItems ops items s >>= genItems ops items' := by
  induction items generalizing s with
  | nil => rfl
  | cons item items ih =>
    show (genItem ops item s >>= genItems ops (items ++ items')) =
      (genItem ops item s >>= genItems ops items) >>= genItems ops items'
    rw [bind_assoc]
    congr 1
    funext s
    exact ih s

end

end AroundTheWorld.Berlin
