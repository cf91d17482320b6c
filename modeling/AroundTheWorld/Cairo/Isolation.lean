import AroundTheWorld.Base.Inherited
import AroundTheWorld.Cairo.Params

/-!
# What a function takes over from earlier ones

The tables of variables and of pointer parameters are members of the generator.
A kernel clears the pointers, a device function the variables, and each finds in
the other table what earlier functions have left there. A function that reads
nothing of it is generated as if it were the first: `scan` follows the generator
through an expression and lists the entries that are read before the function
has written them.
-/

namespace AroundTheWorld.Cairo

open AroundTheWorld.Base AroundTheWorld.Base.Inherited AroundTheWorld.Lex AroundTheWorld.Llvm
open AroundTheWorld.Athens (ExprAST FunctionAST PrototypeAST Name)

variable {D : Type}

/-- An entry of one of the two tables. -/
inductive Entry where
  | variable_ (name : Name)
  | param (index : Nat)
  deriving DecidableEq

def CairoState.table (s : CairoState D) : Entry → Option Owned
  | .variable_ name => s.namedValues name
  | .param index => s.kernelParams[index]?.map (·.ptr)

/-! ## Which entries are read -/

section
variable (ops : IntOps D) (functions : Name → Option Signature)

def scanAssignment (lhs : ExprAST D) (rhs : Scan Entry) : Scan Entry :=
  match lhs with
  | .null => .abort
  | .variableExpr name => rhs.seq (.read (.variable_ name))
  | _ => .fail

def scanLoad (args : List (ExprAST D)) (scans : List (Scan Entry)) : Scan Entry :=
  match args, scans with
  | [ptrArg, _], [_, elem] =>
    match literalIndex ops ptrArg with
    | none => .fail
    | some ptrIdx => elem.seq (.read (.param ptrIdx))
  | _, _ => .fail

def scanStore (args : List (ExprAST D)) (scans : List (Scan Entry)) : Scan Entry :=
  match args, scans with
  | [ptrArg, _, _], [_, elem, val] =>
    match literalIndex ops ptrArg with
    | none => .fail
    | some ptrIdx => elem.seq (val.seq (.read (.param ptrIdx)))
  | _, _ => .fail

def scanAll : List (Scan Entry) → Scan Entry
  | [] => .nop
  | x :: xs => x.seq (scanAll xs)

def scanBuiltinCall (name : Name) (args : List (ExprAST D)) (scans : List (Scan Entry)) :
    Scan Entry :=
  if (findRegisterBuiltin name).isSome then .nop
  else if name = text "cairoLoad" then scanLoad ops args scans
  else if name = text "cairoStore" then scanStore ops args scans
  else .fail

def scanCall (callee : Name) (args : List (ExprAST D)) (scans : List (Scan Entry)) : Scan Entry :=
  if isBuiltinCall callee then scanBuiltinCall ops callee args scans
  else
    match functions callee with
    | none => .fail
    | some signature => (scanAll scans).seq
        (if signature.kernel = false ∧ signature.argc = scans.length then .nop else .abort)

def scanBinary (op : Byte) : Scan Entry :=
  if op = byte '+' ∨ op = byte '-' ∨ op = byte '*' ∨ op = byte '<' then .nop else .fail

/-- What a `var` writes back, from the first binding on. -/
def restoreMarks : List (Entry × Option Bool) → Scan Entry
  | [] => .nop
  | (k, b) :: rest => fun m => restoreMarks rest (m.set k b)

mutual

def scan : ExprAST D → Scan Entry
  | .null => .abort
  | .numberExpr _ => .nop
  | .variableExpr name => .read (.variable_ name)
  | .binaryExpr op lhs rhs =>
    if op = byte '=' then scanAssignment lhs (scan rhs)
    else (scan lhs).attempt ((scan rhs).attempt (scanBinary op) .fail)
      ((scan rhs).attempt .fail .fail)
  | .unaryExpr op operand => if op = byte '-' then scan operand else .fail
  | .ifExpr cond then_ else_ => (scan cond).seq ((scan then_).seq (scan else_))
  | .forExpr varName start end_ step body =>
    (scan start).attempt
      ((scan end_).attempt
        ((if step.isNull then .nop else scan step).seq ((Scan.write (.variable_ varName) true).seq
          ((scan body).seq (.write (.variable_ varName) false)))) .fail)
      ((scan end_).attempt .fail .fail)
  | .callExpr callee args => scanCall ops functions callee args (scanArgs args)
  | .varExpr varNames body => fun m =>
    let restored := restoreMarks (scanBindings varNames m).2
    Scan.seq (fun m => (scanBindings varNames m).1)
      ((scan body).attempt restored (restored.seq .fail)) m

def scanArgs : List (ExprAST D) → List (Scan Entry)
  | [] => []
  | arg :: args => scan arg :: scanArgs args

/-- The bindings of a `var`, with what had been done to each name before. -/
def scanBindings : List (Name × ExprAST D) → Marks Entry →
    Scanned Entry × List (Entry × Option Bool)
  | [], m => (⟨[], m, .returned⟩, [])
  | (name, init) :: rest, m =>
    let first : Scan Entry := if init.isNull then .nop else scan init
    let more := fun m => scanBindings rest (Marks.set m (.variable_ name) (some true))
    (first.seq (fun m => (more m).1) m,
      (.variable_ name, (first m).marks (.variable_ name)) :: (more (first m).marks).2)

end

end

/-- The function that is generated: its number, and the functions it can call. -/
structure Home where
  number : Nat
  functions : Name → Option Signature

/-- The function that is created next. -/
def nextHome (s : CairoState D) (proto : PrototypeAST) : Home where
  number := s.nextFunction
  functions k :=
    if k = (s.created proto.name).name ∧ k ≠ [] then
      some ⟨isKernel proto.name, proto.args.length⟩
    else s.theModule k

/-- A kernel has written the pointers and no variable. -/
def kernelMarks (argc : Nat) : Marks Entry
  | .variable_ _ => none
  | .param index => some (decide (index < argc))

/-- A device function has written the variables and no pointer. -/
def deviceMarks (names : List Name) : Marks Entry
  | .variable_ name => some (names.contains name)
  | .param _ => none

/-- What a function has written in front of its body. -/
def ownMarks (proto : PrototypeAST) : Marks Entry :=
  if isKernel proto.name then kernelMarks proto.args.length
  else deviceMarks (argNames ⟨[text "entry"], 0⟩ proto.args)

/-- The entries that the function reads before it has written them. -/
def unwrittenReads (ops : IntOps D) (s : CairoState D) (f : FunctionAST D) : List Entry :=
  (scan ops (nextHome s f.proto).functions f.body (ownMarks f.proto)).reads

/-- The function reads no entry that earlier functions have left. -/
def ReadsOwn (ops : IntOps D) (s : CairoState D) (f : FunctionAST D) : Prop :=
  ∀ k ∈ unwrittenReads ops s f, s.table k = none

/-- Nothing is left in front of the first function. -/
theorem readsOwn_first (ops : IntOps D) (f : FunctionAST D) : ReadsOwn ops {} f := by
  intro k _
  cases k <;> rfl

theorem readsOwn_of_nil {ops : IntOps D} {s : CairoState D} {f : FunctionAST D}
    (h : unwrittenReads ops s f = []) : ReadsOwn ops s f := by
  unfold ReadsOwn
  rw [h]
  exact List.forall_mem_nil _

/-! ## Two runs of the generator -/

/-- The instruction refers to slots and pointers of the function and to functions
of the module. -/
def Home.Owns (home : Home) (i : Instr D) : Prop :=
  (∀ o ∈ i.owned, o.function = home.number) ∧ ∀ callee ∈ i.callees, (home.functions callee).isSome

/-- Instructions that refer to no slot, no pointer and no function. -/
theorem Home.owns_plain {home : Home} {i : Instr D} (ho : i.owned = []) (hc : i.callees = []) :
    home.Owns i := by
  unfold Home.Owns
  rw [ho, hc]
  exact ⟨List.forall_mem_nil _, List.forall_mem_nil _⟩

theorem Home.owns_ref {home : Home} {i : Instr D} {o : Owned} (ho : i.owned = [o])
    (hc : i.callees = []) (h : o.function = home.number) : home.Owns i := by
  unfold Home.Owns
  rw [ho, hc]
  exact ⟨List.forall_mem_singleton.mpr h, List.forall_mem_nil _⟩

/-- What earlier functions have left: the two tables, and the lines on `std::cerr`. -/
structure Leftover where
  table : Entry → Option Owned
  errors : List Text

/-- The generator behind earlier functions and the generator without what they
have left, both inside the same function. -/
structure Related (home : Home) (left : Leftover) (m : Marks Entry) (s c : CairoState D) :
    Prop where
  builder : s.builder = c.builder
  theModule : s.theModule = home.functions
  theModule' : c.theModule = home.functions
  builtins : s.builtins = c.builtins
  errors : s.errors = left.errors ++ c.errors
  table : Inherits left.table m s.table c.table
  function : c.builder.function = home.number
  owned : ∀ k v, c.table k = some v → v.function = home.number
  code : ∀ l, ∀ i ∈ c.builder.code l, home.Owns i

section
variable {home : Home} {left : Leftover} {α β : Type}

/-- Both runs end alike, as the scan says, unless an entry is read that was left. -/
abbrev Agrees (home : Home) (left : Leftover) (x : CairoGen D α) (scan : Scan Entry) : Prop :=
  Inherited.Agrees (Related home left) (fun k => left.table k = none) x scan

theorem complain_agrees (line : Text) :
    Agrees home left (complain line : CairoGen D α) .fail := by
  intro m s c h _
  have herrors : s.errors ++ [line] = left.errors ++ (c.errors ++ [line]) := by
    rw [h.errors, List.append_assoc]
  exact .null rfl ⟨h.builder, h.theModule, h.theModule', h.builtins, herrors, h.table, h.function,
    h.owned, h.code⟩

/-! ## The tables and the builder -/

theorem table_bindName (s : CairoState D) (name : Name) (v : Option Owned) :
    CairoState.table { s with namedValues := fun k => if k = name then v else s.namedValues k } =
      fun k => if k = .variable_ name then v else s.table k := by
  funext k
  cases k with
  | variable_ name' =>
    simp only [CairoState.table, Entry.variable_.injEq]
  | param index => rfl

theorem Related.bindName {m : Marks Entry} {s c : CairoState D} (h : Related home left m s c)
    {name : Name} {b : Option Bool} {v v' : Option Owned}
    (hv : Saved (left.table (.variable_ name)) b v v')
    (hown : ∀ cell, v' = some cell → cell.function = home.number) :
    Related home left (m.set (.variable_ name) b)
      { s with namedValues := fun k => if k = name then v else s.namedValues k }
      { c with namedValues := fun k => if k = name then v' else c.namedValues k } := by
  refine ⟨h.builder, h.theModule, h.theModule', h.builtins, h.errors, ?_, h.function, ?_, h.code⟩
  · rw [table_bindName, table_bindName]
    exact h.table.restore hv
  · rw [table_bindName]
    intro k cell hcell
    by_cases hk : k = .variable_ name
    · simp only [if_pos hk] at hcell
      exact hown cell hcell
    · simp only [if_neg hk] at hcell
      exact h.owned k cell hcell

theorem bindName_agrees (name : Name) {v : Option Owned}
    (hown : ∀ cell, v = some cell → cell.function = home.number) :
    Agrees home left (bindName name v : CairoGen D Unit) (.write (.variable_ name) v.isSome) := by
  intro m s c h _
  have hsame : Saved (left.table (.variable_ name)) (some v.isSome) v v := ⟨rfl, rfl⟩
  exact .returned rfl rfl (h.bindName hsame hown)

/-- What is found for a name is the function's own. -/
theorem lookupName_agrees {x : Option Owned → CairoGen D β} {name : Name}
    (hsome : ∀ cell, cell.function = home.number → Agrees home left (x (some cell)) .nop)
    (hnone : Agrees home left (x none) .fail) :
    Agrees home left (lookupName name >>= x) (.read (.variable_ name)) :=
  Inherited.Agrees.read_last CairoState.table (.variable_ name) (fun _ _ _ h => h.table)
    (fun _ _ _ v h hv => h.owned _ v hv) hsome hnone

/-- A change of the builder that adds nothing of another function. -/
def KeepsOwned (home : Home) (f : Builder D → Builder D) : Prop :=
  ∀ b, b.function = home.number → (∀ l, ∀ i ∈ b.code l, home.Owns i) →
    (f b).function = home.number ∧ ∀ l, ∀ i ∈ (f b).code l, home.Owns i

theorem Related.build {m : Marks Entry} {s c : CairoState D} (h : Related home left m s c)
    {f : Builder D → Builder D} (hf : KeepsOwned home f) :
    Related home left m { s with builder := f s.builder } { c with builder := f c.builder } := by
  obtain ⟨hfunction, hcode⟩ := hf c.builder h.function h.code
  exact ⟨by rw [h.builder], h.theModule, h.theModule', h.builtins, h.errors, h.table, hfunction,
    h.owned, hcode⟩

theorem build_agrees {f : Builder D → α × Builder D} (hf : KeepsOwned home fun b => (f b).2) :
    Agrees home left (build f) .nop := by
  intro m s c h _
  exact .returned rfl (by rw [h.builder]) (h.build hf)

theorem buildUnit_agrees {f : Builder D → Builder D} (hf : KeepsOwned home f) :
    Agrees home left (buildUnit f) .nop :=
  fun _ _ _ h _ => .returned rfl rfl (h.build hf)

theorem emit_keepsOwned {i : Instr D} (hi : home.Owns i) :
    KeepsOwned home fun b => b.emit i := by
  intro b hb hcode
  refine ⟨hb, fun l j hj => ?_⟩
  by_cases hl : l = b.insertBlock
  · simp only [Builder.emit, if_pos hl, List.mem_append, List.mem_singleton] at hj
    rcases hj with hj | rfl
    · exact hcode l j hj
    · exact hi
  · simp only [Builder.emit, if_neg hl] at hj
    exact hcode l j hj

theorem emit_agrees {i : Instr D} (hi : home.Owns i) :
    Agrees home left (emit i) .nop := buildUnit_agrees (emit_keepsOwned hi)

theorem emitReg_keepsOwned {i : Nat → Instr D} (hi : ∀ r, home.Owns (i r)) :
    KeepsOwned home fun b => (b.emitReg i).2 :=
  fun b hb hcode => emit_keepsOwned (hi b.nextReg) b hb hcode

theorem emitReg_agrees {i : Nat → Instr D} (hi : ∀ r, home.Owns (i r)) :
    Agrees home left (emitReg i) .nop := build_agrees (emitReg_keepsOwned hi)

theorem id_keepsOwned : KeepsOwned home fun b : Builder D => b := fun _ hb hcode => ⟨hb, hcode⟩

theorem createFBin_agrees (ops : IntOps D) (op : FBinOp) (lhs rhs : Operand D) :
    Agrees home left (build (·.createFBin ops op lhs rhs)) .nop := by
  apply build_agrees
  unfold Builder.createFBin
  split
  · exact id_keepsOwned
  · exact emitReg_keepsOwned (i := (.fbin op · lhs rhs)) fun _ => home.owns_plain rfl rfl

theorem createFCmp_agrees (ops : IntOps D) (pred : FCmpPred) (lhs rhs : Operand D) :
    Agrees home left (build (·.createFCmp ops pred lhs rhs)) .nop := by
  apply build_agrees
  unfold Builder.createFCmp
  split
  · exact id_keepsOwned
  · exact emitReg_keepsOwned (i := (.fcmp pred · lhs rhs)) fun _ => home.owns_plain rfl rfl

theorem createUIToFP_agrees (ops : IntOps D) (flag : Flag) :
    Agrees home left (build (·.createUIToFP ops flag) : CairoGen D (Operand D)) .nop := by
  apply build_agrees
  unfold Builder.createUIToFP
  split
  · exact id_keepsOwned
  · exact emitReg_keepsOwned (i := (.uitofp · flag)) fun _ => home.owns_plain rfl rfl

theorem createFPToSI_agrees (ops : IntOps D) (src : Operand D) :
    Agrees home left (build (·.createFPToSI ops src)) .nop := by
  apply build_agrees
  unfold Builder.createFPToSI
  split
  · exact id_keepsOwned
  · exact emitReg_keepsOwned (i := (.fptosi · src)) fun _ => home.owns_plain rfl rfl

theorem createLoad_agrees {cell : Owned} (hcell : cell.function = home.number) :
    Agrees home left (build (·.createLoad cell) : CairoGen D (Operand D)) .nop := by
  apply build_agrees
  exact emitReg_keepsOwned (i := (.load · cell)) fun _ => home.owns_ref rfl rfl hcell

theorem createBlock_agrees : Agrees home left (build (·.createBlock) : CairoGen D Nat) .nop :=
  build_agrees fun _ hb hcode => ⟨hb, hcode⟩

theorem setInsertPoint_agrees (l : Nat) :
    Agrees home left (buildUnit (·.setInsertPoint l) : CairoGen D Unit) .nop :=
  buildUnit_agrees fun _ hb hcode => ⟨hb, hcode⟩

theorem getInsertBlock_agrees : Agrees home left (getInsertBlock : CairoGen D Nat) .nop :=
  fun _ _ _ h _ => .returned rfl (by rw [h.builder]) h

theorem Home.Owns.addIncoming {i : Instr D} (h : home.Owns i) (reg : Nat)
    (entry : IntOperand × Nat) : home.Owns (i.addIncoming reg entry) := by
  cases i with
  | phiInt dst incoming =>
    show home.Owns (if dst = reg then .phiInt dst (incoming ++ [entry]) else .phiInt dst incoming)
    split
    · exact home.owns_plain rfl rfl
    · exact h
  | _ => exact h

theorem addIncoming_agrees (reg : Nat) (entry : IntOperand × Nat) :
    Agrees home left (buildUnit (·.addIncoming reg entry) : CairoGen D Unit) .nop := by
  apply buildUnit_agrees
  intro b hb hcode
  refine ⟨hb, fun l i hi => ?_⟩
  obtain ⟨j, hj, rfl⟩ := List.mem_map.mp hi
  exact (hcode l j hj).addIncoming reg entry

theorem createAlloca_keepsOwned : KeepsOwned home fun b : Builder D => b.createAlloca.2 := by
  intro b hb hcode
  exact emit_keepsOwned (i := .alloca ⟨b.function, b.nextCell⟩) (home.owns_ref rfl rfl hb) b
    hb hcode

/-- A new slot is the function's own. -/
theorem createAlloca_agrees {x : Owned → CairoGen D β} {sx : Scan Entry}
    (hx : ∀ cell, cell.function = home.number → Agrees home left (x cell) sx) :
    Agrees home left (build (·.createAlloca) >>= x) sx := by
  intro m s c h hreads
  have hrun := hx c.builder.createAlloca.1 h.function m _ _ (h.build createAlloca_keepsOwned)
    hreads
  show Follows _ _ _ (x s.builder.createAlloca.1 { s with builder := s.builder.createAlloca.2 })
    (x c.builder.createAlloca.1 { c with builder := c.builder.createAlloca.2 })
  rw [show s.builder.createAlloca.1 = c.builder.createAlloca.1 by rw [h.builder]]
  exact hrun

/-- What is found in the module is what the function can call. -/
theorem lookupFunction_agrees {x : Option Signature → CairoGen D β} {sx : Scan Entry} {name : Name}
    (hx : Agrees home left (x (home.functions name)) sx) :
    Agrees home left (lookupFunction name >>= x) sx := by
  intro m s c h hreads
  show Follows _ _ _ (x (s.theModule name) s) (x (c.theModule name) c)
  rw [h.theModule, h.theModule']
  exact hx m s c h hreads

theorem getOrDeclareIntrinsic_agrees (name : Text) :
    Agrees home left (getOrDeclareIntrinsic name : CairoGen D Unit) .nop :=
  fun _ _ _ h _ => .returned rfl rfl ⟨h.builder, h.theModule, h.theModule',
    by simp only [h.builtins], h.errors, h.table, h.function, h.owned, h.code⟩

/-! ## Constructs of the generator -/

variable {ops : IntOps D}

theorem genRegisterBuiltin_agrees (intrinsic : Text) :
    Agrees home left (genRegisterBuiltin intrinsic : CairoGen D (Operand D)) .nop := by
  unfold genRegisterBuiltin
  apply Agrees.bind_nop (getOrDeclareIntrinsic_agrees intrinsic)
  intro _
  apply Agrees.bind_nop
    (emitReg_agrees fun r => home.owns_plain (i := .callIntrinsic r intrinsic) rfl rfl)
  intro val
  apply Agrees.bind_nop (emitReg_agrees fun r => home.owns_plain (i := .sitofp r val) rfl rfl)
  exact fun reg => Agrees.pure _

/-- The element behind a pointer, if there is one. -/
def elementOf (name : Name) (ptrIdx : Nat) (elemI64 : IntOperand) : Option Owned → CairoGen D Nat
  | none => complain (name ++ text ": ptr index " ++ toText ptrIdx ++ text " out of range\n")
  | some ptr => emitReg (.gep · ptr elemI64)

/-- The name of a pointer does not matter. -/
theorem genElement_eq (name : Name) (ptrIdx : Nat) (elemI64 : IntOperand) :
    (genElement name ptrIdx elemI64 : CairoGen D Nat) =
      fun s => elementOf name ptrIdx elemI64 (s.table (.param ptrIdx)) s := by
  funext s
  have hlookup : lookupParam ptrIdx s = .ok s.kernelParams[ptrIdx]? s := rfl
  have htable : s.table (.param ptrIdx) = s.kernelParams[ptrIdx]?.map (·.ptr) := rfl
  rw [genElement, Gen.bind_of_ok hlookup, htable]
  cases s.kernelParams[ptrIdx]? <;> rfl

theorem genElement_agrees (name : Name) (ptrIdx : Nat) (elemI64 : IntOperand) :
    Agrees home left (genElement name ptrIdx elemI64 : CairoGen D Nat) (.read (.param ptrIdx)) := by
  rw [genElement_eq]
  apply Inherited.Agrees.read_last CairoState.table (.param ptrIdx) (fun _ _ _ h => h.table)
    (fun _ _ _ v h hv => h.owned _ v hv)
  · exact fun ptr hptr => emitReg_agrees fun r =>
      home.owns_ref (i := .gep r ptr elemI64) rfl rfl hptr
  · exact complain_agrees _

/-- What the arguments of a call generate, with their scans. -/
inductive AllAgree (home : Home) (left : Leftover) :
    List (CairoGen D (Operand D)) → List (Scan Entry) → Prop where
  | nil : AllAgree home left [] []
  | cons {g : CairoGen D (Operand D)} {x : Scan Entry} {gens : List (CairoGen D (Operand D))}
      {xs : List (Scan Entry)} : Agrees home left g x → AllAgree home left gens xs →
      AllAgree home left (g :: gens) (x :: xs)

theorem genAll_agrees {gens : List (CairoGen D (Operand D))} {xs : List (Scan Entry)}
    (h : AllAgree home left gens xs) : Agrees home left (genAll gens) (scanAll xs) := by
  induction h with
  | nil => exact Agrees.pure []
  | cons hg _ ih => exact hg.bind fun argVal => ih.bind_last fun argVals => Agrees.pure _

/-- There is a scan for each value. -/
theorem AllAgree.length_eq {gens : List (CairoGen D (Operand D))} {xs : List (Scan Entry)}
    (h : AllAgree home left gens xs) {s s' : CairoState D} {vals : List (Operand D)}
    (hrun : genAll gens s = .ok vals s') : vals.length = xs.length := by
  induction h generalizing s vals with
  | nil =>
    cases hrun
    rfl
  | cons _ _ ih =>
    obtain ⟨val, s₁, _, hrun⟩ := Gen.bind_ok hrun
    obtain ⟨vals', s₂, hrest, hrun⟩ := Gen.bind_ok hrun
    cases hrun
    rw [List.length_cons, List.length_cons, ih hrest]

theorem genLoad_agrees {args : List (ExprAST D)} {gens : List (CairoGen D (Operand D))}
    {xs : List (Scan Entry)} (h : AllAgree home left gens xs) :
    Agrees home left (genLoad ops args gens) (scanLoad ops args xs) := by
  unfold genLoad scanLoad
  rcases args with _ | ⟨ptrArg, _ | ⟨elemArg, _ | ⟨arg, args⟩⟩⟩
  case cons.cons.nil =>
    cases h with
    | nil => exact complain_agrees _
    | cons hptr h => cases h with
    | nil => exact complain_agrees _
    | cons helem h => cases h with
    | cons _ _ => exact complain_agrees _
    | nil =>
      dsimp only
      cases literalIndex ops ptrArg with
      | none => exact complain_agrees _
      | some ptrIdx =>
        apply helem.bind
        intro elemIdx
        apply Agrees.bind_nop (createFPToSI_agrees ops elemIdx)
        intro elemI64
        apply Agrees.bind_last (genElement_agrees _ ptrIdx elemI64)
        intro ptr
        apply Agrees.bind_nop
          (emitReg_agrees fun r => home.owns_plain (i := .loadPtr r ptr) rfl rfl)
        exact fun reg => Agrees.pure _
  all_goals exact complain_agrees _

theorem genStore_agrees {args : List (ExprAST D)} {gens : List (CairoGen D (Operand D))}
    {xs : List (Scan Entry)} (h : AllAgree home left gens xs) :
    Agrees home left (genStore ops args gens) (scanStore ops args xs) := by
  unfold genStore scanStore
  rcases args with _ | ⟨ptrArg, _ | ⟨elemArg, _ | ⟨valArg, _ | ⟨arg, args⟩⟩⟩⟩
  case cons.cons.cons.nil =>
    cases h with
    | nil => exact complain_agrees _
    | cons hptr h => cases h with
    | nil => exact complain_agrees _
    | cons helem h => cases h with
    | nil => exact complain_agrees _
    | cons hval h => cases h with
    | cons _ _ => exact complain_agrees _
    | nil =>
      dsimp only
      cases literalIndex ops ptrArg with
      | none => exact complain_agrees _
      | some ptrIdx =>
        apply helem.bind
        intro elemIdx
        apply Agrees.bind_nop (createFPToSI_agrees ops elemIdx)
        intro elemI64
        apply hval.bind
        intro val
        apply Agrees.bind_last (genElement_agrees _ ptrIdx elemI64)
        intro ptr
        apply Agrees.bind_nop (emit_agrees (home.owns_plain (i := .storePtr val ptr) rfl rfl))
        exact fun _ => Agrees.pure _
  all_goals exact complain_agrees _

theorem genBuiltinCall_agrees {name : Name} {args : List (ExprAST D)}
    {gens : List (CairoGen D (Operand D))} {xs : List (Scan Entry)}
    (h : AllAgree home left gens xs) :
    Agrees home left (genBuiltinCall ops name args gens) (scanBuiltinCall ops name args xs) := by
  unfold genBuiltinCall scanBuiltinCall
  cases findRegisterBuiltin name with
  | some intrinsic => exact genRegisterBuiltin_agrees intrinsic
  | none =>
    simp only [Option.isSome_none, Bool.false_eq_true, if_false]
    split
    · exact genLoad_agrees h
    split
    · exact genStore_agrees h
    · exact Agrees.null

theorem createCall_agrees {callee : Name} (signature : Signature) (args : List (Operand D))
    (hcallee : (home.functions callee).isSome) :
    Agrees home left (createCall callee signature args)
      (if signature.kernel = false ∧ signature.argc = args.length then .nop else .abort) := by
  unfold createCall
  split
  · apply Agrees.bind_nop (emitReg_agrees (i := (.call · callee args)) fun r =>
      ⟨List.forall_mem_nil _, List.forall_mem_singleton.mpr hcallee⟩)
    exact fun reg => Agrees.pure _
  · exact Agrees.abort _

theorem genCall_agrees {callee : Name} {args : List (ExprAST D)}
    {gens : List (CairoGen D (Operand D))} {xs : List (Scan Entry)}
    (h : AllAgree home left gens xs) :
    Agrees home left (genCall ops callee args gens)
      (scanCall ops home.functions callee args xs) := by
  unfold genCall scanCall
  split
  · exact genBuiltinCall_agrees h
  · apply lookupFunction_agrees
    cases hsignature : home.functions callee with
    | none => exact complain_agrees _
    | some signature =>
      apply (genAll_agrees h).bind_of
      intro argVals s s' hrun
      rw [← h.length_eq hrun]
      exact createCall_agrees signature argVals (by rw [hsignature]; rfl)

theorem store_keepsOwned (val : Operand D) {cell : Owned} (hcell : cell.function = home.number) :
    KeepsOwned home fun b => b.emit (.store val cell) := by
  exact emit_keepsOwned (home.owns_ref rfl rfl hcell)

theorem emitStore_agrees {val : Operand D} {cell : Owned} (hcell : cell.function = home.number) :
    Agrees home left (emit (.store val cell) : CairoGen D Unit) .nop :=
  buildUnit_agrees (store_keepsOwned val hcell)

theorem genAssignment_agrees (lhs : ExprAST D) {rhs : CairoGen D (Operand D)} {x : Scan Entry}
    (h : Agrees home left rhs x) :
    Agrees home left (genAssignment lhs rhs) (scanAssignment lhs x) := by
  cases lhs with
  | null => exact Agrees.abort _
  | variableExpr name =>
    apply h.bind
    intro rhs
    apply lookupName_agrees
    · exact fun cell hcell => (emitStore_agrees hcell).bind_nop fun _ => Agrees.pure rhs
    · exact complain_agrees _
  | _ => exact complain_agrees _

theorem binaryOp_agrees (op : Byte) (lhs rhs : Operand D) :
    Agrees home left (binaryOp ops op lhs rhs) (scanBinary op) := by
  unfold binaryOp scanBinary
  by_cases hadd : op = byte '+'
  · rw [if_pos hadd, if_pos (.inl hadd)]
    exact createFBin_agrees ops .fadd lhs rhs
  by_cases hsub : op = byte '-'
  · rw [if_neg hadd, if_pos hsub, if_pos (.inr (.inl hsub))]
    exact createFBin_agrees ops .fsub lhs rhs
  by_cases hmul : op = byte '*'
  · rw [if_neg hadd, if_neg hsub, if_pos hmul, if_pos (.inr (.inr (.inl hmul)))]
    exact createFBin_agrees ops .fmul lhs rhs
  by_cases hlt : op = byte '<'
  · rw [if_neg hadd, if_neg hsub, if_neg hmul, if_pos hlt, if_pos (.inr (.inr (.inr hlt)))]
    exact (createFCmp_agrees ops .ult lhs rhs).bind_nop fun cmp => createUIToFP_agrees ops cmp
  · rw [if_neg hadd, if_neg hsub, if_neg hmul, if_neg hlt, if_neg (by simp [hadd, hsub, hmul, hlt])]
    exact complain_agrees _

theorem genUnary_agrees (op : Byte) {operand : CairoGen D (Operand D)} {x : Scan Entry}
    (h : Agrees home left operand x) :
    Agrees home left (genUnary ops op operand) (if op = byte '-' then x else .fail) := by
  unfold genUnary
  split
  · exact h.bind_last fun operand => createFBin_agrees ops .fsub (.const ops.zero) operand
  · exact complain_agrees _

theorem genLoopHead_agrees (varName : Name) (start end_ step : Operand D) :
    Agrees home left (genLoopHead ops varName start end_ step)
      (.write (.variable_ varName) true) := by
  unfold genLoopHead
  apply createAlloca_agrees
  intro varAlloca hcell
  apply Agrees.bind_nop (emitStore_agrees hcell)
  intro _
  apply Agrees.bind_nop (createFPToSI_agrees ops start)
  intro startI64
  apply Agrees.bind_nop (createFPToSI_agrees ops end_)
  intro endI64
  apply Agrees.bind_nop (createFPToSI_agrees ops step)
  intro stepI64
  apply Agrees.bind_nop getInsertBlock_agrees
  intro preheaderBB
  apply Agrees.bind_nop createBlock_agrees
  intro loopBB
  apply Agrees.bind_nop createBlock_agrees
  intro afterBB
  apply Agrees.bind_nop (emit_agrees (home.owns_plain (i := .br loopBB) rfl rfl))
  intro _
  apply Agrees.bind_nop (setInsertPoint_agrees loopBB)
  intro _
  apply Agrees.bind_nop
    (emitReg_agrees fun r => home.owns_plain (i := .phiInt r [(startI64, preheaderBB)]) rfl rfl)
  intro iv
  apply Agrees.bind_nop (emitReg_agrees fun r => home.owns_plain (i := .sitofp r iv) rfl rfl)
  intro ivFP
  apply Agrees.bind_nop (emitStore_agrees hcell)
  intro _
  apply Agrees.bind_last (bindName_agrees varName ?_)
  · exact fun _ => Agrees.pure _
  · intro cell heq
    cases heq
    exact hcell

theorem genLoopLatch_agrees (head : LoopHead) :
    Agrees home left (genLoopLatch head : CairoGen D Unit) .nop := by
  unfold genLoopLatch
  apply Agrees.bind_nop
    (emitReg_agrees fun r => home.owns_plain (i := .add r (.reg head.iv) head.stepI64) rfl rfl)
  intro nextVal
  apply Agrees.bind_nop
    (emitReg_agrees fun r => home.owns_plain (i := .icmpSLT r (.reg nextVal) head.endI64) rfl rfl)
  intro endCmp
  apply Agrees.bind_nop
    (emit_agrees (home.owns_plain (i := .condBr (.reg endCmp) head.loopBB head.afterBB) rfl rfl))
  intro _
  apply Agrees.bind_nop getInsertBlock_agrees
  intro latchBB
  apply Agrees.bind_nop (addIncoming_agrees head.iv (.reg nextVal, latchBB))
  exact fun _ => setInsertPoint_agrees head.afterBB

theorem genLoop_agrees (varName : Name) (start end_ step : Operand D)
    {body : CairoGen D (Operand D)} {x : Scan Entry} (h : Agrees home left body x) :
    Agrees home left (genLoop ops varName start end_ step body)
      ((Scan.write (.variable_ varName) true).seq
        (x.seq (.write (.variable_ varName) false))) := by
  unfold genLoop
  apply (genLoopHead_agrees varName start end_ step).bind
  intro head
  apply h.bind
  intro _
  apply Agrees.bind_nop (genLoopLatch_agrees head)
  intro _
  exact (bindName_agrees varName fun _ heq => by cases heq).bind_last fun _ => Agrees.pure _

/-! ## The bindings of a `var` -/

/-- What the two runs have saved, with what had been done to each name. -/
inductive SavedAll (home : Home) (left : Leftover) : List (Entry × Option Bool) →
    List (Name × Option Owned) → List (Name × Option Owned) → Prop where
  | nil : SavedAll home left [] [] []
  | cons {name : Name} {b : Option Bool} {v v' : Option Owned} {marks : List (Entry × Option Bool)}
      {olds olds' : List (Name × Option Owned)} : Saved (left.table (.variable_ name)) b v v' →
      (∀ cell, v' = some cell → cell.function = home.number) → SavedAll home left marks olds olds' →
      SavedAll home left ((.variable_ name, b) :: marks) ((name, v) :: olds) ((name, v') :: olds')

theorem restoreNames_follows {marks : List (Entry × Option Bool)}
    {olds olds' : List (Name × Option Owned)} (hsaved : SavedAll home left marks olds olds')
    {m : Marks Entry} {s c : CairoState D} (h : Related home left m s c) :
    Follows (Related home left) Eq (restoreMarks marks m) (restoreNames olds s)
      (restoreNames olds' c) := by
  induction hsaved generalizing m s c with
  | nil => exact .returned rfl rfl h
  | cons hv hown _ ih => exact ih (h.bindName hv hown)

/-- `init` that is not there is zero. -/
theorem genInit_agrees {init : ExprAST D}
    (h : Agrees home left (gen ops init) (scan ops home.functions init)) :
    Agrees home left (if init.isNull then pure (.const ops.zero) else gen ops init)
      (if init.isNull then .nop else scan ops home.functions init) := by
  split
  · exact Agrees.pure _
  · exact h

/-- The state behind the slot, its first value and the entry of a binding. -/
def CairoState.bound (name : Name) (val : Operand D) (cell : Owned) (s : CairoState D) :
    CairoState D :=
  { s with
    builder := s.builder.createAlloca.2.emit (.store val cell)
    namedValues := fun k => if k = name then some cell else s.namedValues k }

theorem genBindings_cons (name : Name) (init : ExprAST D) (rest : List (Name × ExprAST D)) :
    genBindings ops ((name, init) :: rest) =
      ((if init.isNull then pure (.const ops.zero) else gen ops init) >>= fun val s =>
        (genBindings ops rest >>= fun olds => pure ((name, s.namedValues name) :: olds))
          (s.bound name val s.builder.createAlloca.1)) := by
  rw [genBindings]
  rfl

theorem Related.bound {m : Marks Entry} {s c : CairoState D} (h : Related home left m s c)
    (name : Name) (val : Operand D) :
    Related home left (m.set (.variable_ name) (some true))
      (s.bound name val s.builder.createAlloca.1) (c.bound name val c.builder.createAlloca.1) := by
  have hcell : c.builder.createAlloca.1.function = home.number := h.function
  have hstored := (h.build createAlloca_keepsOwned).build (store_keepsOwned val hcell)
  have hsame : Saved (left.table (.variable_ name)) (some true) (some c.builder.createAlloca.1)
    (some c.builder.createAlloca.1) := ⟨rfl, rfl⟩
  rw [show s.builder.createAlloca.1 = c.builder.createAlloca.1 by rw [h.builder]]
  exact hstored.bindName hsame fun cell heq => by cases heq; exact hcell

theorem genBindings_follows {varNames : List (Name × ExprAST D)}
    (hinit : ∀ p ∈ varNames, Agrees home left (gen ops p.2) (scan ops home.functions p.2))
    {m : Marks Entry} {s c : CairoState D} (h : Related home left m s c)
    (hreads : ∀ k ∈ (scanBindings ops home.functions varNames m).1.reads, left.table k = none) :
    Follows (Related home left) (SavedAll home left (scanBindings ops home.functions varNames m).2)
      (scanBindings ops home.functions varNames m).1 (genBindings ops varNames s)
      (genBindings ops varNames c) := by
  induction varNames generalizing m s c with
  | nil => exact .returned rfl .nil h
  | cons p rest ih =>
    obtain ⟨name, init⟩ := p
    simp only [scanBindings] at hreads ⊢
    rw [genBindings_cons]
    apply (genInit_agrees (hinit _ (List.mem_cons_self ..)) m s c h
      (Agrees.first_reads hreads)).bind
    intro val s₁ val' c₁ hend _ heq h₁
    subst heq
    have hrest := fun p hp => hinit p (List.mem_cons_of_mem _ hp)
    have hsaved := h₁.table (.variable_ name)
    refine (ih hrest (h₁.bound name val) (Agrees.returned_reads hreads hend)).map ?_
    intro olds olds' hall
    exact .cons hsaved (h₁.owned (.variable_ name)) hall

theorem genVar_agrees {varNames : List (Name × ExprAST D)} {body : ExprAST D}
    (hinit : ∀ p ∈ varNames, Agrees home left (gen ops p.2) (scan ops home.functions p.2))
    (hbody : Agrees home left (gen ops body) (scan ops home.functions body)) :
    Agrees home left (gen ops (.varExpr varNames body))
      (scan ops home.functions (.varExpr varNames body)) := by
  intro m s c h hreads
  simp only [gen]
  simp only [scan] at hreads ⊢
  apply (genBindings_follows hinit h (Agrees.first_reads hreads)).bind
  intro olds s₁ olds' c₁ hend _ hsaved h₁
  have hreads := Agrees.returned_reads hreads hend
  apply (hbody _ s₁ c₁ h₁ (Agrees.first_reads hreads)).attempt_bind
  · intro v s₂ v' c₂ hend' heq h₂
    subst heq
    exact (restoreNames_follows hsaved h₂).map fun _ _ _ => rfl
  · intro s₂ c₂ hend' h₂
    exact (restoreNames_follows hsaved h₂).bind fun _ s₃ _ c₃ _ _ _ h₃ => .null rfl h₃

theorem genArgs_agree {args : List (ExprAST D)}
    (h : ∀ a ∈ args, Agrees home left (gen ops a) (scan ops home.functions a)) :
    AllAgree home left (genArgs ops args) (scanArgs ops home.functions args) := by
  induction args with
  | nil => exact .nil
  | cons a args ih =>
    have hrest := fun b hb => h b (List.mem_cons_of_mem _ hb)
    exact .cons (h a (List.mem_cons_self ..)) (ih hrest)

/-- The generator does the same in both runs as long as it reads nothing that
was left by others. -/
theorem gen_agrees (e : ExprAST D) : Agrees home left (gen ops e) (scan ops home.functions e) := by
  induction e using ExprAST.induction with
  | null =>
    rw [gen, scan]
    exact Agrees.abort _
  | numberExpr val =>
    rw [gen, scan]
    exact Agrees.pure _
  | variableExpr name =>
    rw [gen, scan]
    apply lookupName_agrees
    · exact fun cell hcell => createLoad_agrees hcell
    · exact complain_agrees _
  | unaryExpr op operand ih =>
    rw [gen, scan]
    exact genUnary_agrees op ih
  | binaryExpr op lhs rhs ihl ihr =>
    rw [gen, scan]
    split
    · exact genAssignment_agrees lhs ihr
    · apply Agrees.attempt_bind ihl
      · exact fun l => ihr.attempt_bind (fun r => binaryOp_agrees op l r) Agrees.null
      · exact ihr.attempt_bind (fun r => Agrees.null) Agrees.null
  | callExpr callee args ih =>
    rw [gen, scan]
    exact genCall_agrees (genArgs_agree ih)
  | ifExpr cond then_ else_ ihc iht ihe =>
    rw [gen, scan]
    apply ihc.bind
    intro cond
    apply Agrees.bind_nop (createFCmp_agrees ops .une cond _)
    intro condCmp
    apply Agrees.bind_nop createBlock_agrees
    intro thenBB
    apply Agrees.bind_nop createBlock_agrees
    intro elseBB
    apply Agrees.bind_nop createBlock_agrees
    intro mergeBB
    apply Agrees.bind_nop
      (emit_agrees (home.owns_plain (i := .condBr condCmp thenBB elseBB) rfl rfl))
    intro _
    apply Agrees.bind_nop (setInsertPoint_agrees thenBB)
    intro _
    apply iht.bind
    intro thenVal
    apply Agrees.bind_nop (emit_agrees (home.owns_plain (i := .br mergeBB) rfl rfl))
    intro _
    apply Agrees.bind_nop getInsertBlock_agrees
    intro thenEnd
    apply Agrees.bind_nop (setInsertPoint_agrees elseBB)
    intro _
    apply ihe.bind_last
    intro elseVal
    apply Agrees.bind_nop (emit_agrees (home.owns_plain (i := .br mergeBB) rfl rfl))
    intro _
    apply Agrees.bind_nop getInsertBlock_agrees
    intro elseEnd
    apply Agrees.bind_nop (setInsertPoint_agrees mergeBB)
    intro _
    apply Agrees.bind_nop (emitReg_agrees fun r =>
      home.owns_plain (i := .phi r [(thenVal, thenEnd), (elseVal, elseEnd)]) rfl rfl)
    exact fun reg => Agrees.pure _
  | forExpr varName start end_ step body ihstart ihend ihstep ihbody =>
    rw [gen, scan]
    apply Agrees.attempt_bind ihstart
    · intro start
      apply ihend.attempt_bind _ Agrees.null
      intro end_
      apply (genInit_agrees ihstep).bind
      exact fun step => genLoop_agrees varName start end_ step ihbody
    · exact ihend.attempt_bind (fun _ => Agrees.null) Agrees.null
  | varExpr varNames body ihinit ihbody => exact genVar_agrees ihinit ihbody

end

/-! ## Functions -/

/-- The generator with the same module, without what earlier functions have left. -/
def CairoState.alone (s : CairoState D) : CairoState D :=
  { theModule := s.theModule
    symbols := s.symbols
    nextFunction := s.nextFunction
    builtins := s.builtins }

def CairoState.leftover (s : CairoState D) : Leftover := ⟨s.table, s.errors⟩

section
variable {home : Home} {left : Leftover}

def CairoState.pushParam (idx : Nat) (arg : Name) (s : CairoState D) : CairoState D :=
  { s with
    builder := (s.builder.setName arg).2
    kernelParams := s.kernelParams ++ [⟨arg, ⟨s.builder.function, idx⟩⟩] }

theorem genKernelParams_cons (idx : Nat) (arg : Name) (args : List Name) (s : CairoState D) :
    genKernelParams idx (arg :: args) s =
      genKernelParams (idx + 1) args (s.pushParam idx arg) := rfl

theorem table_pushParam (s : CairoState D) (idx : Nat) (arg : Name) (index : Nat) :
    (s.pushParam idx arg).table (.param index) =
      (s.kernelParams.map (·.ptr) ++ [⟨s.builder.function, idx⟩])[index]? := by
  show Option.map _ (s.kernelParams ++ _)[index]? = _
  rw [← List.getElem?_map, List.map_append]
  rfl

theorem Related.pushParam {s c : CairoState D} {n : Nat} (h : Related home left (kernelMarks n) s c)
    (hn : c.kernelParams.length = n) (idx : Nat) (arg : Name) :
    Related home left (kernelMarks (n + 1)) (s.pushParam idx arg) (c.pushParam idx arg) := by
  have hptrs : s.kernelParams.map (·.ptr) = c.kernelParams.map (·.ptr) := by
    apply List.ext_getElem?
    intro i
    rw [List.getElem?_map, List.getElem?_map]
    exact (h.table (.param i)).1
  refine ⟨?_, h.theModule, h.theModule', h.builtins, h.errors, ?_, h.function, ?_, h.code⟩
  · show (s.builder.setName arg).2 = (c.builder.setName arg).2
    rw [h.builder]
  · intro k
    cases k with
    | variable_ name => exact h.table (.variable_ name)
    | param index =>
      refine ⟨by rw [table_pushParam, table_pushParam, hptrs, h.builder], ?_⟩
      rw [table_pushParam, Bool.eq_iff_iff]
      simp
      omega
  · intro k v hv
    cases k with
    | variable_ name => exact h.owned (.variable_ name) v hv
    | param index =>
      rw [table_pushParam] at hv
      rcases List.mem_append.mp (List.mem_of_getElem? hv) with hv | hv
      · obtain ⟨i, hi⟩ := List.mem_iff_getElem?.mp hv
        rw [List.getElem?_map] at hi
        exact h.owned (.param i) v hi
      · obtain rfl := List.mem_singleton.mp hv
        exact h.function

theorem genKernelParams_related (args : List Name) (idx : Nat) {n : Nat} {s c : CairoState D}
    (h : Related home left (kernelMarks n) s c) (hn : c.kernelParams.length = n) :
    ∃ s' c', genKernelParams idx args s = .ok () s' ∧ genKernelParams idx args c = .ok () c' ∧
      Related home left (kernelMarks (n + args.length)) s' c' := by
  induction args generalizing idx n s c with
  | nil => exact ⟨s, c, rfl, rfl, h⟩
  | cons arg args ih =>
    have hlength : (c.pushParam idx arg).kernelParams.length = n + 1 := by
      show (c.kernelParams ++ [_]).length = n + 1
      rw [List.length_append, hn]
      rfl
    rw [genKernelParams_cons, genKernelParams_cons, List.length_cons, Nat.add_comm args.length 1,
      ← Nat.add_assoc]
    exact ih (idx + 1) (h.pushParam hn idx arg) hlength

theorem setName_keepsOwned (name : Name) :
    KeepsOwned home fun b : Builder D => (b.setName name).2 :=
  fun _ hb hcode => ⟨hb, hcode⟩

theorem deviceMarks_set (names : List Name) (name : Name) :
    (deviceMarks names).set (.variable_ name) (some true) = deviceMarks (names ++ [name]) := by
  funext k
  unfold Marks.set
  cases k with
  | variable_ name' =>
    by_cases h : name' = name <;> simp [deviceMarks, h]
  | param index => rfl

theorem Related.enterParam {s c : CairoState D} {names : List Name}
    (h : Related home left (deviceMarks names) s c) (idx : Nat) (arg : Name) :
    Related home left (deviceMarks (names ++ [(c.builder.symbols.setName arg).1]))
      (s.enterParam idx arg) (c.enterParam idx arg) := by
  have hcell : (c.builder.setName arg).2.createAlloca.1.function = home.number := h.function
  have hbuilder := (((h.build (setName_keepsOwned arg)).build createAlloca_keepsOwned).build
    (setName_keepsOwned (c.builder.setName arg).1)).build
    (store_keepsOwned (.reg idx) hcell)
  have hsame : Saved (left.table (.variable_ (c.builder.setName arg).1)) (some true)
    (some (c.builder.setName arg).2.createAlloca.1)
    (some (c.builder.setName arg).2.createAlloca.1) := ⟨rfl, rfl⟩
  have hbound := hbuilder.bindName hsame fun cell heq => by cases heq; exact hcell
  rw [deviceMarks_set] at hbound
  unfold CairoState.enterParam
  rw [h.builder] at hbound ⊢
  exact hbound

theorem genDeviceParams_related (args : List Name) (idx : Nat) {names : List Name}
    {s c : CairoState D} (h : Related home left (deviceMarks names) s c) :
    ∃ s' c', genDeviceParams idx args s = .ok () s' ∧ genDeviceParams idx args c = .ok () c' ∧
      Related home left (deviceMarks (names ++ argNames c.builder.symbols args)) s' c' := by
  induction args generalizing idx names s c with
  | nil =>
    rw [argNames, List.append_nil]
    exact ⟨s, c, rfl, rfl, h⟩
  | cons arg args ih =>
    rw [genDeviceParams_cons, genDeviceParams_cons]
    obtain ⟨s', c', hs, hc, hrelated⟩ := ih (idx + 1) (h.enterParam idx arg)
    rw [List.append_assoc] at hrelated
    exact ⟨s', c', hs, hc, hrelated⟩

end

/-- The entry block of a kernel, with the variables of earlier functions in the
table and without them. -/
theorem enterKernel_related (s : CairoState D) {proto : PrototypeAST}
    (hkernel : isKernel proto.name = true) :
    ∃ s' c', enterKernel proto s = .ok (s.created proto.name) s' ∧
      enterKernel proto s.alone = .ok (s.created proto.name) c' ∧
      Related (nextHome s proto) s.leftover (ownMarks proto) s' c' := by
  let signature : Signature := ⟨true, proto.args.length⟩
  have hmodule : (s.opened proto.name signature).theModule = (nextHome s proto).functions := by
    unfold nextHome
    rw [hkernel]
    rfl
  have hrelated : Related (nextHome s proto) s.leftover (kernelMarks 0)
      { s.opened proto.name signature with kernelParams := [] }
      (s.alone.opened proto.name signature) := by
    refine ⟨rfl, hmodule, hmodule, rfl, (List.append_nil _).symm, ?_, rfl, ?_,
      fun _ => List.forall_mem_nil _⟩
    · intro k
      cases k <;> exact ⟨rfl, rfl⟩
    · intro k v hv
      cases k <;> cases hv
  obtain ⟨s', c', hs, hc, h⟩ := genKernelParams_related proto.args 0 hrelated rfl
  refine ⟨s', c', Gen.bind_of_ok hs, Gen.bind_of_ok hc, ?_⟩
  unfold ownMarks
  rwa [if_pos hkernel, ← Nat.zero_add proto.args.length]

/-- The entry block of a device function, with the pointers of earlier kernels
in the table and without them. -/
theorem enterDevice_related (s : CairoState D) {proto : PrototypeAST}
    (hdevice : isKernel proto.name = false) :
    ∃ s' c', enterDevice proto s = .ok (s.created proto.name) s' ∧
      enterDevice proto s.alone = .ok (s.created proto.name) c' ∧
      Related (nextHome s proto) s.leftover (ownMarks proto) s' c' := by
  let signature : Signature := ⟨false, proto.args.length⟩
  have hmodule : (s.opened proto.name signature).theModule = (nextHome s proto).functions := by
    unfold nextHome
    rw [hdevice]
    rfl
  have hrelated : Related (nextHome s proto) s.leftover (deviceMarks [])
      { s.opened proto.name signature with namedValues := fun _ => none }
      (s.alone.opened proto.name signature) := by
    refine ⟨rfl, hmodule, hmodule, rfl, (List.append_nil _).symm, ?_, rfl, ?_,
      fun _ => List.forall_mem_nil _⟩
    · intro k
      cases k with
      | variable_ name =>
        exact ⟨rfl, by simp [CairoState.table, CairoState.opened, CairoState.alone]⟩
      | param index => exact ⟨rfl, rfl⟩
    · intro k v hv
      cases k <;> cases hv
  obtain ⟨s', c', hs, hc, h⟩ := genDeviceParams_related proto.args 0 hrelated
  refine ⟨s', c', Gen.bind_of_ok hs, Gen.bind_of_ok hc, ?_⟩
  unfold ownMarks
  rwa [if_neg (by simp [hdevice])]

/-- The code refers to slots and pointers of the function itself, and to it and
functions of the module. -/
def FunctionIR.Local (functions : Name → Option Signature) (ir : FunctionIR D) : Prop :=
  ∀ l, ∀ i ∈ ir.code l, (∀ o ∈ i.owned, o.function = ir.number) ∧
    ∀ callee ∈ i.callees, callee = ir.name ∨ (functions callee).isSome

/-- What both runs return for a function. -/
def SameIR (functions : Name → Option Signature) (ir ir' : FunctionIR D) : Prop :=
  ir = ir' ∧ ir.Local functions

/-- The lines that both runs have written since. -/
def SameErrors (before : List Text) (_ : Marks Entry) (s c : CairoState D) : Prop :=
  s.errors = before ++ c.errors

theorem Related.sameIR {s s' c' : CairoState D} {proto : PrototypeAST} {signature : Signature}
    {m : Marks Entry} {left : Leftover} (h : Related (nextHome s proto) left m s' c') :
    SameIR s.theModule
      ⟨(s.created proto.name).number, (s.created proto.name).name, signature, s'.builder.code⟩
      ⟨(s.created proto.name).number, (s.created proto.name).name, signature, c'.builder.code⟩ := by
  rw [h.builder]
  refine ⟨rfl, fun l i hi => ?_⟩
  obtain ⟨howned, hcallees⟩ := h.code l i hi
  refine ⟨howned, fun callee hcallee => ?_⟩
  have hsome := hcallees callee hcallee
  by_cases hself : callee = (s.created proto.name).name
  · exact .inl hself
  · have hold : (nextHome s proto).functions callee = s.theModule callee :=
      if_neg fun hboth => hself hboth.1
    rw [hold] at hsome
    exact .inr hsome

variable {ops : IntOps D}

theorem genKernel_follows {s : CairoState D} {proto : PrototypeAST} {body : ExprAST D}
    (hkernel : isKernel proto.name = true)
    (hreads : ∀ k ∈ (scan ops (nextHome s proto).functions body (ownMarks proto)).reads,
      s.table k = none) :
    ∃ r, Follows (SameErrors s.errors) (SameIR s.theModule) r (genKernel ops proto body s)
      (genKernel ops proto body s.alone) := by
  obtain ⟨s₁, c₁, hs, hc, h₁⟩ := enterKernel_related s hkernel
  unfold genKernel
  rw [Gen.bind_of_ok hs, Gen.bind_of_ok hc]
  refine ⟨((scan ops (nextHome s proto).functions body).seq .nop) (ownMarks proto), ?_⟩
  apply Follows.mono (R := Related (nextHome s proto) s.leftover) _ fun _ _ _ h => h.errors
  apply (gen_agrees body _ s₁ c₁ h₁ hreads).bind
  intro _ s₂ _ c₂ _ _ _ h₂
  have hret := h₂.build (emit_keepsOwned (i := .ret none) (Home.owns_plain rfl rfl))
  exact .returned rfl hret.sameIR hret

theorem genDevice_follows {s : CairoState D} {proto : PrototypeAST} {body : ExprAST D}
    (hdevice : isKernel proto.name = false)
    (hreads : ∀ k ∈ (scan ops (nextHome s proto).functions body (ownMarks proto)).reads,
      s.table k = none) :
    ∃ r, Follows (SameErrors s.errors) (SameIR s.theModule) r (genDevice ops proto body s)
      (genDevice ops proto body s.alone) := by
  obtain ⟨s₁, c₁, hs, hc, h₁⟩ := enterDevice_related s hdevice
  unfold genDevice
  rw [Gen.bind_of_ok hs, Gen.bind_of_ok hc]
  refine ⟨((scan ops (nextHome s proto).functions body).attempt .nop .fail) (ownMarks proto), ?_⟩
  apply (gen_agrees body _ s₁ c₁ h₁ hreads).attempt_bind
  · intro bodyVal s₂ bodyVal' c₂ _ heq h₂
    subst heq
    have hret := h₂.build (emit_keepsOwned (i := .ret (some bodyVal)) (Home.owns_plain rfl rfl))
    exact .returned rfl hret.sameIR hret.errors
  · intro s₂ c₂ _ h₂
    exact .null rfl h₂.errors

/-! ## Runs -/

section
variable (ops : IntOps D)

/-- What comes of a function: its code or its rejection, each with the error lines that
have been written, or a failed assertion. -/
inductive Generated (D : Type) where
  | code (ir : FunctionIR D) (lines : List Text)
  | rejected (lines : List Text)
  | crashed (why : Crash)

def Generated.ending : Generated D → Ending
  | .code _ _ => .returned
  | .rejected _ => .null
  | .crashed _ => .aborted

def generated (s : CairoState D) (f : FunctionAST D) : Generated D :=
  match genCode ops f s with
  | .ok ir s' => .code ir (s'.errors.drop s.errors.length)
  | .null s' => .rejected (s'.errors.drop s.errors.length)
  | .abort why => .crashed why

/-- A function comes to what it would without the tables of earlier ones, and its code
refers to its own slots and pointers. -/
def Isolated (s : CairoState D) (f : FunctionAST D) : Prop :=
  generated ops s f = generated ops s.alone f ∧
    ∀ ir lines, generated ops s f = .code ir lines → ir.Local s.theModule

/-- `P` holds of every function of the list and the state that it is compiled in. -/
def AllSteps (verifies : FunctionIR D → Bool) (P : CairoState D → FunctionAST D → Prop) :
    List (FunctionAST D) → CairoState D → Prop
  | [], _ => True
  | f :: functions, s => P s f ∧
    ∀ ir s', genFunction ops verifies f s = .ok ir s' → AllSteps verifies P functions s'

end

theorem genCode_follows {s : CairoState D} {f : FunctionAST D} (h : ReadsOwn ops s f) :
    ∃ r, Follows (SameErrors s.errors) (SameIR s.theModule) r (genCode ops f s)
      (genCode ops f s.alone) := by
  unfold genCode
  cases hkernel : isKernel f.proto.name with
  | true => exact genKernel_follows hkernel h
  | false => exact genDevice_follows hkernel h

/-- One function. -/
theorem isolated_of_readsOwn {s : CairoState D} {f : FunctionAST D} (h : ReadsOwn ops s f) :
    Isolated ops s f := by
  obtain ⟨r, hruns⟩ := genCode_follows h
  have hlines : ∀ s' c' : CairoState D, SameErrors s.errors r.marks s' c' →
      s'.errors.drop s.errors.length = c'.errors := by
    intro s' c' hsame
    rw [hsame, List.drop_left]
  unfold Isolated generated
  generalize genCode ops f s = o at hruns
  generalize genCode ops f s.alone = o' at hruns
  cases hruns with
  | @returned ir ir' s' c' hend hir herrors =>
    obtain ⟨rfl, hlocal⟩ := hir
    refine ⟨congrArg (Generated.code ir) (hlines s' c' herrors), fun found lines hfound => ?_⟩
    obtain rfl := (Generated.code.inj hfound).1
    exact hlocal
  | @null s' c' hend herrors =>
    refine ⟨congrArg Generated.rejected (hlines s' c' herrors), fun _ _ hfound => ?_⟩
    cases hfound
  | aborted hend => exact ⟨rfl, fun _ _ hfound => by cases hfound⟩

theorem AllSteps.mono {verifies : FunctionIR D → Bool} {P Q : CairoState D → FunctionAST D → Prop}
    (hPQ : ∀ s f, P s f → Q s f) {functions : List (FunctionAST D)} {s : CairoState D}
    (h : AllSteps ops verifies P functions s) : AllSteps ops verifies Q functions s := by
  induction functions generalizing s with
  | nil => exact h
  | cons f functions ih =>
    obtain ⟨hf, hrest⟩ := h
    exact ⟨hPQ s f hf, fun ir s' hrun => ih (hrest ir s' hrun)⟩

/-- In a run whose functions all read what they have written themselves, every
function is compiled in isolation. -/
theorem isolated_run (verifies : FunctionIR D → Bool) (functions : List (FunctionAST D))
    (h : AllSteps ops verifies (ReadsOwn ops) functions {}) :
    AllSteps ops verifies (Isolated ops) functions {} :=
  h.mono fun _ _ => isolated_of_readsOwn

/-- `def f(x) x` and `def kernel_k(p) cairoLoad(0, 1)`: the kernel does not look at
the `x` that is left. -/
theorem isolated_run_own :
    AllSteps wholeIntOps (fun _ => true) (Isolated wholeIntOps)
      [⟨⟨text "f", [text "x"], false, 0⟩, .variableExpr (text "x")⟩,
        ⟨⟨text "kernel_k", [text "p"], false, 0⟩,
          .callExpr (text "cairoLoad") [.numberExpr 0, .numberExpr 1]⟩] {} := by
  apply isolated_run
  refine ⟨readsOwn_first _ _, fun ir s hrun => ⟨readsOwn_of_nil ?_, fun _ _ _ => trivial⟩⟩
  have hreads : (genFunction wholeIntOps (fun _ => true)
      ⟨⟨text "f", [text "x"], false, 0⟩, .variableExpr (text "x")⟩ {}).state?.map (unwrittenReads
        wholeIntOps · ⟨⟨text "kernel_k", [text "p"], false, 0⟩,
          .callExpr (text "cairoLoad") [.numberExpr 0, .numberExpr 1]⟩) = some [] := by
    decide +kernel
  rw [hrun] at hreads
  exact Option.some.inj hreads

/-- Behind `def f(x) x`, `def kernel_k() x` finds an `x` and
`def kernel_k() if x then f() else 0` gets as far as the wrong call, and a device function
behind `def kernel_k(p) 0` finds its pointer; alone all three are rejected. -/
theorem isolated_run_left :
    ¬ AllSteps wholeIntOps (fun _ => true) (Isolated wholeIntOps)
      [⟨⟨text "f", [text "x"], false, 0⟩, .variableExpr (text "x")⟩,
        ⟨⟨text "kernel_k", [], false, 0⟩, .variableExpr (text "x")⟩] {} ∧
    ¬ AllSteps wholeIntOps (fun _ => true) (Isolated wholeIntOps)
      [⟨⟨text "f", [text "x"], false, 0⟩, .variableExpr (text "x")⟩,
        ⟨⟨text "kernel_k", [], false, 0⟩, .ifExpr (.variableExpr (text "x"))
          (.callExpr (text "f") []) (.numberExpr 0)⟩] {} ∧
    ¬ AllSteps wholeIntOps (fun _ => true) (Isolated wholeIntOps)
      [⟨⟨text "kernel_k", [text "p"], false, 0⟩, .numberExpr 0⟩,
        ⟨⟨text "f", [], false, 0⟩, .callExpr (text "cairoLoad") [.numberExpr 0, .numberExpr 1]⟩]
      {} := by
  have hleft : ∀ (f g : FunctionAST Int) (e : Ending), e ≠ .null →
      ((genFunction wholeIntOps (fun _ => true) f {}).state?.map fun s =>
        ((generated wholeIntOps s g).ending, (generated wholeIntOps s.alone g).ending)) =
          some (e, .null) →
      ¬ AllSteps wholeIntOps (fun _ => true) (Isolated wholeIntOps) [f, g] {} := by
    intro f g e he hrun h
    obtain ⟨ir, s, hf, hg⟩ := Outcome.ok_of_state hrun
    have hsame := (h.2 ir s hf).1.1
    obtain ⟨hbehind, halone⟩ := Prod.mk.inj hg
    exact he (hbehind.symm.trans ((congrArg Generated.ending hsame).trans halone))
  refine ⟨?_, ?_, ?_⟩
  · exact hleft _ _ .returned (by decide) (by decide +kernel)
  · exact hleft _ _ .aborted (by decide) (by decide +kernel)
  · exact hleft _ _ .returned (by decide) (by decide +kernel)

end AroundTheWorld.Cairo
