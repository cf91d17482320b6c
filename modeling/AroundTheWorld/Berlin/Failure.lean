import AroundTheWorld.Base.Abstraction
import AroundTheWorld.Berlin.Driver

/-!
# What becomes of a body

Whether Berlin generates a body depends on the names in scope alone. `scan` goes
through an expression as the generator does, without operations: `erased` says that
a loop has been erased under the builder, and creating an operation is a failure of
its own then.
-/

namespace AroundTheWorld.Berlin

open AroundTheWorld.Base AroundTheWorld.Lex AroundTheWorld.Mlir
open AroundTheWorld.Athens (ExprAST FunctionAST PrototypeAST Name)
open AroundTheWorld.Llvm (FloatOps)

/-- What can be seen of a state: the names in scope, and where the builder is. -/
structure Scope where
  known : Name → Bool
  erased : Bool

abbrev Scan (α : Type) := Gen Scope Abort α

/-- Any number of operations, one at least. -/
def touch : Scan Unit := fun t => if t.erased then .abort .insertIntoErased else .ok () t

def isErased : Scan Bool := fun t => .ok t.erased t

def setErased (b : Bool) : Scan Unit := fun t => .ok () { t with erased := b }

def isKnown (name : Name) : Scan Bool := fun t => .ok (t.known name) t

def setKnown (name : Name) (b : Bool) : Scan Unit := fun t =>
  .ok () { t with known := fun k => if k = name then b else t.known k }

variable {D : Type}

def scanAssignment (lhs : ExprAST D) (rhs : Scan Unit) : Scan Unit :=
  match lhs with
  | .null => Gen.abort .nullDereference
  | .variableExpr name => do
    rhs
    let known ← isKnown name
    if known then touch else Gen.null
  | _ => Gen.null

/-- The operators of `genBinary`. -/
def isBerlinOperator (op : Byte) : Bool :=
  op = byte '+' || op = byte '-' || op = byte '*' || op = byte '<'

/-- The part of a `for` behind the bounds and the step. -/
def scanLoop (varName : Name) (body : Scan Unit) : Scan Unit := do
  touch
  let after ← isErased
  touch
  setErased false
  touch
  let saved ← isKnown varName
  setKnown varName true
  let bodyVal ← Gen.attempt body
  setKnown varName saved
  match bodyVal with
  | none => do
    setErased true
    Gen.null
  | some _ => do
    setErased after
    touch

def restoreKnown : List (Name × Bool) → Scan Unit
  | [] => pure ()
  | (name, old) :: olds => do
    setKnown name old
    restoreKnown olds

mutual

def scan : ExprAST D → Scan Unit
  | .null => Gen.abort .nullDereference
  | .numberExpr _ => touch
  | .variableExpr name => do
    let known ← isKnown name
    if known then touch else Gen.null
  | .binaryExpr op lhs rhs =>
    if op = byte '=' then scanAssignment lhs (scan rhs)
    else do
      let lhs ← Gen.attempt (scan lhs)
      let rhs ← Gen.attempt (scan rhs)
      match lhs, rhs with
      | some _, some _ => if isBerlinOperator op then touch else Gen.null
      | _, _ => Gen.null
  | .unaryExpr _ operand => do
    scan operand
    touch
  | .ifExpr cond then_ else_ => do
    scan cond
    touch
    let after ← isErased
    touch
    setErased false
    scan then_
    touch
    setErased false
    scan else_
    touch
    setErased after
  | .forExpr varName start end_ step body => do
    let start ← Gen.attempt (scan start)
    let end_ ← Gen.attempt (scan end_)
    match start, end_ with
    | some _, some _ => do
      (if step.isNull then touch else scan step)
      scanLoop varName (scan body)
    | _, _ => Gen.null
  | .callExpr _ args => do
    scanArgs args
    touch
  | .varExpr varNames body => do
    let olds ← scanBindings varNames
    let bodyVal ← Gen.attempt (scan body)
    restoreKnown olds
    match bodyVal with
    | none => Gen.null
    | some _ => pure ()

def scanArgs : List (ExprAST D) → Scan Unit
  | [] => pure ()
  | arg :: args => do
    scan arg
    scanArgs args

def scanBindings : List (Name × ExprAST D) → Scan (List (Name × Bool))
  | [] => pure []
  | (name, init) :: rest => do
    (if init.isNull then touch else scan init)
    touch
    let old ← isKnown name
    setKnown name true
    let olds ← scanBindings rest
    pure ((name, old) :: olds)

end

/-! ## The generator is seen as a scan -/

def BerlinState.scope (s : BerlinState D) : Scope :=
  ⟨fun name => (s.namedValues name).isSome, s.builder.insertPoint = .erased⟩

abbrev Seen {α β : Type} (R : α → β → Prop) (x : BerlinGen D α) (y : Scan β) : Prop :=
  Gen.Abstracts BerlinState.scope R x y

theorem scope_eq {s s' : BerlinState D} (hnames : s'.namedValues = s.namedValues)
    (hpoint : s'.builder.insertPoint = s.builder.insertPoint) : s'.scope = s.scope := by
  unfold BerlinState.scope
  rw [hnames, hpoint]

section
variable {α β : Type} {R : α → β → Prop}

/-- A step that nothing is seen of. -/
theorem Seen.skip {γ : Type} {x : BerlinGen D γ} {f : γ → BerlinGen D α} {y : Scan β}
    (hx : ∀ s, ∃ a s', x s = .ok a s' ∧ s'.scope = s.scope) (hf : ∀ a, Seen R (f a) y) :
    Seen R (x >>= f) y := by
  intro s
  obtain ⟨a, s', hrun, hscope⟩ := hx s
  rw [Gen.bind_of_ok hrun, ← hscope]
  exact hf a s'

theorem newValue_hidden (s : BerlinState D) :
    ∃ a s', newValue s = .ok a s' ∧ s'.scope = s.scope := ⟨_, _, rfl, scope_eq rfl rfl⟩

theorem newBlock_hidden (s : BerlinState D) :
    ∃ a s', newBlock s = .ok a s' ∧ s'.scope = s.scope := ⟨_, _, rfl, scope_eq rfl rfl⟩

theorem insert_eq_none {b : OpBuilder D Name} {op : Op D Name} :
    b.insert op = none ↔ b.insertPoint = .erased := by
  unfold OpBuilder.insert
  split <;> simp_all

theorem createOp_seen (op : Op D Name) : Seen Unseen (createOp op) touch := by
  intro s
  unfold createOp touch
  by_cases herased : s.builder.insertPoint = .erased
  · rw [insert_eq_none.mpr herased, if_pos (show s.scope.erased = true from decide_eq_true herased)]
    exact .abort
  · have hsome : s.builder.insert op ≠ none := fun h => herased (insert_eq_none.mp h)
    obtain ⟨b, hinsert⟩ := Option.ne_none_iff_exists'.mp hsome
    have hsame : s.scope = ({ s with builder := b } : BerlinState D).scope := by
      symm
      exact scope_eq rfl (OpBuilder.insert_some hinsert).2.2
    have hnot : ¬ s.scope.erased = true := fun h => herased (of_decide_eq_true h)
    rw [hinsert, if_neg hnot, hsame]
    exact .ok trivial

theorem create_seen (op : Nat → Op D Name) : Seen Unseen (create op) touch := by
  unfold create
  apply Seen.skip newValue_hidden
  intro dst
  exact (createOp_seen (op dst)).finish fun _ _ _ => trivial

/-- The second operation is created where the first one was. -/
theorem touch_bind (f : Unit → Scan β) (t : Scope) :
    (touch >>= f) t = if t.erased then .abort .insertIntoErased else f () t := by
  show Gen.bind touch f t = _
  unfold Gen.bind touch
  cases t.erased <;> rfl

theorem touch_touch (f : Scan β) :
    (touch >>= fun _ => touch >>= fun _ => f) = touch >>= fun _ => f := by
  funext t
  rw [touch_bind, touch_bind]
  split <;> rfl

theorem touch_twice : (touch >>= fun _ => touch) = touch := by
  funext t
  rw [touch_bind]
  unfold touch
  split <;> rfl

/-- One operation before others. -/
theorem Seen.create_more {op : Nat → Op D Name} {f : Nat → BerlinGen D α} {y : Scan β}
    (hf : ∀ a, Seen R (f a) (touch >>= fun _ => y)) :
    Seen R (create op >>= f) (touch >>= fun _ => y) := by
  rw [← touch_touch]
  exact (create_seen op).bind fun a _ _ => hf a

theorem Seen.create_last {op : Nat → Op D Name} {f : Nat → BerlinGen D α} {y : Scan β}
    (hf : ∀ a, Seen R (f a) y) : Seen R (create op >>= f) (touch >>= fun _ => y) :=
  (create_seen op).bind fun a _ _ => hf a

theorem Seen.createOp_last {op : Op D Name} {f : Unit → BerlinGen D α} {y : Scan β}
    (hf : Seen R (f ()) y) : Seen R (createOp op >>= f) (touch >>= fun _ => y) :=
  (createOp_seen op).bind fun _ _ _ => hf

/-- The last operations of a computation. -/
theorem Seen.create_again {op : Nat → Op D Name} {f : Nat → BerlinGen D α}
    (hf : ∀ a, Seen Unseen (f a) touch) : Seen Unseen (create op >>= f) touch := by
  rw [← touch_twice]
  exact Seen.create_last hf

theorem lookupName_seen (name : Name) :
    Seen (fun it known => it.isSome = known) (lookupName name : BerlinGen D _) (isKnown name) :=
  fun _ => .ok rfl

theorem bindName_seen (name : Name) {value : Option Nat} {b : Bool} (h : value.isSome = b) :
    Seen Unseen (bindName name value : BerlinGen D Unit) (setKnown name b) := by
  intro s
  have hsame : setKnown name b s.scope = .ok () ({ s with
      namedValues := fun k => if k = name then value else s.namedValues k } :
      BerlinState D).scope := by
    unfold setKnown BerlinState.scope
    rw [← h]
    congr 2
    funext k
    show (if k = name then value.isSome else (s.namedValues k).isSome) =
      (if k = name then _ else _ : Option Nat).isSome
    split <;> rfl
  rw [hsame]
  exact .ok trivial

theorem getInsertPoint_seen :
    Seen (fun p b => decide (p = .erased) = b) (getInsertPoint : BerlinGen D _) isErased :=
  fun _ => .ok rfl

theorem setInsertPoint_seen {p : InsertPoint} {b : Bool} (h : decide (p = .erased) = b) :
    Seen Unseen (setInsertPoint p : BerlinGen D Unit) (setErased b) := by
  intro s
  have hsame : setErased b s.scope =
      .ok () ({ s with builder := s.builder.setInsertPoint p } : BerlinState D).scope := by
    rw [← h]
    rfl
  rw [hsame]
  exact .ok trivial

theorem eraseLast_seen (p : InsertPoint) :
    Seen Unseen (eraseLast p : BerlinGen D Unit) (setErased true) := by
  intro s
  have hpoint : (s.builder.eraseLast p).insertPoint = .erased := by
    cases p <;> rfl
  have hsame : setErased true s.scope =
      .ok () ({ s with builder := s.builder.eraseLast p } : BerlinState D).scope := by
    unfold setErased BerlinState.scope
    rw [decide_eq_true hpoint]
  rw [hsame]
  exact .ok trivial

theorem complain_seen (line : Text) : Seen R (complain line : BerlinGen D α) Gen.null := by
  intro s
  have hsame : s.scope = ({ s with errors := s.errors ++ [line] } : BerlinState D).scope := by
    symm
    exact scope_eq rfl rfl
  show Outcome.Abstracts _ _ _ (.null s.scope)
  rw [hsame]
  exact .null

end

/-! ## Expressions -/

section
variable {ops : FloatOps D}

theorem binaryOp_seen (op : Byte) (lhs rhs : Nat) :
    Seen Unseen (binaryOp op lhs rhs : BerlinGen D Nat)
      (if isBerlinOperator op then touch else Gen.null) := by
  unfold binaryOp isBerlinOperator
  split
  · rename_i h
    rw [if_pos (by simp [h])]
    exact create_seen _
  split
  · rename_i h
    rw [if_pos (by simp [h])]
    exact create_seen _
  split
  · rename_i h
    rw [if_pos (by simp [h])]
    exact create_seen _
  split
  · rename_i h
    rw [if_pos (by simp [h])]
    apply Seen.create_again
    intro cmp
    apply Seen.create_again
    exact fun ext => create_seen _
  · rename_i h₁ h₂ h₃ h₄
    rw [if_neg (by simp [h₁, h₂, h₃, h₄])]
    exact complain_seen _

theorem unaryOp_seen (op : Byte) (operand : Nat) : Seen Unseen (unaryOp ops op operand) touch := by
  unfold unaryOp
  split
  · exact Seen.create_again fun zeroVal => create_seen _
  · exact create_seen _

theorem genAssignment_seen (lhs : ExprAST D) {rhs : BerlinGen D Nat} {rhs' : Scan Unit}
    (h : Seen Unseen rhs rhs') : Seen Unseen (genAssignment lhs rhs) (scanAssignment lhs rhs') := by
  cases lhs with
  | null => exact .abort _
  | variableExpr name =>
    apply h.bind
    intro val _ _
    apply (lookupName_seen name).bind
    intro it known hknown
    cases it with
    | none =>
      cases hknown
      exact complain_seen _
    | some memref =>
      cases hknown
      exact (createOp_seen _).finish fun _ _ _ => trivial
  | _ => exact complain_seen _

theorem genArgs_seen {args : List (ExprAST D)} (h : ∀ a ∈ args, Seen Unseen (gen ops a) (scan a)) :
    Seen Unseen (genArgs ops args) (scanArgs args) := by
  induction args with
  | nil =>
    rw [genArgs, scanArgs]
    exact .pure trivial
  | cons a args ih =>
    rw [genArgs, scanArgs]
    apply (h a (List.mem_cons_self ..)).bind
    intro argVal _ _
    exact (ih fun b hb => h b (List.mem_cons_of_mem _ hb)).finish fun _ _ _ => trivial

theorem genOr_seen {e : ExprAST D} {default : BerlinGen D Nat}
    (hdefault : Seen Unseen default touch) (he : Seen Unseen (gen ops e) (scan e)) :
    Seen Unseen (if e.isNull then default else gen ops e) (if e.isNull then touch else scan e) := by
  split
  · exact hdefault
  · exact he

/-- The saved bindings, seen. -/
def SeenOlds (olds : List (Name × Option Nat)) (olds' : List (Name × Bool)) : Prop :=
  olds' = olds.map fun old => (old.1, old.2.isSome)

theorem restoreNames_seen (olds : List (Name × Option Nat)) :
    Seen Unseen (restoreNames olds : BerlinGen D Unit)
      (restoreKnown (olds.map fun old => (old.1, old.2.isSome))) := by
  induction olds with
  | nil => exact .pure trivial
  | cons old olds ih => exact (bindName_seen old.1 rfl).bind fun _ _ _ => ih

theorem genBindings_seen {varNames : List (Name × ExprAST D)}
    (hinit : ∀ p ∈ varNames, Seen Unseen (gen ops p.2) (scan p.2)) :
    Seen SeenOlds (genBindings ops varNames) (scanBindings varNames) := by
  induction varNames with
  | nil =>
    rw [genBindings, scanBindings]
    exact .pure rfl
  | cons p rest ih =>
    obtain ⟨name, init⟩ := p
    rw [genBindings, scanBindings]
    apply (genOr_seen (create_seen _) (hinit (name, init) (List.mem_cons_self ..))).bind
    intro initVal _ _
    apply Seen.create_more
    intro alloca
    apply Seen.createOp_last
    apply (lookupName_seen name).bind
    intro it old hold
    apply (bindName_seen name rfl).bind
    intro _ _ _
    apply (ih fun q hq => hinit q (List.mem_cons_of_mem _ hq)).bind
    intro olds olds' holds
    apply Gen.Abstracts.pure
    show (name, old) :: olds' = _
    rw [holds, ← hold]
    rfl

theorem genLoop_seen (varName : Name) (startF64 endF64 stepF64 : Nat) {body : BerlinGen D Nat}
    {body' : Scan Unit} (hbody : Seen Unseen body body') :
    Seen Unseen (genLoop ops varName startF64 endF64 stepF64 body) (scanLoop varName body') := by
  unfold genLoop scanLoop
  apply Seen.create_more
  intro startI64
  apply Seen.create_more
  intro endI64
  apply Seen.create_more
  intro stepI64
  apply Seen.create_more
  intro lb
  apply Seen.create_more
  intro ub
  apply Seen.create_last
  intro step
  apply getInsertPoint_seen.bind
  intro after erased hafter
  apply Seen.skip newBlock_hidden
  intro bodyBlock
  apply Seen.skip newValue_hidden
  intro iv
  apply Seen.createOp_last
  apply (setInsertPoint_seen (by simp)).bind
  intro _ _ _
  apply Seen.create_more
  intro ivI64
  apply Seen.create_more
  intro ivF64
  apply Seen.create_more
  intro varAlloca
  apply Seen.createOp_last
  apply (lookupName_seen varName).bind
  intro saved known hsaved
  apply (bindName_seen varName rfl).bind
  intro _ _ _
  apply hbody.attempt_bind
  · apply (bindName_seen varName hsaved).bind
    intro _ _ _
    exact (eraseLast_seen after).bind fun _ _ _ => .null
  · intro _ _
    apply (bindName_seen varName hsaved).bind
    intro _ _ _
    exact (setInsertPoint_seen hafter).bind fun _ _ _ => create_seen _

theorem genIf_seen {cond then_ else_ : ExprAST D} (hcond : Seen Unseen (gen ops cond) (scan cond))
    (hthen : Seen Unseen (gen ops then_) (scan then_))
    (helse : Seen Unseen (gen ops else_) (scan else_)) :
    Seen Unseen (gen ops (.ifExpr cond then_ else_)) (scan (.ifExpr cond then_ else_)) := by
  rw [gen, scan]
  apply hcond.bind
  intro condVal _ _
  apply Seen.create_more
  intro zeroVal
  apply Seen.create_last
  intro i1
  apply getInsertPoint_seen.bind
  intro after erased hafter
  apply Seen.skip newBlock_hidden
  intro thenBlock
  apply Seen.skip newBlock_hidden
  intro elseBlock
  apply Seen.create_last
  intro result
  apply (setInsertPoint_seen (by simp)).bind
  intro _ _ _
  apply hthen.bind
  intro thenVal _ _
  apply Seen.createOp_last
  apply (setInsertPoint_seen (by simp)).bind
  intro _ _ _
  apply helse.bind
  intro elseVal _ _
  apply Seen.createOp_last
  exact (setInsertPoint_seen hafter).finish fun _ _ _ => trivial

/-- Generating an expression is seen as scanning it. -/
theorem gen_seen (ops : FloatOps D) (e : ExprAST D) : Seen Unseen (gen ops e) (scan e) := by
  induction e using ExprAST.induction with
  | null =>
    rw [gen, scan]
    exact .abort _
  | numberExpr val =>
    rw [gen, scan]
    exact create_seen _
  | variableExpr name =>
    rw [gen, scan]
    apply (lookupName_seen name).bind
    intro it known hknown
    cases it with
    | none =>
      cases hknown
      exact complain_seen _
    | some memref =>
      cases hknown
      exact create_seen _
  | unaryExpr op operand ih =>
    rw [gen, scan]
    exact ih.bind fun v _ _ => unaryOp_seen op v
  | binaryExpr op lhs rhs ihl ihr =>
    rw [gen, scan]
    split
    · exact genAssignment_seen lhs ihr
    apply ihl.attempt_bind
    · apply ihr.attempt_bind .null
      exact fun _ _ => .null
    intro lhs _
    exact ihr.attempt_bind .null fun rhs _ => binaryOp_seen op lhs rhs
  | callExpr callee args ih =>
    rw [gen, scan]
    exact (genArgs_seen ih).bind fun argVals _ _ => create_seen _
  | ifExpr cond then_ else_ ihc iht ihe => exact genIf_seen ihc iht ihe
  | forExpr varName start end_ step body ihstart ihend ihstep ihbody =>
    rw [gen, scan]
    apply ihstart.attempt_bind
    · apply ihend.attempt_bind .null
      exact fun _ _ => .null
    intro startF64 _
    apply ihend.attempt_bind .null
    intro endF64 _
    apply (genOr_seen (create_seen _) ihstep).bind
    exact fun stepF64 _ _ => genLoop_seen varName startF64 endF64 stepF64 ihbody
  | varExpr varNames body ihinit ihbody =>
    rw [gen, scan]
    apply (genBindings_seen ihinit).bind
    intro olds olds' holds
    rw [holds]
    apply ihbody.attempt_bind
    · exact (restoreNames_seen olds).bind fun _ _ _ => .null
    · exact fun v _ => (restoreNames_seen olds).bind fun _ _ _ => .pure trivial

end

/-! ## Functions -/

def clearKnown : Scan Unit := fun t => .ok () { t with known := fun _ => false }

def scanParams : List Name → Scan Unit
  | [] => pure ()
  | name :: names => do
    touch
    setKnown name true
    scanParams names

def scanEntry (f : FunctionAST D) : Scan Unit := do
  setErased false
  clearKnown
  scanParams f.proto.args
  scan f.body
  touch

/-- What becomes of the body of a function: generated, a null value, an operation
that is created in an erased loop, or a null expression that is dereferenced. -/
inductive Fate where
  | generated
  | failed
  | strayed
  | dereferenced
  deriving DecidableEq, Repr

def fate (f : FunctionAST D) : Fate :=
  match scanEntry f ⟨fun _ => false, false⟩ with
  | .ok _ _ => .generated
  | .null _ => .failed
  | .abort .insertIntoErased => .strayed
  | .abort .nullDereference => .dereferenced

theorem genParams_seen (params : List (Name × Nat)) :
    Seen Unseen (genParams params : BerlinGen D Unit) (scanParams (params.map (·.1))) := by
  induction params with
  | nil => exact .pure trivial
  | cons p params ih =>
    unfold genParams
    show Seen Unseen _
      (touch >>= fun _ => setKnown p.1 true >>= fun _ => scanParams (params.map (·.1)))
    apply Seen.create_more
    intro alloca
    apply Seen.createOp_last
    exact (bindName_seen p.1 rfl).bind fun _ _ _ => ih

theorem clearNames_seen : Seen Unseen (clearNames : BerlinGen D Unit) clearKnown := fun _ =>
    .ok trivial

theorem genEntry_seen (ops : FloatOps D) (f : FunctionAST D) (entry : Nat) {args : List Nat}
    (hargs : args.length = f.proto.args.length) :
    Seen Unseen (genEntry ops f entry args) (scanEntry f) := by
  have hparams : (f.proto.args.zip args).map (·.1) = f.proto.args := by
    rw [List.map_fst_zip (Nat.le_of_eq hargs.symm)]
  unfold genEntry scanEntry
  apply (setInsertPoint_seen (by simp)).bind
  intro _ _ _
  apply clearNames_seen.bind
  intro _ _ _
  have hseen : Seen Unseen (genParams (f.proto.args.zip args) : BerlinGen D Unit)
      (scanParams f.proto.args) := by
    have h := genParams_seen (D := D) (f.proto.args.zip args)
    rwa [hparams] at h
  apply hseen.bind
  intro _ _ _
  exact (gen_seen ops f.body).bind fun v _ _ => createOp_seen _

end AroundTheWorld.Berlin
