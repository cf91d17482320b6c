import AroundTheWorld.Agreement.Reference
import AroundTheWorld.Base.Gen

/-!
# Back ends that follow the reference

What generators of code have in common: they add to a function, in which the cells of the
reference have places of their own, and a machine runs what they have added. `Performs`
says of a piece of code that it does what the reference does, and pieces are put together
by its rules, in whatever way the blocks of a back end hang together.
-/

namespace AroundTheWorld.Agreement

open AroundTheWorld.Base AroundTheWorld.Lex AroundTheWorld.Llvm
open AroundTheWorld.Athens (ExprAST Name)

/-- States `σ` of a generator with a function `β` under construction, in whose code of
instructions `ι` there are cells `κ`, and machines `μ`. -/
structure BackEnd (σ β μ κ ι D W : Type) where
  builder : σ → β
  code : β → Nat → List ι
  step : (Nat → List ι) → μ → Option μ
  mem : μ → κ → D
  world : μ → W
  calls : μ → List (Name × List D)
  /-- The machine stands at the insertion point. -/
  At : β → (Nat → List ι) → μ → Prop
  /-- The machine is about to make a call that does not come back. -/
  Calls : (Nat → List ι) → μ → Name × List D → Prop
  Placed : σ → NameScope → List κ → Prop
  Grown : β → β → Prop
  /-- Nothing is changed that has been computed before. -/
  Kept : β → μ → μ → Prop
  grown_refl : ∀ {s sc cells}, Placed s sc cells → Grown (builder s) (builder s)
  grown_trans : ∀ {b b' b''}, Grown b b' → Grown b' b'' → Grown b b''
  grown_code : ∀ {b b'}, Grown b b' → ∀ l, code b l <+: code b' l
  kept_refl : ∀ {b m}, Kept b m m
  kept_trans : ∀ {b b' m m' m''}, Grown b b' → Kept b m m' → Kept b' m' m'' → Kept b m m''
  stops : ∀ {code m what}, Calls code m what → step code m = none

namespace BackEnd

variable {σ β μ κ ι D W : Type} (T : BackEnd σ β μ κ ι D W)

/-- The machine at the insertion point, in a state of the reference. -/
structure Stands (b : β) (cells : List κ) (code : Nat → List ι) (st : State D W) (m : μ) :
    Prop where
  at_ : T.At b code m
  mem : st.Matches cells (T.mem m) (T.world m) (T.calls m)

/-- The machine waits for the call that the reference waits for. -/
structure Waits (cells : List κ) (code : Nat → List ι) (what : Name × List D) (st : State D W)
    (m : μ) : Prop where
  call : T.Calls code m what
  mem : st.Matches cells (T.mem m) (T.world m) (T.calls m)

/-- The machine has come from `b` to `b'`, where `read` gives the result. -/
structure Went {α : Type} (b b' : β) (cells : List κ) (code : Nat → List ι) (m : μ) (read : μ → α)
    (x : α) (st : State D W) (m' : μ) : Prop where
  stands : T.Stands b' cells code st m'
  read : read m' = x
  kept : T.Kept b m m'

/-- What has been generated from `s` to `s'` does what `ev` says. -/
structure Performs {α : Type} (s s' : σ) (sc : NameScope) (cells cells' : List κ)
    (ev : μ → State D W → Value D W α) (read : μ → α) : Prop where
  grown : T.Grown (T.builder s) (T.builder s')
  cells : cells <+: cells'
  placed : T.Placed s' sc cells'
  follows : ∀ final code, cells' <+: final → final.Nodup →
    Emitted (T.code (T.builder s)) (T.code (T.builder s')) code →
    ∀ m st, T.Stands (T.builder s) final code st m →
    Follows (T.step code) (T.Waits final code) m (ev m st)
      (T.Went (T.builder s) (T.builder s') final code m read)

variable {T}

/-- In a call that does not come back the machine has stopped. -/
theorem Waits.follows {cells : List κ} {code : Nat → List ι} {what : Name × List D}
    {st : State D W} {m : μ} {α : Type} {good : α → State D W → μ → Prop}
    (h : T.Waits cells code what st m) :
    Follows (T.step code) (T.Waits cells code) m (.waits what st : Value D W α) good :=
  .waits (T.stops h.call) h

namespace Performs

variable {s s₁ s₂ : σ} {sc sc₁ sc₂ : NameScope} {cells cells₁ cells₂ : List κ} {α γ : Type}
  {ev : μ → State D W → Value D W α} {read : μ → α}

theorem refl (hs : T.Placed s sc cells) (x : α) :
    T.Performs s s sc cells cells (fun _ st => .done x st) (fun _ => x) where
  grown := T.grown_refl hs
  cells := List.prefix_rfl
  placed := hs
  follows := fun _ _ _ _ _ _ _ hst => .done ⟨hst, rfl, T.kept_refl⟩

/-- One piece of code behind another. What the second does may depend on the result of the
first, and on what the first has kept. -/
theorem bind {ev₁ : μ → State D W → Value D W γ} {read₁ : μ → γ}
    {k : μ → α → State D W → Value D W γ}
    (h : T.Performs s s₁ sc₁ cells cells₁ ev read)
    (h₁ : T.Performs s₁ s₂ sc₂ cells₁ cells₂ ev₁ read₁)
    (hk : ∀ m m₁, T.Kept (T.builder s) m m₁ → ∀ st, ev₁ m₁ st = k m (read m₁) st) :
    T.Performs s s₂ sc₂ cells cells₂ (fun m st => (ev m st).bind (k m)) read₁ where
  grown := T.grown_trans h.grown h₁.grown
  cells := h.cells.trans h₁.cells
  placed := h₁.placed
  follows := by
    intro final code hfinal hnodup hem m st hst
    have hfirst := h.follows final code (h₁.cells.trans hfinal) hnodup
      (hem.first (T.grown_code h₁.grown)) m st hst
    refine hfirst.bind fun x st₁ m₁ hwent => ?_
    have hrest := h₁.follows final code hfinal hnodup (hem.rest (T.grown_code h.grown)) m₁ st₁
      hwent.stands
    rw [hk m m₁ hwent.kept, hwent.read] at hrest
    refine hrest.mono fun y st₂ m₂ hwent₂ => ?_
    exact ⟨hwent₂.stands, hwent₂.read, T.kept_trans h.grown hwent.kept hwent₂.kept⟩

theorem congr {ev' : μ → State D W → Value D W α}
    (h : T.Performs s s₁ sc₁ cells cells₁ ev read) (hev : ∀ m st, ev' m st = ev m st) :
    T.Performs s s₁ sc₁ cells cells₁ ev' read := by
  obtain rfl : ev' = ev := funext fun m => funext fun st => hev m st
  exact h

/-- Another reading of the result. -/
theorem reading {ev' : μ → State D W → Value D W γ} {r : μ → γ} {f : μ → α → γ}
    (h : T.Performs s s₁ sc₁ cells cells₁ ev read)
    (hev : ∀ m st, ev' m st = (ev m st).map (f m))
    (hread : ∀ m m₁, T.Kept (T.builder s) m m₁ → r m₁ = f m (read m₁)) :
    T.Performs s s₁ sc₁ cells cells₁ ev' r where
  grown := h.grown
  cells := h.cells
  placed := h.placed
  follows := by
    intro final code hfinal hnodup hem m st hst
    rw [hev]
    refine (h.follows final code hfinal hnodup hem m st hst).map fun x st₁ m₁ hwent => ?_
    refine ⟨hwent.stands, ?_, hwent.kept⟩
    rw [hread m m₁ hwent.kept, hwent.read]

/-- The generator changes something else in front of the code. -/
theorem started (h : T.Performs s s₁ sc cells cells₁ ev read) (hb : T.builder s₂ = T.builder s) :
    T.Performs s₂ s₁ sc cells cells₁ ev read where
  grown := by
    rw [hb]
    exact h.grown
  cells := h.cells
  placed := h.placed
  follows := by
    rw [hb]
    exact h.follows

/-- The generator changes its table behind the code. -/
theorem renamed (h : T.Performs s s₁ sc₁ cells cells₁ ev read) (hp : T.Placed s₂ sc₂ cells₁)
    (hb : T.builder s₂ = T.builder s₁) : T.Performs s s₂ sc₂ cells cells₁ ev read where
  grown := by
    rw [hb]
    exact h.grown
  cells := h.cells
  placed := hp
  follows := by
    rw [hb]
    exact h.follows

end Performs

/-! ## Constructs -/

section
variable {ops : FloatOps D} {callees : Callees D Name W} {test : D → Bool} {e : ExprAST D}
  {sc : NameScope} {s s₁ s₂ s₃ : σ} {cells cells₁ cells₂ cells₃ : List κ}

variable (T) in
/-- What has been generated does what the expression means. -/
abbrev Evaluates (ops : FloatOps D) (callees : Callees D Name W) (test : D → Bool) (e : ExprAST D)
    (s s' : σ) (sc : NameScope) (cells cells' : List κ) (read : μ → D) : Prop :=
  T.Performs s s' (scopeAfter e sc) cells cells' (fun _ st => eval ops callees test e sc st) read

namespace Evaluates

variable {read readl readr read' : μ → D} {lhs rhs cond then_ else_ init body : ExprAST D}
  {name callee : Name} {op : Byte} {c : Nat} {args : List (ExprAST D)}
  {varNames : List (Name × ExprAST D)}

/-- The right side of an assignment, and the store. -/
theorem assigned (h : T.Evaluates ops callees test rhs s s₁ sc cells cells₁ read)
    (hc : (scopeAfter rhs sc).table name = some c)
    (hstore : T.Performs s₁ s₂ (scopeAfter rhs sc) cells₁ cells₁
      (fun m st => .done (read m) (st.write c (read m))) read) :
    T.Evaluates ops callees test (.binaryExpr (byte '=') (.variableExpr name) rhs) s s₂ sc cells
      cells₁ read := by
  rw [Evaluates, scopeAfter, if_pos rfl]
  refine (h.bind hstore (k := fun _ x st => .done x (st.write c x)) ?_).congr ?_
  · exact fun _ _ _ _ => rfl
  · intro m st
    rw [eval, if_pos rfl]
    unfold evalAssignment
    simp only [hc]

/-- Both sides of an operator, and the operator. The left value has to be kept. -/
theorem operated (hop : op ≠ byte '=')
    (hl : T.Evaluates ops callees test lhs s s₁ sc cells cells₁ readl)
    (hkept : ∀ m m₁, T.Kept (T.builder s₁) m m₁ → readl m₁ = readl m)
    (hr : T.Evaluates ops callees test rhs s₁ s₂ (scopeAfter lhs sc) cells₁ cells₂ readr)
    (h : T.Performs s₂ s₃ (scopeAfter rhs (scopeAfter lhs sc)) cells₂ cells₂
      (fun m st => evalBinary ops op (readl m) (readr m) st) read) :
    T.Evaluates ops callees test (.binaryExpr op lhs rhs) s s₃ sc cells cells₂ read := by
  rw [Evaluates, scopeAfter, if_neg hop]
  have hrest := hr.bind h (k := fun m y st => evalBinary ops op (readl m) y st)
    fun m m₁ hm st => by rw [hkept m m₁ hm]
  refine (hl.bind hrest (k := fun _ x st =>
    (eval ops callees test rhs (scopeAfter lhs sc) st).bind (evalBinary ops op x)) ?_).congr ?_
  · exact fun _ _ _ _ => rfl
  · intro m st
    rw [eval, if_neg hop]

/-- One argument more. -/
theorem argument {arg : ExprAST D} {reads : μ → List D}
    (h : T.Evaluates ops callees test arg s s₁ sc cells cells₁ read)
    (hkept : ∀ m m₁, T.Kept (T.builder s₁) m m₁ → read m₁ = read m)
    (hrest : T.Performs s₁ s₂ (scopeArgs args (scopeAfter arg sc)) cells₁ cells₂
      (fun _ st => evalArgs ops callees test args (scopeAfter arg sc) st) reads) :
    T.Performs s s₂ (scopeArgs (arg :: args) sc) cells cells₂
      (fun _ st => evalArgs ops callees test (arg :: args) sc st) fun m => read m :: reads m := by
  rw [scopeArgs]
  have hreads := hrest.reading (f := fun m ys => read m :: ys) (r := fun m => read m :: reads m)
    (fun _ _ => rfl) fun m m₁ hm => by rw [hkept m m₁ hm]
  refine (h.bind hreads (k := fun _ x st =>
    (evalArgs ops callees test args (scopeAfter arg sc) st).map (x :: ·)) ?_).congr ?_
  · exact fun _ _ _ _ => rfl
  · intro m st
    rw [evalArgs]

/-- The arguments, and the call. -/
theorem called {reads : μ → List D}
    (h : T.Performs s s₁ (scopeArgs args sc) cells cells₁
      (fun _ st => evalArgs ops callees test args sc st) reads)
    (hcall : T.Performs s₁ s₂ (scopeArgs args sc) cells₁ cells₁
      (fun m st => evalCall callees callee (reads m) st) read) :
    T.Evaluates ops callees test (.callExpr callee args) s s₂ sc cells cells₁ read := by
  rw [Evaluates, scopeAfter]
  refine (h.bind hcall (k := fun _ => evalCall callees callee) ?_).congr ?_
  · exact fun _ _ _ _ => rfl
  · intro m st
    rw [eval]

/-- The initialiser of one binding more, and the name in a new cell. -/
theorem bound {init : ExprAST D}
    (h : T.Performs s s₁ (scopeAfter init sc) cells cells₁ (fun _ st =>
      if init.isNull then .done ops.zero st else eval ops callees test init sc st) read)
    (hname : T.Performs s₁ s₂ ((scopeAfter init sc).bind name) cells₁ cells₂ (fun m st =>
      .done (read m) (st.write (scopeAfter init sc).next (read m))) read)
    (hrest : T.Performs s₂ s₃ (scopeBindings varNames ((scopeAfter init sc).bind name)).2 cells₂
      cells₃ (fun _ st =>
        evalBindings ops callees test varNames ((scopeAfter init sc).bind name) st) fun _ => ()) :
    T.Performs s s₃ (scopeBindings ((name, init) :: varNames) sc).2 cells cells₃
      (fun _ st => evalBindings ops callees test ((name, init) :: varNames) sc st)
      fun _ => () := by
  rw [scopeBindings]
  have hfirst := h.bind hname
    (k := fun _ x st => .done x (st.write (scopeAfter init sc).next x)) fun _ _ _ _ => rfl
  refine (hfirst.bind hrest (k := fun _ _ st =>
    evalBindings ops callees test varNames ((scopeAfter init sc).bind name) st) ?_).congr ?_
  · exact fun _ _ _ _ => rfl
  · intro m st
    rw [evalBindings, Ending.bind_bind]
    rfl

/-- The bindings of a `var`, its body, and the table that is restored. -/
theorem declared
    (h : T.Performs s s₁ (scopeBindings varNames sc).2 cells cells₁
      (fun _ st => evalBindings ops callees test varNames sc st) fun _ => ())
    (hbody : T.Evaluates ops callees test body s₁ s₂ (scopeBindings varNames sc).2 cells₁ cells₂
      read)
    (hplaced : T.Placed s₃ (scopeAfter (.varExpr varNames body) sc) cells₂)
    (hb : T.builder s₃ = T.builder s₂) :
    T.Evaluates ops callees test (.varExpr varNames body) s s₃ sc cells cells₂ read := by
  have hall := h.bind hbody (k := fun _ _ st =>
    eval ops callees test body (scopeBindings varNames sc).2 st) fun _ _ _ _ => rfl
  refine (hall.renamed hplaced hb).congr fun m st => ?_
  rw [eval]

/-- The condition, its test, and the branches. -/
theorem branched {flag : μ → Bool}
    (h : T.Evaluates ops callees test cond s s₁ sc cells cells₁ read)
    (htest : T.Performs s₁ s₂ (scopeAfter cond sc) cells₁ cells₁
      (fun m st => .done (test (read m)) st) flag)
    (hbranches : T.Performs s₂ s₃ (scopeAfter else_ (scopeAfter then_ (scopeAfter cond sc))) cells₁
      cells₂ (fun m st => if flag m then eval ops callees test then_ (scopeAfter cond sc) st
        else eval ops callees test else_ (scopeAfter then_ (scopeAfter cond sc)) st) read') :
    T.Evaluates ops callees test (.ifExpr cond then_ else_) s s₃ sc cells cells₂ read' := by
  rw [Evaluates, scopeAfter]
  have hflag := h.bind htest (k := fun _ x st => .done (test x) st) fun _ _ _ _ => rfl
  refine (hflag.bind hbranches (k := fun _ b st =>
    if b then eval ops callees test then_ (scopeAfter cond sc) st
    else eval ops callees test else_ (scopeAfter then_ (scopeAfter cond sc)) st) ?_).congr ?_
  · exact fun _ _ _ _ => rfl
  · intro m st
    rw [eval, Ending.bind_bind]
    rfl

end Evaluates

end

/-- What a generator adds for the expression does what it means, in a back end whose `if`s
take for true what `test` does. -/
def Meant {ε α : Type} (T : BackEnd σ β μ κ ι D W) (ops : FloatOps D) (callees : Callees D Name W)
    (test : D → Bool) (gen : ExprAST D → Gen σ ε α) (val : α → μ → D) (e : ExprAST D) : Prop :=
  ∀ s v s' sc cells, gen e s = .ok v s' → T.Placed s sc cells →
    Resolves e sc ∧ ∃ cells', T.Performs s s' (scopeAfter e sc) cells cells'
      (fun _ st => eval ops callees test e sc st) (val v)

end BackEnd

end AroundTheWorld.Agreement
