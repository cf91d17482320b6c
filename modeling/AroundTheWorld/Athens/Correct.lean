import AroundTheWorld.Athens.Agrees

/-!
# Athens expressions are compiled correctly

The code of an expression, run from the insertion point where its generation
started, follows the reference evaluation to the insertion point where its
generation ended. One lemma for each kind of expression; the induction is over
the expression, for all scopes, states and builders at once.
-/

namespace AroundTheWorld.Athens

open AroundTheWorld.Base AroundTheWorld.Lex AroundTheWorld.Llvm

variable {D W : Type}

/-- The machine stands behind code whose evaluation gave `r`: `read` finds the
result, and the first `n` registers are those of `m`. -/
structure Yielded {β : Type} (n₀ : Nat) (b : Builder D Name) (scope : Scope) (n : Nat)
    (m : Machine D Name W) (read : Machine D Name W → β) (r : β × EvalState D W)
    (m' : Machine D Name W) : Prop where
  at_ : b.At m'
  val : read m' = r.1
  agrees : Agrees n₀ scope r.2 m'
  regs : ∀ k < n, m'.regs k = m.regs k

theorem Yielded.since {β : Type} {n₀ n k : Nat} {b : Builder D Name} {scope : Scope}
    {m m₁ m' : Machine D Name W} {read : Machine D Name W → β} {r : β × EvalState D W}
    (h : Yielded n₀ b scope k m₁ read r m') (hle : n ≤ k)
    (hregs : ∀ j < n, m₁.regs j = m.regs j) : Yielded n₀ b scope n m read r m' := by
  refine ⟨h.at_, h.val, h.agrees, ?_⟩
  intro j hj
  rw [h.regs j (by omega), hregs j hj]

section
variable {ops : FloatOps D} {callees : Callees D Name W} {table : Name → Option Nat} {n₀ : Nat}
  {code : Code D Name} {N : Nat}

/-- The machine follows an evaluation. -/
abbrev Follows (ops : FloatOps D) (callees : Callees D Name W) (code : Code D Name) (N : Nat)
    {ρ : Type} (m : Machine D Name W) (r : Option ρ) (good : ρ → Machine D Name W → Prop) : Prop :=
  Simulates (Machine.step ops callees code) N (Machine.Blocked ops callees code) m r good

/-- The code of `e` follows its evaluation, in every scope. -/
def Compiled (ops : FloatOps D) (callees : Callees D Name W) (table : Name → Option Nat) (n₀ : Nat)
    (code : Code D Name) (N : Nat) (e : ExprAST D) : Prop :=
  ∀ s s' v scope, codegen ops e s = .ok v s' → noRepeat e = true → Ready table n₀ scope s →
    s'.builder.Within code → ∀ (m : Machine D Name W) st, s.builder.At m → Agrees n₀ scope st m →
    Follows ops callees code N m (eval ops callees table N e st)
      (Yielded n₀ s'.builder scope s.builder.nextReg m (·.val v))

/-! ## Instructions -/

section
variable {b : Builder D Name} {scope : Scope} {m : Machine D Name W} {st : EvalState D W}

theorem follows_call (hm : b.At m) (hst : Agrees n₀ scope st m) (callee : Name)
    (args : List (Operand D)) (hw : (b.createCall callee args).2.Within code) :
    Follows ops callees code N m (evalCall callees callee (args.map m.val) st)
      (Yielded n₀ (b.createCall callee args).2 scope b.nextReg m (·.val (.reg b.nextReg))) := by
  rw [evalCall, ← hst.world]
  cases hcall : callees callee (args.map m.val) m.world with
  | none => exact Simulates.of_blocked (Builder.blocked_createCall ops callees hm hcall (.of_le hw))
  | some r =>
    obtain ⟨x, world⟩ := r
    obtain ⟨m', hreach, hat, hval, hregs, hmem, hworld, hcalls⟩ :=
      Builder.run_createCall ops callees hm hcall (.of_le hw)
    refine ⟨m', hreach, hat, hval, ?_, hregs⟩
    refine ⟨?_, ?_, hworld, ?_⟩
    · rw [hmem]
      exact hst.locals
    · rw [hmem]
      exact hst.mem
    · rw [hcalls, hst.calls]

theorem fbinOpOf_eval {op : Byte} {fop : FBinOp} (h : fbinOpOf op = some fop) (x y : D)
    (st : EvalState D W) :
    evalBinary ops callees op x y st = some (ops.fbin fop x y, st) := by
  unfold fbinOpOf at h
  unfold evalBinary
  split at h
  · rw [if_pos (by assumption)]
    cases h
    rfl
  split at h
  · rw [if_neg (by assumption), if_pos (by assumption)]
    cases h
    rfl
  split at h
  · rw [if_neg (by assumption), if_neg (by assumption), if_pos (by assumption)]
    cases h
    rfl
  · cases h

theorem fbinOpOf_none {op : Byte} (h : fbinOpOf op = none) (hlt : op ≠ byte '<') (x y : D)
    (st : EvalState D W) : evalBinary ops callees op x y st =
      evalCall callees (text "binary" ++ [op]) [x, y] st := by
  unfold fbinOpOf at h
  unfold evalBinary
  split at h
  · cases h
  split at h
  · cases h
  split at h
  · cases h
  rw [if_neg (by assumption), if_neg (by assumption), if_neg (by assumption), if_neg hlt]

theorem follows_binaryOp {op : Byte} {l r v : Operand D} {s s' : AthensState D}
    (h : binaryOp ops op l r s = .ok v s') (hm : s.builder.At m) (hst : Agrees n₀ scope st m)
    (hw : s'.builder.Within code) :
    Follows ops callees code N m (evalBinary ops callees op (m.val l) (m.val r) st)
      (Yielded n₀ s'.builder scope s.builder.nextReg m (·.val v)) := by
  rcases binaryOp_ok h with ⟨fop, hop, rfl, rfl⟩ | ⟨rfl, flag, b, hb, rfl, rfl⟩ |
    ⟨hop, hlt, rfl, k, rfl⟩
  · rw [fbinOpOf_eval hop]
    obtain ⟨m', hreach, hat, hval, hkept⟩ :=
      Builder.run_createFBin ops callees hm fop l r (.of_le hw)
    exact ⟨m', hreach, hat, hval, hst.kept hkept, hkept.regs⟩
  · have hflag : flag = (Builder.createFCmp ops .ult s.builder l r).1 := congrArg Prod.fst hb
    have hb' : b = (Builder.createFCmp ops .ult s.builder l r).2 := congrArg Prod.snd hb
    subst hflag hb'
    have hgrows := Builder.Grows.createUIToFP ops (Builder.createFCmp ops .ult s.builder l r).2
      (Builder.createFCmp ops .ult s.builder l r).1
    obtain ⟨m₁, hreach₁, hat₁, hval₁, hkept₁⟩ :=
      Builder.run_createFCmp ops callees hm .ult l r (.of_le (Builder.Within.of_grows hgrows hw))
    obtain ⟨m₂, hreach₂, hat₂, hval₂, hkept₂⟩ :=
      Builder.run_createUIToFP ops callees hat₁ _ (.of_le hw)
    have hle := (Builder.Grows.createFCmp ops .ult s.builder l r).reg_le
    have hkept := hkept₁.trans hkept₂ hle
    refine ⟨m₂, hreach₁.trans hreach₂, hat₂, ?_, hst.kept hkept, hkept.regs⟩
    rw [hval₂, hval₁]
    rfl
  · rw [fbinOpOf_none hop hlt]
    exact follows_call hm hst _ [l, r] hw

end

/-! ## Expressions -/

theorem compiled_number (val : D) : Compiled ops callees table n₀ code N (.numberExpr val) := by
  intro s s' v scope h _ _ _ m st hm hst
  obtain ⟨rfl, rfl⟩ := codegen_number_ok h
  rw [eval]
  exact Simulates.pure ⟨hm, rfl, hst, fun _ _ => rfl⟩

theorem compiled_variable (name : Name) :
    Compiled ops callees table n₀ code N (.variableExpr name) := by
  intro s s' v scope h _ hr hw m st hm hst
  obtain ⟨c, hc, rfl, rfl⟩ := codegen_variable_ok h
  obtain ⟨m', hreach, hat, hval, hkept⟩ := Builder.run_createLoad ops callees hm c (.of_le hw)
  rw [eval, hst.readName hr hc]
  exact ⟨m', hreach, hat, hval, hst.kept hkept, hkept.regs⟩

theorem compiled_unary {op : Byte} {operand : ExprAST D}
    (ih : Compiled ops callees table n₀ code N operand) :
    Compiled ops callees table n₀ code N (.unaryExpr op operand) := by
  intro s s' v scope h hrep hr hw m st hm hst
  obtain ⟨operandV, s₁, k, hoperand, rfl, rfl⟩ := codegen_unary_ok h
  rw [noRepeat] at hrep
  have hgrows : s₁.builder.Grows (s₁.builder.createCall (text "unary" ++ [op]) [operandV]).2 :=
    (Builder.Grows.emit _ _).trans (.bumpReg _)
  have hreg := (codegen_emitted operand _ _ _ hr.wf hoperand).grows.reg_le
  rw [eval]
  apply (ih s s₁ operandV scope hoperand hrep hr (.of_grows hgrows hw) m st hm hst).bind
  rintro ⟨x, st₁⟩ m₁ h₁
  obtain rfl : m₁.val operandV = x := h₁.val
  apply (follows_call h₁.at_ h₁.agrees _ [operandV] hw).mono
  intro r m₂ h₂
  exact h₂.since hreg h₁.regs

theorem compiled_assign {lhs rhs : ExprAST D} (ih : Compiled ops callees table n₀ code N rhs) :
    Compiled ops callees table n₀ code N (.binaryExpr (byte '=') lhs rhs) := by
  intro s s' v scope h hrep hr hw m st hm hst
  obtain ⟨name, s₁, c, rfl, hrhs, hc, rfl⟩ := codegen_assign_ok h
  simp only [noRepeat, Bool.and_eq_true] at hrep
  have hgrows : s₁.builder.Grows (s₁.builder.createStore v c) := .emit _ _
  rw [eval, if_pos rfl, evalAssignment]
  apply (ih s s₁ v scope hrhs hrep.2 hr (.of_grows hgrows hw) m st hm hst).bind
  rintro ⟨x, st₁⟩ m₁ h₁
  obtain rfl : m₁.val v = x := h₁.val
  obtain ⟨hreach, hat⟩ := Builder.run_createStore ops callees h₁.at_ v c (.of_le hw)
  obtain ⟨st', hwrite, hst'⟩ := h₁.agrees.writeName (hr.codegen hrep.2 hrhs) hc (m₁.val v)
  apply Simulates.after hreach
  show Simulates _ _ _ _ ((writeName table name (m₁.val v) st₁).map _) _
  rw [show writeName table name (m₁.val v) st₁ = some st' from hwrite]
  refine Simulates.pure ⟨hat, ?_, hst', h₁.regs⟩
  cases v with
  | const d => rfl
  | reg r => rfl

theorem compiled_binary {op : Byte} (hop : op ≠ byte '=') {lhs rhs : ExprAST D}
    (ihl : Compiled ops callees table n₀ code N lhs)
    (ihr : Compiled ops callees table n₀ code N rhs) :
    Compiled ops callees table n₀ code N (.binaryExpr op lhs rhs) := by
  intro s s' v scope h hrep hr hw m st hm hst
  obtain ⟨l, s₁, r, s₂, hl, hrcode, h⟩ := codegen_binary_ok hop h
  simp only [noRepeat, Bool.and_eq_true] at hrep
  have hr₁ := hr.codegen hrep.1 hl
  have hr₂ := hr₁.codegen hrep.2 hrcode
  have he₁ := codegen_emitted lhs _ _ _ hr.wf hl
  have he₂ := codegen_emitted rhs _ _ _ hr₁.wf hrcode
  have he₃ := binaryOp_emitted hr₂.wf h
  have hw₂ : s₂.builder.Within code := .of_grows he₃.grows hw
  have hw₁ : s₁.builder.Within code := .of_grows he₂.grows hw₂
  rw [eval, if_neg hop]
  apply (ihl s s₁ l scope hl hrep.1 hr hw₁ m st hm hst).bind
  rintro ⟨x, st₁⟩ m₁ h₁
  apply (ihr s₁ s₂ r scope hrcode hrep.2 hr₁ hw₂ m₁ st₁ h₁.at_ h₁.agrees).bind
  rintro ⟨y, st₂⟩ m₂ h₂
  -- the left value has survived the code of the right side
  obtain rfl : m₂.val l = x := (he₁.below.val_eq h₂.regs).trans h₁.val
  obtain rfl : m₂.val r = y := h₂.val
  apply (follows_binaryOp h h₂.at_ h₂.agrees hw).mono
  intro r m₃ h₃
  have h₂' := h₂.since he₁.grows.reg_le h₁.regs
  exact h₃.since (Nat.le_trans he₁.grows.reg_le he₂.grows.reg_le) h₂'.regs

/-! ## Arguments and bindings -/

theorem compiled_args {args : List (ExprAST D)}
    (ih : ∀ a ∈ args, Compiled ops callees table n₀ code N a) {s s' : AthensState D}
    {vs : List (Operand D)} {scope : Scope} (h : codegenArgs ops args s = .ok vs s')
    (hrep : ∀ a ∈ args, noRepeat a = true) (hr : Ready table n₀ scope s)
    (hw : s'.builder.Within code) {m : Machine D Name W} {st : EvalState D W}
    (hm : s.builder.At m) (hst : Agrees n₀ scope st m) :
    Follows ops callees code N m (evalArgs ops callees table N args st)
      (Yielded n₀ s'.builder scope s.builder.nextReg m (fun m => vs.map m.val)) := by
  induction args generalizing s vs m st with
  | nil =>
    rw [codegenArgs] at h
    cases h
    rw [evalArgs]
    exact Simulates.pure ⟨hm, rfl, hst, fun _ _ => rfl⟩
  | cons arg args ihargs =>
    obtain ⟨v, s₁, rest, harg, hrest, rfl⟩ := codegenArgs_cons_ok h
    have hr₁ := hr.codegen (hrep arg (by simp)) harg
    have he₁ := codegen_emitted arg _ _ _ hr.wf harg
    have hgrows := (codegenArgs_emitted (fun a _ => codegen_emitted a) hr₁.wf hrest).1
    have hw₁ : s₁.builder.Within code := .of_grows hgrows hw
    rw [evalArgs]
    apply (ih arg (by simp) s s₁ v scope harg (hrep arg (by simp)) hr hw₁ m st hm hst).bind
    rintro ⟨x, st₁⟩ m₁ h₁
    have hothers := ihargs (fun a ha => ih a (by simp [ha])) hrest
      (fun a ha => hrep a (by simp [ha])) hr₁ h₁.at_ h₁.agrees
    apply hothers.map
    rintro ⟨xs, st₂⟩ m₂ h₂
    refine ⟨h₂.at_, ?_, h₂.agrees, (h₂.since he₁.grows.reg_le h₁.regs).regs⟩
    show m₂.val v :: rest.map m₂.val = x :: xs
    rw [he₁.below.val_eq h₂.regs, h₁.val, show rest.map m₂.val = xs from h₂.val]

theorem compiled_call {callee : Name} {args : List (ExprAST D)}
    (ih : ∀ a ∈ args, Compiled ops callees table n₀ code N a) :
    Compiled ops callees table n₀ code N (.callExpr callee args) := by
  intro s s' v scope h hrep hr hw m st hm hst
  obtain ⟨k, argsV, s₁, hargs, rfl, rfl⟩ := codegen_call_ok h
  rw [noRepeat, noRepeatArgs_iff] at hrep
  have hgrows : s₁.builder.Grows (s₁.builder.createCall callee argsV).2 :=
    (Builder.Grows.emit _ _).trans (.bumpReg _)
  have hr' : Ready table n₀ scope { s with theModule := k } :=
    ⟨hr.wf, hr.names, hr.cells, hr.distinct, hr.base_le, hr.base⟩
  have hreg := (codegenArgs_emitted (fun a _ => codegen_emitted a) hr'.wf hargs).1.reg_le
  rw [eval]
  apply (compiled_args ih hargs hrep hr' (.of_grows hgrows hw) hm hst).bind
  rintro ⟨xs, st₁⟩ m₁ h₁
  obtain rfl : argsV.map m₁.val = xs := h₁.val
  apply (follows_call h₁.at_ h₁.agrees _ argsV hw).mono
  intro r m₂ h₂
  exact h₂.since hreg h₁.regs

/-- An expression that may be missing. -/
theorem Compiled.or {e : ExprAST D} (ih : Compiled ops callees table n₀ code N e) {default : D}
    {s s' : AthensState D} {v : Operand D} {scope : Scope}
    (h : codegenOr ops default e s = .ok v s') (hrep : noRepeat e = true)
    (hr : Ready table n₀ scope s) (hw : s'.builder.Within code) {m : Machine D Name W}
    {st : EvalState D W} (hm : s.builder.At m) (hst : Agrees n₀ scope st m) :
    Follows ops callees code N m
      (if e.isNull then some (default, st) else eval ops callees table N e st)
      (Yielded n₀ s'.builder scope s.builder.nextReg m (·.val v)) := by
  rcases codegenOr_ok h with ⟨hnull, rfl, rfl⟩ | ⟨hnull, h⟩
  · rw [if_pos hnull]
    exact Simulates.pure ⟨hm, rfl, hst, fun _ _ => rfl⟩
  · rw [hnull, if_neg Bool.false_ne_true]
    exact ih s s' v scope h hrep hr hw m st hm hst

theorem Ready.codegenOr {e : ExprAST D} {default : D} {s s' : AthensState D} {v : Operand D}
    {scope : Scope} (hr : Ready table n₀ scope s) (hrep : noRepeat e = true)
    (h : codegenOr ops default e s = .ok v s') : Ready table n₀ scope s' := by
  rcases codegenOr_ok h with ⟨-, -, rfl⟩ | ⟨-, h⟩
  · exact hr
  · exact hr.codegen hrep h

/-- The scope when a binding has been generated: its cell is the newest. -/
theorem Ready.binding {s : AthensState D} {scope : Scope} (hr : Ready table n₀ scope s)
    (name : Name) (initVal : Operand D) :
    Ready table n₀ ((name, s.builder.nextCell) :: scope)
      ((s.withBuilder (s.builder.createAlloca.2.createStore initVal
        s.builder.nextCell)).withName name (some s.builder.nextCell)) := by
  have hr' := hr.withBuilder (hr.wf.createAlloca.emit (.store initVal s.builder.nextCell))
    (Nat.le_succ _)
  apply hr'.push
  · exact ⟨hr.base_le, Nat.lt_succ_self _⟩
  · intro b hb
    exact (hr.cells b hb).2

/-- The bindings of a list: `inner` is what they add to the scope. -/
theorem compiled_bindings {varNames : List (Name × ExprAST D)}
    (ih : ∀ b ∈ varNames, Compiled ops callees table n₀ code N b.2) {s s' : AthensState D}
    {olds : List (Option Nat)} {scope : Scope} (h : codegenBindings ops varNames s = .ok olds s')
    (hrep : ∀ b ∈ varNames, noRepeat b.2 = true) (hr : Ready table n₀ scope s)
    (hw : s'.builder.Within code) :
    ∃ inner : Scope, inner.length = varNames.length ∧ Ready table n₀ (inner ++ scope) s' ∧
      ∀ (m : Machine D Name W) st, s.builder.At m → Agrees n₀ scope st m →
        Follows ops callees code N m (evalBindings ops callees table N varNames st)
          (fun st' => Yielded n₀ s'.builder (inner ++ scope) s.builder.nextReg m (fun _ => ())
            ((), st')) := by
  induction varNames generalizing s olds scope with
  | nil =>
    rw [codegenBindings] at h
    cases h
    refine ⟨[], rfl, hr, ?_⟩
    intro m st hm hst
    rw [evalBindings]
    exact Simulates.pure ⟨hm, rfl, hst, fun _ _ => rfl⟩
  | cons b rest ihrest =>
    obtain ⟨name, init⟩ := b
    obtain ⟨initVal, s₁, olds', hinit, hrest, rfl⟩ := codegenBindings_cons_ok h
    have hr₁ := hr.codegenOr (hrep (name, init) (by simp)) hinit
    have hr₂ := hr₁.binding name initVal
    have he₁ := codegenOr_emitted (codegen_emitted init) hr.wf hinit
    have hgrows := (codegenBindings_emitted (fun b _ => codegen_emitted b.2) hr₂.wf hrest).1
    have hw₂ : (s₁.builder.createAlloca.2.createStore initVal s₁.builder.nextCell).Within code :=
      .of_grows hgrows hw
    have hw₁ : s₁.builder.Within code :=
      .of_grows ((Builder.Grows.createAlloca _).trans (.emit _ _)) hw₂
    obtain ⟨inner, hlength, hready, hfollows⟩ := ihrest (fun b hb => ih b (by simp [hb])) hrest
      (fun b hb => hrep b (by simp [hb])) hr₂
    refine ⟨inner ++ [(name, s₁.builder.nextCell)], by simp [hlength], by simpa using hready, ?_⟩
    intro m st hm hst
    rw [evalBindings]
    apply ((ih (name, init) (by simp)).or hinit (hrep (name, init) (by simp)) hr hw₁ hm hst).bind
    rintro ⟨x, st₁⟩ m₁ h₁
    obtain rfl : m₁.val initVal = x := h₁.val
    have hat : s₁.builder.createAlloca.2.At m₁ := ⟨h₁.at_.block, h₁.at_.index⟩
    obtain ⟨hreach, hat₂⟩ := Builder.run_createStore ops callees hat initVal _ (.of_le hw₂)
    have hst₂ : Agrees n₀ ((name, s₁.builder.nextCell) :: scope)
        (st₁.push name (m₁.val initVal)) _ :=
      h₁.agrees.push hr₁.base_le (fun b hb => (hr₁.cells b hb).2) (m₁.val initVal)
    apply Simulates.after hreach
    apply (hfollows _ _ hat₂ hst₂).mono
    intro st' m' h'
    have hall := h'.since he₁.grows.reg_le h₁.regs
    simpa using hall

theorem compiled_var {varNames : List (Name × ExprAST D)} {body : ExprAST D}
    (ihs : ∀ b ∈ varNames, Compiled ops callees table n₀ code N b.2)
    (ihb : Compiled ops callees table n₀ code N body) :
    Compiled ops callees table n₀ code N (.varExpr varNames body) := by
  intro s s' v scope h hrep hr hw m st hm hst
  obtain ⟨olds, s₁, s₂, hbindings, hbody, hrestore⟩ := codegen_var_ok h
  have hbuilder := (restoreNames_eq _ _ _ _ hrestore).1
  simp only [noRepeat, Bool.and_eq_true] at hrep
  have hinits := noRepeatVar_inits hrep.1
  obtain ⟨hgrows₁, hwf₁⟩ := codegenBindings_emitted (fun b _ => codegen_emitted b.2) hr.wf hbindings
  have he₂ := codegen_emitted body _ _ _ hwf₁ hbody
  rw [hbuilder] at hw ⊢
  obtain ⟨inner, hlength, hready, hfollows⟩ :=
    compiled_bindings ihs hbindings hinits hr (.of_grows he₂.grows hw)
  rw [eval]
  apply (hfollows m st hm hst).bind
  intro st₁ m₁ h₁
  apply (ihb s₁ s₂ v (inner ++ scope) hbody hrep.2 hready hw m₁ st₁ h₁.at_ h₁.agrees).map
  rintro ⟨x, st₂⟩ m₂ h₂
  have hall := h₂.since hgrows₁.reg_le h₁.regs
  have hpop := h₂.agrees.pop
  rw [hlength] at hpop
  exact ⟨hall.at_, hall.val, hpop, hall.regs⟩

/-! ## Branches and loops -/

theorem Ready.withGrown {s : AthensState D} {scope : Scope} {b : Builder D Name}
    (hr : Ready table n₀ scope s) (hwf : b.Wf) (hgrows : s.builder.Grows b) :
    Ready table n₀ scope (s.withBuilder b) := hr.withBuilder hwf hgrows.cell_le

/-- An arm of a branch, from the jump to it to the phi behind it. -/
theorem Compiled.arm {e : ExprAST D} (ih : Compiled ops callees table n₀ code N e)
    {s s' : AthensState D} {v : Operand D} {scope : Scope} (h : codegen ops e s = .ok v s')
    (hrep : noRepeat e = true) (hr : Ready table n₀ scope s) {m : Machine D Name W}
    {st : EvalState D W} (hm : s.builder.At m) (hst : Agrees n₀ scope st m)
    {join : Builder D Name} {l k n : Nat} {incoming : List (Operand D × Nat)}
    (hempty : join.code l = []) (hw : (s'.builder.createBr l).Within code)
    (hfind : incoming.find? (fun entry => entry.2 == s'.builder.insertBlock) = some (v, k))
    (hw' : ((join.setInsertPoint l).createPhi incoming).2.Within code)
    (hn : n ≤ s.builder.nextReg) (hn' : n ≤ join.nextReg) :
    Follows ops callees code N m (eval ops callees table N e st)
      (Yielded n₀ ((join.setInsertPoint l).createPhi incoming).2 scope n m
        (·.val (.reg join.nextReg))) := by
  have hw₁ : s'.builder.Within code := .of_grows (.emit _ (.br l)) hw
  apply (ih s s' v scope h hrep hr hw₁ m st hm hst).followed
  intro r m₁ h₁
  obtain ⟨m₂, hreach, hat, hval, hkept⟩ :=
    Builder.run_createBr_phi ops callees h₁.at_ hempty (.of_le hw) hfind (.of_le hw')
  refine ⟨m₂, hreach, hat, hval.trans h₁.val, h₁.agrees.kept hkept, ?_⟩
  intro j hj
  rw [hkept.regs j (by omega), h₁.regs j (by omega)]

theorem compiled_if {cond then_ else_ : ExprAST D}
    (ihc : Compiled ops callees table n₀ code N cond)
    (iht : Compiled ops callees table n₀ code N then_)
    (ihe : Compiled ops callees table n₀ code N else_) :
    Compiled ops callees table n₀ code N (.ifExpr cond then_ else_) := by
  intro s s' v scope h hrep hr hw m st hm hst
  obtain ⟨condV, s₁, b, flag, thenV, s₂, elseV, s₃, hcond, hb, hthen, helse, rfl, rfl⟩ :=
    codegen_if_ok h
  simp only [noRepeat, Bool.and_eq_true] at hrep
  obtain ⟨⟨hrepc, hrept⟩, hrepe⟩ := hrep
  -- the builders on the way, and what is within the code
  have hr₁ := hr.codegen hrepc hcond
  have he₁ := codegen_emitted cond _ _ _ hr.wf hcond
  have hflag : flag = (Builder.createFCmp ops .one s₁.builder condV (.const ops.zero)).1 :=
    congrArg Prod.fst hb
  have hbuilder : b = (Builder.createFCmp ops .one s₁.builder condV (.const ops.zero)).2 :=
    congrArg Prod.snd hb
  have hgrowsb : s₁.builder.Grows b := hbuilder ▸ .createFCmp _ _ _ _ _
  have hwfb : b.Wf := hbuilder ▸ hr₁.wf.createFCmp _ _ _ _
  obtain ⟨hwfThen, hgrowsThen, hemptyThen, -, -⟩ := ifHead_wf hwfb flag
  have hrThen := hr₁.withGrown hwfThen (hgrowsb.trans hgrowsThen)
  have he₂ := codegen_emitted then_ _ _ _ hwfThen hthen
  have hr₂ := hrThen.codegen hrept hthen
  obtain ⟨hwfElse, hgrowsElse, hemptyElse, -⟩ := elseHead_wf hwfb he₂.wf he₂.grows
  have hrElse : Ready table n₀ scope (s₂.withBuilder (elseHead b s₂.builder)) :=
    hr₂.withBuilder hwfElse (Nat.le_refl _)
  have he₃ := codegen_emitted else_ _ _ _ hwfElse helse
  obtain ⟨hwfMerge, hgrowsMerge, hemptyMerge, hne⟩ :=
    ifMerge_wf hwfb he₂.wf he₂.grows he₃.wf he₃.grows
  have hwMerge : (ifMerge b s₃.builder).Within code :=
    .of_grows ((Builder.Grows.emit _ _).trans (.bumpReg _)) hw
  have hw₃ : s₃.builder.Within code := .of_grows (.emit _ (.br (b.nextLabel + 2))) hwMerge
  have hwElse : (elseHead b s₂.builder).Within code := .of_grows he₃.grows hw₃
  have hw₂ : s₂.builder.Within code := .of_grows (.emit _ (.br (b.nextLabel + 2))) hwElse
  have hwThen : (ifHead b flag).Within code := .of_grows he₂.grows hw₂
  have hwb : b.Within code := .of_grows hgrowsThen hwThen
  have hw₁ : s₁.builder.Within code := .of_grows hgrowsb hwb
  have hreg : s.builder.nextReg ≤ b.nextReg := Nat.le_trans he₁.grows.reg_le hgrowsb.reg_le
  rw [eval]
  apply (ihc s s₁ condV scope hcond hrepc hr hw₁ m st hm hst).bind
  rintro ⟨x, st₁⟩ m₁ h₁
  obtain ⟨m₂, hreach₂, hat₂, hval₂, hkept₂⟩ :=
    Builder.run_createFCmp ops callees h₁.at_ .one condV (.const ops.zero) (.of_le (hbuilder ▸ hwb))
  rw [← hbuilder] at hat₂
  have hval₂' : m₂.flag flag = ops.one x ops.zero := by
    rw [hflag, hval₂, h₁.val]
    rfl
  have hst₂ := h₁.agrees.kept hkept₂
  have hregs₂ : ∀ k < s.builder.nextReg, m₂.regs k = m.regs k := by
    intro k hk
    rw [hkept₂.regs k (Nat.lt_of_lt_of_le hk he₁.grows.reg_le), h₁.regs k hk]
  have hat₂' : b.createBlockIn.2.createBlock.2.createBlock.2.At m₂ := ⟨hat₂.block, hat₂.index⟩
  have hbranch := Builder.step_createCondBr ops callees hat₂' flag b.nextLabel (b.nextLabel + 1)
    (.of_le hwThen)
  apply Simulates.after (hreach₂.trans (Reaches.one hbranch))
  rw [hval₂']
  show Follows ops callees code N _ (if ops.one x ops.zero then eval ops callees table N then_ st₁
    else eval ops callees table N else_ st₁) _
  cases htest : ops.one x ops.zero with
  | true =>
    have hat₃ : (ifHead b flag).At (m₂.jump b.nextLabel) := Builder.At.of_jump hemptyThen m₂
    have hfind : [(thenV, s₂.builder.insertBlock), (elseV, s₃.builder.insertBlock)].find?
        (fun entry => entry.2 == s₂.builder.insertBlock) =
          some (thenV, s₂.builder.insertBlock) := by
      simp
    have harm := iht.arm hthen hrept hrThen hat₃ (hst₂.jump _) hemptyMerge hwElse hfind hw
      (Nat.le_trans hreg hgrowsThen.reg_le) (Nat.le_trans hreg hgrowsMerge.reg_le)
    apply harm.mono
    intro r m₃ h₃
    exact h₃.since (Nat.le_refl _) hregs₂
  | false =>
    have hat₃ : (elseHead b s₂.builder).At (m₂.jump (b.nextLabel + 1)) :=
      Builder.At.of_jump hemptyElse m₂
    have hfind : [(thenV, s₂.builder.insertBlock), (elseV, s₃.builder.insertBlock)].find?
        (fun entry => entry.2 == s₃.builder.insertBlock) =
          some (elseV, s₃.builder.insertBlock) := by
      simp [hne]
    have harm := ihe.arm helse hrepe hrElse hat₃ (hst₂.jump _) hemptyMerge hwMerge hfind hw
      (Nat.le_trans hreg hgrowsElse.reg_le) (Nat.le_trans hreg hgrowsMerge.reg_le)
    apply harm.mono
    intro r m₃ h₃
    exact h₃.since (Nat.le_refl _) hregs₂

/-- The end of an iteration, up to the branch: the test is taken before the
variable is increased. -/
theorem run_forTail (ops : FloatOps D) (callees : Callees D Name W) {b b₅ b₆ : Builder D Name}
    {m : Machine D Name W} {c : Nat} {flag : Flag}
    {endV stepVal next : Operand D} (hm : b.At m) (hbelow : stepVal.Below b.nextReg)
    (hb₅ : (flag, b₅) = Builder.createFCmp ops .one b endV (.const ops.zero))
    (hb₆ : (next, b₆) = Builder.createFBin ops .fadd (b₅.createLoad c).2 (b₅.createLoad c).1
      stepVal) {loopBB : Nat} (hw : (forEnd b₆ c next flag loopBB).Within code) :
    ∃ m', Reaches (Machine.step ops callees code) m m' ∧
      m'.step ops callees code =
        some (m'.jump (if ops.one (m.val endV) ops.zero then loopBB else b₆.nextLabel)) ∧
      (m.setCell c (ops.add (m.mem c) (m.val stepVal))).Kept b.nextReg m' := by
  have hflag : flag = _ := congrArg Prod.fst hb₅
  have hbuilder₅ : b₅ = _ := congrArg Prod.snd hb₅
  have hnext : next = _ := congrArg Prod.fst hb₆
  have hbuilder₆ : b₆ = _ := congrArg Prod.snd hb₆
  have hgrows₅ : b.Grows b₅ := hbuilder₅ ▸ .createFCmp _ _ _ _ _
  have hgrowsLoad : b₅.Grows (b₅.createLoad c).2 := (Builder.Grows.emit _ _).trans (.bumpReg _)
  have hgrows₆ : (b₅.createLoad c).2.Grows b₆ := hbuilder₆ ▸ .createFBin _ _ _ _ _
  have hwStore : (b₆.createStore next c).Within code :=
    .of_grows ((Builder.Grows.createBlockIn _).trans (.emit _ (.condBr flag loopBB b₆.nextLabel)))
      hw
  have hw₆ : b₆.Within code := .of_grows (.emit _ _) hwStore
  have hwLoad : (b₅.createLoad c).2.Within code := .of_grows hgrows₆ hw₆
  have hw₅ : b₅.Within code := .of_grows hgrowsLoad hwLoad
  obtain ⟨m₁, hreach₁, hat₁, hval₁, hkept₁⟩ :=
    Builder.run_createFCmp ops callees hm .one endV (.const ops.zero) (.of_le (hbuilder₅ ▸ hw₅))
  rw [← hbuilder₅] at hat₁
  obtain ⟨m₂, hreach₂, hat₂, hval₂, hkept₂⟩ :=
    Builder.run_createLoad ops callees hat₁ c (.of_le hwLoad)
  obtain ⟨m₃, hreach₃, hat₃, hval₃, hkept₃⟩ := Builder.run_createFBin ops callees hat₂ .fadd
    (b₅.createLoad c).1 stepVal (.of_le (hbuilder₆ ▸ hw₆))
  rw [← hbuilder₆] at hat₃
  rw [← hnext] at hval₃
  obtain ⟨hreach₄, hat₄⟩ := Builder.run_createStore ops callees hat₃ next c (.of_le hwStore)
  have hat₄' : (b₆.createStore next c).createBlockIn.2.At (m₃.setCell c (m₃.val next)) :=
    ⟨hat₄.block, hat₄.index⟩
  have hbranch := Builder.step_createCondBr ops callees hat₄' flag loopBB b₆.nextLabel (.of_le hw)
  -- what has survived: the flag, the step and everything below
  have hkept₂₃ := hkept₂.trans hkept₃ hgrowsLoad.reg_le
  have hkept := hkept₁.trans hkept₂₃ hgrows₅.reg_le
  have hflagBelow : flag.Below b₅.nextReg := by
    rw [hflag, hbuilder₅]
    exact Builder.createFCmp_below _ _ _ _ _
  have hflagVal : (m₃.setCell c (m₃.val next)).flag flag = ops.one (m.val endV) ops.zero := by
    have hsame : (m₃.setCell c (m₃.val next)).flag flag = m₃.flag flag := by cases flag <;> rfl
    rw [hsame, hflagBelow.flag_eq hkept₂₃.flags, hflag, hval₁]
    rfl
  have hstepVal : m₂.val stepVal = m.val stepVal :=
    hbelow.val_eq (hkept₁.trans hkept₂ hgrows₅.reg_le).regs
  have hnextVal : m₃.val next = ops.add (m.mem c) (m.val stepVal) := by
    rw [hval₃, hval₂, hstepVal, hkept₁.mem]
    rfl
  refine ⟨_, ((hreach₁.trans hreach₂).trans hreach₃).trans hreach₄, ?_, ?_⟩
  · rw [← hflagVal]
    exact hbranch
  · rw [hnextVal]
    refine ⟨hkept.regs, hkept.flags, ?_, hkept.world, hkept.calls⟩
    funext k
    show (if k = c then _ else m₃.mem k) = if k = c then _ else m.mem k
    rw [hkept.mem]

/-- Between two iterations the machine stands at the head of the loop, or behind it. -/
def AtLoop (n₀ : Nat) (head behind : Builder D Name) (scope : Scope) (n : Nat)
    (m : Machine D Name W) (p : Bool × EvalState D W) (m' : Machine D Name W) : Prop :=
  (if p.1 then head.At m' else behind.At m') ∧ Agrees n₀ scope p.2 m' ∧
    ∀ k < n, m'.regs k = m.regs k

/-- One iteration: `s` is the state at the head of the loop, which is still empty
where the machine comes back to it. -/
theorem follows_iteration {body step end_ : ExprAST D}
    (ihb : Compiled ops callees table n₀ code N body)
    (ihst : Compiled ops callees table n₀ code N step)
    (ihe : Compiled ops callees table n₀ code N end_) {s s₂ s₃ s₄ : AthensState D}
    {bodyVal stepVal endV next : Operand D} {flag : Flag} {b₅ b₆ before : Builder D Name}
    {varName : Name} {c loopBB n : Nat} {scope : Scope}
    (hbody : codegen ops body s = .ok bodyVal s₂)
    (hstep : codegenOr ops ops.unit step s₂ = .ok stepVal s₃)
    (hend : codegen ops end_ s₃ = .ok endV s₄)
    (hb₅ : (flag, b₅) = Builder.createFCmp ops .one s₄.builder endV (.const ops.zero))
    (hb₆ : (next, b₆) = Builder.createFBin ops .fadd (b₅.createLoad c).2 (b₅.createLoad c).1
      stepVal) (hrep : noRepeat body = true ∧ noRepeat step = true ∧ noRepeat end_ = true)
    (hr : Ready table n₀ ((varName, c) :: scope) s) (hc : n₀ ≤ c)
    (hfresh : ∀ b ∈ scope, b.2 < c) (hhead : s.builder = before.setInsertPoint loopBB)
    (hempty : before.code loopBB = []) (hn : n ≤ s.builder.nextReg)
    (hw : (forEnd b₆ c next flag loopBB).Within code) (m₀ m : Machine D Name W)
    (st : EvalState D W) (hm : AtLoop n₀ s.builder (forEnd b₆ c next flag loopBB)
      ((varName, c) :: scope) n m₀ (true, st) m) :
    Follows ops callees code N m
      (evalIteration ops (eval ops callees table N body)
        (fun st => if step.isNull then some (ops.unit, st) else eval ops callees table N step st)
        (eval ops callees table N end_) st)
      (fun p m' => ∃ m'', m'.step ops callees code = some m'' ∧
        AtLoop n₀ s.builder (forEnd b₆ c next flag loopBB) ((varName, c) :: scope) n m₀ p m'') := by
  obtain ⟨hrepb, hrepst, hrepe⟩ := hrep
  obtain ⟨hat, hst, hregs⟩ := hm
  have he₂ := codegen_emitted body _ _ _ hr.wf hbody
  have hr₂ := hr.codegen hrepb hbody
  have he₃ := codegenOr_emitted (codegen_emitted step) hr₂.wf hstep
  have hr₃ := hr₂.codegenOr hrepst hstep
  have he₄ := codegen_emitted end_ _ _ _ hr₃.wf hend
  have hr₄ := hr₃.codegen hrepe hend
  obtain ⟨hwf₆, hgrows₄⟩ := forTail_grows hr₄.wf hb₅ hb₆
  have hemptyEnd := (forEnd_wf hwf₆ c next flag loopBB).2.2
  have hw₄ : s₄.builder.Within code := .of_grows hgrows₄ hw
  have hw₃ : s₃.builder.Within code := .of_grows he₄.grows hw₄
  have hw₂ : s₂.builder.Within code := .of_grows he₃.grows hw₃
  apply (ihb s s₂ bodyVal _ hbody hrepb hr hw₂ m st hat hst).bind
  rintro ⟨bodyResult, st₂⟩ m₂ h₂
  apply (ihst.or hstep hrepst hr₂ hw₃ h₂.at_ h₂.agrees).bind
  rintro ⟨inc, st₃⟩ m₃ h₃
  have hfollows := ihe s₃ s₄ endV _ hend hrepe hr₃ hw₄ m₃ st₃ h₃.at_ h₃.agrees
  apply hfollows.map_followed
  rintro ⟨test, st₄⟩ m₄ h₄
  have hstepVal : m₄.val stepVal = inc := (he₃.below.val_eq h₄.regs).trans h₃.val
  obtain ⟨m₅, hreach, hbranch, hkept⟩ := run_forTail ops callees h₄.at_
    (he₃.below.mono he₄.grows.reg_le) hb₅ hb₆ hw
  have hbump := (h₄.agrees.bump hc hfresh ops (m₄.val stepVal)).kept hkept
  refine ⟨m₅, hreach, _, hbranch, ?_, ?_, ?_⟩
  · rw [show m₄.val endV = test from h₄.val]
    show if ops.one test ops.zero then _ else _
    cases htest : ops.one test ops.zero with
    | true =>
      rw [if_pos rfl, if_pos rfl, hhead]
      exact Builder.At.of_jump hempty _
    | false =>
      rw [if_neg Bool.false_ne_true, if_neg Bool.false_ne_true]
      exact Builder.At.of_jump hemptyEnd _
  · rw [hstepVal] at hbump
    exact hbump.jump _
  · intro k hk
    have hle₂ := he₂.grows.reg_le
    have hle₃ := he₃.grows.reg_le
    have hle₄ := he₄.grows.reg_le
    show m₅.regs k = m₀.regs k
    rw [hkept.regs k (by omega)]
    show m₄.regs k = m₀.regs k
    rw [h₄.regs k (by omega), h₃.regs k (by omega), h₂.regs k (by omega), hregs k hk]

/-- A loop whose iterations the machine follows. -/
theorem follows_loop {head behind : Builder D Name} {scope : Scope} {n : Nat}
    {m₀ : Machine D Name W} {iteration : EvalState D W → Option (Bool × EvalState D W)}
    (hiter : ∀ m st, AtLoop n₀ head behind scope n m₀ (true, st) m →
      Follows ops callees code N m (iteration st) (fun p m' =>
        ∃ m'', m'.step ops callees code = some m'' ∧ AtLoop n₀ head behind scope n m₀ p m''))
    {m : Machine D Name W} {st : EvalState D W}
    (hm : AtLoop n₀ head behind scope n m₀ (true, st) m) :
    Follows ops callees code N m (evalLoop N iteration st)
      (fun st' => AtLoop n₀ head behind scope n m₀ (false, st')) := by
  have hwhile : Follows ops callees code N m
      (whileLoop (fun p => p.1) (fun p => iteration p.2) N (true, st))
      (fun p m' => AtLoop n₀ head behind scope n m₀ p m' ∧ p.1 = false) := by
    apply Simulates.whileLoop _ N (Nat.le_refl N) _ _ hm
    rintro ⟨again, st'⟩ m' hagain hloop
    obtain rfl : again = true := hagain
    exact hiter m' st' hloop
  apply hwhile.map
  rintro ⟨again, st'⟩ m' ⟨hloop, hagain⟩
  obtain rfl : again = false := hagain
  exact hloop

theorem compiled_for {varName : Name} {start end_ step body : ExprAST D}
    (ihs : Compiled ops callees table n₀ code N start)
    (ihe : Compiled ops callees table n₀ code N end_)
    (ihst : Compiled ops callees table n₀ code N step)
    (ihb : Compiled ops callees table n₀ code N body) :
    Compiled ops callees table n₀ code N (.forExpr varName start end_ step body) := by
  intro s s' v scope h hrep hr hw m st hm hst
  obtain ⟨startVal, s₁, bodyVal, s₂, stepVal, s₃, endV, s₄, flag, b₅, next, b₆, hstart, hbody,
    hstep, hend, hb₅, hb₆, rfl, rfl⟩ := codegen_for_ok h
  simp only [noRepeat, Bool.and_eq_true] at hrep
  obtain ⟨⟨⟨hreps, hrepe⟩, hrepst⟩, hrepb⟩ := hrep
  have hrA := hr.withGrown hr.wf.createAlloca (.createAlloca _)
  have he₁ := codegen_emitted start _ _ _ hrA.wf hstart
  have hr₁ := hrA.codegen hreps hstart
  obtain ⟨hwfHead, hgrowsHead, hemptyHead⟩ := forHead_wf hr₁.wf s.builder.nextCell startVal
  have hfresh : ∀ b ∈ scope, b.2 < s.builder.nextCell := fun b hb => (hr.cells b hb).2
  have hcell : s.builder.nextCell < s₁.builder.nextCell := he₁.grows.cell_le
  have hrHead : Ready table n₀ ((varName, s.builder.nextCell) :: scope)
      ((s₁.withBuilder (forHead s₁.builder s.builder.nextCell startVal)).withName varName
        (some s.builder.nextCell)) :=
    (hr₁.withGrown hwfHead hgrowsHead).push
      ⟨hr.base_le, Nat.lt_of_lt_of_le hcell hgrowsHead.cell_le⟩ hfresh
  have he₂ := codegen_emitted body _ _ _ hrHead.wf hbody
  have he₃ := codegenOr_emitted (codegen_emitted step) he₂.wf hstep
  have he₄ := codegen_emitted end_ _ _ _ he₃.wf hend
  have hwHead : (forHead s₁.builder s.builder.nextCell startVal).Within code :=
    .of_grows (((he₂.grows.trans he₃.grows).trans he₄.grows).trans
      (forTail_grows he₄.wf hb₅ hb₆).2) hw
  have hwStart : (s₁.builder.createStore startVal s.builder.nextCell).Within code :=
    .of_grows ((Builder.Grows.createBlockIn _).trans (.emit _ (.br s₁.builder.nextLabel))) hwHead
  have hw₁ : s₁.builder.Within code := .of_grows (.emit _ _) hwStart
  have hreg : s.builder.nextReg ≤ (forHead s₁.builder s.builder.nextCell startVal).nextReg :=
    Nat.le_trans he₁.grows.reg_le hgrowsHead.reg_le
  rw [eval]
  apply (ihs _ s₁ startVal scope hstart hreps hrA hw₁ m st ⟨hm.block, hm.index⟩ hst).bind
  rintro ⟨x, st₁⟩ m₁ h₁
  obtain rfl : m₁.val startVal = x := h₁.val
  obtain ⟨hreach₂, hat₂⟩ := Builder.run_createStore ops callees h₁.at_ startVal _ (.of_le hwStart)
  have hst₂ : Agrees n₀ ((varName, s.builder.nextCell) :: scope)
      (st₁.push varName (m₁.val startVal)) _ :=
    h₁.agrees.push hr.base_le hfresh (m₁.val startVal)
  have hat₂' : (s₁.builder.createStore startVal s.builder.nextCell).createBlockIn.2.At
      (m₁.setCell s.builder.nextCell (m₁.val startVal)) := ⟨hat₂.block, hat₂.index⟩
  have hbr := Builder.step_createBr ops callees hat₂' s₁.builder.nextLabel (.of_le hwHead)
  apply Simulates.after (hreach₂.trans (Reaches.one hbr))
  have hiter := follows_iteration ihb ihst ihe hbody hstep hend hb₅ hb₆ ⟨hrepb, hrepst, hrepe⟩
    hrHead hr.base_le hfresh rfl hemptyHead hreg hw m
  have hloop := follows_loop hiter ⟨Builder.At.of_jump hemptyHead _, hst₂.jump _, h₁.regs⟩
  -- the loop is left behind it, and its variable goes out of scope
  apply hloop.map
  rintro st' m' ⟨hat, hst', hregs⟩
  have hpop : Agrees n₀ scope (st'.pop [(varName, s.builder.nextCell)].length) m' := hst'.pop
  exact ⟨hat, rfl, hpop, hregs⟩

/-- Every expression is compiled correctly, in every scope. -/
theorem compiled (e : ExprAST D) : Compiled ops callees table n₀ code N e := by
  induction e using ExprAST.induction with
  | null =>
    intro s s' v scope h
    exact absurd h codegen_null
  | numberExpr val => exact compiled_number val
  | variableExpr name => exact compiled_variable name
  | unaryExpr op operand ih => exact compiled_unary ih
  | binaryExpr op lhs rhs ihl ihr =>
    by_cases hop : op = byte '='
    · rw [hop]
      exact compiled_assign ihr
    · exact compiled_binary hop ihl ihr
  | callExpr callee args ih => exact compiled_call ih
  | ifExpr cond then_ else_ ihc iht ihe => exact compiled_if ihc iht ihe
  | forExpr varName start end_ step body ihs ihe ihst ihb => exact compiled_for ihs ihe ihst ihb
  | varExpr varNames body ihs ihb => exact compiled_var ihs ihb

end

/-- An evaluation starts with no locals, in the memory and world of the machine. -/
def EvalState.start (m : Machine D Name W) : EvalState D W := ⟨[], m.mem, m.world, m.calls⟩

/-- The machine gets to the insertion point behind an expression exactly when the
reference evaluation terminates, and with the same value, cells and calls. -/
theorem codegen_correct (ops : FloatOps D) (callees : Callees D Name W) (e : ExprAST D)
    (hrep : noRepeat e = true) (s s' : AthensState D) (v : Operand D) (hwf : s.builder.Wf)
    (halloc : s.Allocated) (hcode : codegen ops e s = .ok v s') (m : Machine D Name W)
    (hm : s.builder.At m) :
    ((∃ m', Reaches (Machine.step ops callees s'.builder.code) m m' ∧ s'.builder.At m') ↔
      ∃ N r, eval ops callees s.namedValues N e (.start m) = some r) ∧
    ∀ m' N r, Reaches (Machine.step ops callees s'.builder.code) m m' → s'.builder.At m' →
      eval ops callees s.namedValues N e (.start m) = some r →
      m'.val v = r.1 ∧ (∀ c < s.builder.nextCell, m'.mem c = r.2.mem c) ∧
        m'.world = r.2.world ∧ m'.calls = r.2.calls := by
  have hr : Ready s.namedValues s.builder.nextCell [] s :=
    ⟨hwf, rfl, by simp, List.nodup_nil, Nat.le_refl _, halloc⟩
  have hst : Agrees s.builder.nextCell [] (.start m) m := ⟨rfl, fun _ _ => rfl, rfl, rfl⟩
  apply halts_iff_evaluates (fun _ hat => hat.halted) (fun _ h => h.step_eq)
  intro N
  have hcompiled : Compiled ops callees s.namedValues s.builder.nextCell s'.builder.code N e :=
    compiled e
  apply (hcompiled s s' v [] hcode hrep hr (fun _ => List.prefix_rfl) m (.start m) hm hst).mono
  intro r m' h
  exact ⟨h.at_, h.val, h.agrees.mem, h.agrees.world, h.agrees.calls⟩

/-- `for i = 0, i < 3 in x = x + i`, which adds 0, 1, 2 and 3 to the parameter `x`. -/
def sumLoop : ExprAST Int :=
  .forExpr [byte 'i'] (.numberExpr 0)
    (.binaryExpr (byte '<') (.variableExpr [byte 'i']) (.numberExpr 3)) .null
    (.binaryExpr (byte '=') (.variableExpr [byte 'x'])
      (.binaryExpr (byte '+') (.variableExpr [byte 'x']) (.variableExpr [byte 'i'])))

theorem codegen_correct_sumLoop :
    ∃ v s', codegen wholeOps sumLoop parameterX = .ok v s' ∧
      ∃ m', Reaches (Machine.step wholeOps (fun _ _ _ => none) s'.builder.code)
        ⟨0, 0, 0, fun _ => 0, fun _ => false, fun _ => 0, (), []⟩ m' ∧ s'.builder.At m' ∧
          m'.mem 0 = 6 := by
  obtain ⟨v, s', hcode, -⟩ : ∃ v s', codegen wholeOps sumLoop parameterX = .ok v s' ∧ () = () :=
    Outcome.ok_of_state (by decide +kernel)
  obtain ⟨r, heval, hr⟩ : ∃ r, eval wholeOps (fun _ _ _ => none) parameterX.namedValues 5 sumLoop
      ⟨[], fun _ => 0, (), []⟩ = some r ∧ r.2.mem 0 = 6 :=
    Option.map_eq_some_iff.mp (by decide +kernel)
  have hcorrect := codegen_correct wholeOps (fun _ _ _ => none) sumLoop (by decide +kernel)
    parameterX s' v ⟨by decide, fun _ _ => rfl⟩ parameterX_allocated hcode
    ⟨0, 0, 0, fun _ => 0, fun _ => false, fun _ => 0, (), []⟩ ⟨rfl, rfl⟩
  obtain ⟨m', hreach, hat⟩ := hcorrect.1.mpr ⟨5, r, heval⟩
  refine ⟨v, s', hcode, m', hreach, hat, ?_⟩
  rw [(hcorrect.2 m' 5 r hreach hat heval).2.1 0 (by decide), hr]

end AroundTheWorld.Athens
