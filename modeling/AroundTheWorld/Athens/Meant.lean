import AroundTheWorld.Athens.Follows
import AroundTheWorld.Athens.Prologue

/-!
# What Athens generates for expressions

One lemma for each construct, and from them, by induction over expressions of built-in
operators without loops, that what is generated for them does what they mean. Then a
function, whose prologue brings its parameters into scope.
-/

namespace AroundTheWorld.Athens

open AroundTheWorld.Base AroundTheWorld.Lex AroundTheWorld.Llvm AroundTheWorld.Agreement

variable {D W : Type}

section
variable {ops : FloatOps D} {callees : Callees D Name W} {s s₁ s₂ s₃ : AthensState D}
  {sc sc₁ sc₂ : NameScope} {cells cells₁ cells₂ : List Nat}

/-- What is generated for the expression does what it means. -/
abbrev Meant (ops : FloatOps D) (callees : Callees D Name W) (e : ExprAST D) : Prop :=
  (athens ops callees).Meant ops callees (holdsOrdered ops) (codegen ops) (fun v m => m.val v) e

theorem meant_variable (name : Name) : Meant ops callees (.variableExpr name) := by
  intro s v s' sc cells h hs
  obtain ⟨k, hk, rfl, rfl⟩ := codegen_variable_ok h
  obtain ⟨c, hname, -, hc⟩ := hs.scope.find hk
  refine ⟨?_, cells, ?_⟩
  · rw [Resolves, hname]
    rfl
  · refine (performs_createLoad ops callees hs hc hname).congr fun m st => ?_
    rw [Agreement.eval]

theorem meant_assignment {lhs rhs : ExprAST D} (ihr : Meant ops callees rhs) :
    Meant ops callees (.binaryExpr (byte '=') lhs rhs) := by
  intro s v s' sc cells h hs
  obtain ⟨name, s₁, k, rfl, hrhs, hk, rfl⟩ := codegen_assign_ok h
  obtain ⟨hresolves, cells₁, h₁⟩ := ihr s v s₁ sc cells hrhs hs
  obtain ⟨c, hname, -, hc⟩ := h₁.placed.scope.find hk
  refine ⟨?_, cells₁, ?_⟩
  · rw [Resolves, if_pos rfl, Assignable, hname]
    exact ⟨hresolves, rfl⟩
  · exact BackEnd.Evaluates.assigned h₁ hname (performs_createStore ops callees h₁.placed hc v)

theorem meant_binary {op : Byte} {lhs rhs : ExprAST D} (hop : op ≠ byte '=')
    (harith : Arithmetic op) (ihl : Meant ops callees lhs) (ihr : Meant ops callees rhs) :
    Meant ops callees (.binaryExpr op lhs rhs) := by
  intro s v s' sc cells h hs
  obtain ⟨l, s₁, r, s₂, hl, hr, h⟩ := codegen_binary_ok hop h
  obtain ⟨hresolves, cells₁, h₁⟩ := ihl s l s₁ sc cells hl hs
  obtain ⟨hresolves₂, cells₂, h₂⟩ := ihr s₁ r s₂ _ cells₁ hr h₁.placed
  have hbelow := (codegen_emitted lhs s s₁ l hs.wf hl).below
  refine ⟨?_, cells₂, ?_⟩
  · rw [Resolves, if_neg hop]
    exact ⟨hresolves, hresolves₂, harith⟩
  · exact BackEnd.Evaluates.operated hop h₁ (fun m m₁ hkept => hbelow.val_eq hkept) h₂
      (performs_binaryOp ops callees harith h h₂.placed)

/-! ## Lists of expressions -/

theorem meant_args {args : List (ExprAST D)} (ih : ∀ a ∈ args, Meant ops callees a)
    {vals : List (Operand D)} (h : codegenArgs ops args s = .ok vals s₁) (hs : s.Placed sc cells) :
    ResolvesArgs args sc ∧ ∃ cells',
      (athens ops callees).Performs s s₁ (scopeArgs args sc) cells cells'
      (fun _ st => Agreement.evalArgs ops callees (holdsOrdered ops) args sc st)
      (fun m => vals.map m.val) := by
  induction args generalizing s sc cells vals with
  | nil =>
    rw [codegenArgs] at h
    cases h
    refine ⟨trivial, cells, (BackEnd.Performs.refl hs []).congr fun m st => ?_⟩
    rw [Agreement.evalArgs]
  | cons arg args ihs =>
    obtain ⟨v, s₂, rest, harg, hrest, rfl⟩ := codegenArgs_cons_ok h
    obtain ⟨hresolves, cells₁, h₁⟩ := ih arg (List.mem_cons_self ..) s v s₂ sc cells harg hs
    obtain ⟨hresolves₂, cells₂, h₂⟩ :=
      ihs (fun a ha => ih a (List.mem_cons_of_mem _ ha)) hrest h₁.placed
    have hbelow := (codegen_emitted arg s s₂ v hs.wf harg).below
    refine ⟨⟨hresolves, hresolves₂⟩, cells₂, ?_⟩
    exact BackEnd.Evaluates.argument h₁ (fun m m₁ hkept => hbelow.val_eq hkept) h₂

theorem meant_call {callee : Name} {args : List (ExprAST D)}
    (ih : ∀ a ∈ args, Meant ops callees a) : Meant ops callees (.callExpr callee args) := by
  intro s v s' sc cells h hs
  obtain ⟨theModule, vals, s₁, hargs, rfl, rfl⟩ := codegen_call_ok h
  obtain ⟨hresolves, cells₁, h₁⟩ := meant_args ih hargs ⟨hs.wf, hs.scope, hs.old⟩
  have h₂ := performs_createCall ops callees h₁.placed callee vals
  refine ⟨by rwa [Resolves], cells₁, ?_⟩
  exact BackEnd.Evaluates.called (h₁.started rfl) h₂

/-- The initialiser of a binding. -/
theorem meant_init {init : ExprAST D} (ih : Meant ops callees init) {v : Operand D}
    (h : codegenOr ops ops.zero init s = .ok v s₁) (hs : s.Placed sc cells) :
    (init.isNull = true ∨ Resolves init sc) ∧ v.Below s₁.builder.nextReg ∧ ∃ cells',
      (athens ops callees).Performs s s₁ (scopeAfter init sc) cells cells'
        (fun _ st => if init.isNull then .done ops.zero st
          else Agreement.eval ops callees (holdsOrdered ops) init sc st) (fun m => m.val v) := by
  rcases codegenOr_ok h with ⟨hnull, rfl, rfl⟩ | ⟨hnull, h⟩
  · obtain rfl := ExprAST.eq_null_of_isNull hnull
    exact ⟨.inl rfl, trivial, cells, performs_const ops callees hs ops.zero⟩
  · obtain ⟨hresolves, cells', h'⟩ := ih s v s₁ sc cells h hs
    refine ⟨.inr hresolves, (codegen_emitted init s s₁ v hs.wf h).below, cells', ?_⟩
    refine h'.congr fun m st => ?_
    rw [hnull, if_neg Bool.false_ne_true]

theorem meant_bindings {varNames : List (Name × ExprAST D)}
    (ih : ∀ b ∈ varNames, Meant ops callees b.2) {olds : List (Option Nat)}
    (h : codegenBindings ops varNames s = .ok olds s₁) (hs : s.Placed sc cells) :
    ResolvesBindings varNames sc ∧ ∃ cells',
      Saved (scopeBindings varNames sc).1 cells' ((varNames.map (·.1)).zip olds) ∧
      (athens ops callees).Performs s s₁ (scopeBindings varNames sc).2 cells cells'
        (fun _ st => Agreement.evalBindings ops callees (holdsOrdered ops) varNames sc st)
        (fun _ => ()) := by
  induction varNames generalizing s sc cells olds with
  | nil =>
    rw [codegenBindings] at h
    cases h
    refine ⟨trivial, cells, ⟨fun _ hp => (List.not_mem_nil hp).elim, rfl⟩, ?_⟩
    refine (BackEnd.Performs.refl hs ()).congr fun m st => ?_
    rw [Agreement.evalBindings]
  | cons b rest ihs =>
    obtain ⟨name, init⟩ := b
    obtain ⟨v, s₂, olds', hinit, hrest, rfl⟩ := codegenBindings_cons_ok h
    obtain ⟨hresolves, hbelow, cells₁, h₁⟩ := meant_init (ih _ (List.mem_cons_self ..)) hinit hs
    obtain ⟨hold, h₂⟩ := performs_bound ops callees h₁.placed hbelow name
    obtain ⟨hresolves₂, cells₂, hsaved, h₃⟩ :=
      ihs (fun b hb => ih b (List.mem_cons_of_mem _ hb)) hrest h₂.placed
    refine ⟨⟨hresolves, hresolves₂⟩, cells₂, ?_, BackEnd.Evaluates.bound h₁ h₂ h₃⟩
    rw [scopeBindings]
    exact hsaved.cons name hold h₃.cells

theorem restoreNames_run {names : List Name} {olds : List (Option Nat)}
    (h : restoreNames names olds s = .ok () s₁) :
    s₁ = { s with namedValues := restoreTable (names.zip olds) s.namedValues } := by
  induction names generalizing s olds with
  | nil =>
    cases olds <;> cases h <;> rfl
  | cons name names ih =>
    cases olds with
    | nil =>
      cases h
      rfl
    | cons old olds => exact ih h

theorem meant_var {varNames : List (Name × ExprAST D)} {body : ExprAST D}
    (ihs : ∀ b ∈ varNames, Meant ops callees b.2) (ih : Meant ops callees body) :
    Meant ops callees (.varExpr varNames body) := by
  intro s v s' sc cells h hs
  obtain ⟨olds, s₁, s₂, hbindings, hbody, hrestore⟩ := codegen_var_ok h
  obtain ⟨hresolves, cells₁, hsaved, h₁⟩ := meant_bindings ihs hbindings hs
  obtain ⟨hresolves₂, cells₂, h₂⟩ := ih s₁ v s₂ _ cells₁ hbody h₁.placed
  obtain rfl := restoreNames_run hrestore
  have hplaced : AthensState.Placed
      { s₂ with namedValues := restoreTable ((varNames.map (·.1)).zip olds) s₂.namedValues }
      (scopeAfter (.varExpr varNames body) sc) cells₂ := by
    rw [scopeAfter]
    exact ⟨h₂.placed.wf, h₂.placed.scope.restore (hsaved.mono h₂.cells), h₂.placed.old⟩
  exact ⟨⟨hresolves, hresolves₂⟩, cells₂, BackEnd.Evaluates.declared h₁ h₂ hplaced rfl⟩

/-! ## Branches -/

/-- An arm ends in a jump, and leads behind the phi. -/
theorem joins {ev : Machine D Name W → State D W → Value D W D} {v : Operand D}
    (h : (athens ops callees).Performs s s₁ sc cells cells₁ ev (·.val v)) {final : List Nat}
    {code : Code D Name} (hfinal : cells₁ <+: final) (hnodup : final.Nodup)
    (hem : Base.Emitted s.builder.code s₁.builder.code code) {join : Builder D Name} {l k n : Nat}
    {incoming : List (Operand D × Nat)} (hempty : join.code l = [])
    (hbr : Base.Emitted s₁.builder.code (s₁.builder.createBr l).code code)
    (hfind : incoming.find? (fun entry => entry.2 == s₁.builder.insertBlock) = some (v, k))
    (hphi : Base.Emitted join.code ((join.setInsertPoint l).createPhi incoming).2.code code)
    (hn : n ≤ s.builder.nextReg) (hn' : n ≤ join.nextReg) {m : Machine D Name W} {st : State D W}
    (hst : (athens ops callees).Stands s.builder final code st m) :
    Base.Follows (Machine.step ops callees code) ((athens ops callees).Waits final code) m (ev m st)
      fun y st₁ m₁ => (athens ops callees).Stands
          ((join.setInsertPoint l).createPhi incoming).2 final code st₁ m₁ ∧
        m₁.val (.reg join.nextReg) = y ∧ ∀ r < n, m₁.regs r = m.regs r := by
  refine (h.follows final code hfinal hnodup hem m st hst).followed fun y st₁ m₁ hwent => ?_
  obtain ⟨m₂, hreach, hat, hval, hkept⟩ :=
    Builder.run_createBr_phi ops callees hwent.stands.at_ hempty hbr hfind hphi
  refine ⟨m₂, hreach, stands_of_eq hwent.stands hat hkept.mem hkept.world hkept.calls,
    hval.trans hwent.read, fun r hr => ?_⟩
  rw [hkept.regs r (Nat.lt_of_lt_of_le hr hn')]
  exact hwent.kept r (Nat.lt_of_lt_of_le hr hn)

/-- Behind the test of an `if`: the jump, and the arm that it leads to. -/
theorem performs_branches {flag : Flag} {thenV elseV : Operand D} {f g : State D W → Value D W D}
    (hs : s.Placed sc cells)
    (hthen : (athens ops callees).Performs (s.withBuilder (ifHead s.builder flag)) s₁ sc₁ cells
      cells₁ (fun _ st => f st) (·.val thenV))
    (helse : (athens ops callees).Performs (s₁.withBuilder (elseHead s.builder s₁.builder)) s₂ sc₂
      cells₁ cells₂ (fun _ st => g st) (·.val elseV)) :
    (athens ops callees).Performs s
      (s₂.withBuilder ((ifMerge s.builder s₂.builder).createPhi
        [(thenV, s₁.builder.insertBlock), (elseV, s₂.builder.insertBlock)]).2)
      sc₂ cells cells₂ (fun m st => if m.flag flag then f st else g st)
      (·.val (.reg (ifMerge s.builder s₂.builder).nextReg)) := by
  have hthenGrown : (ifHead s.builder flag).Grows s₁.builder := hthen.grown
  have helseGrown : (elseHead s.builder s₁.builder).Grows s₂.builder := helse.grown
  obtain ⟨-, hhead, hthenEmpty, -, -⟩ := ifHead_wf hs.wf flag
  obtain ⟨-, -, helseEmpty, -⟩ := elseHead_wf hs.wf hthen.placed.wf hthenGrown
  obtain ⟨hwf, hmerge, hmergeEmpty, hapart⟩ :=
    ifMerge_wf hs.wf hthen.placed.wf hthenGrown helse.placed.wf helseGrown
  -- the builders in between, each with the code of the one before
  have hthenBr := Builder.Grows.emit s₁.builder (.br (s.builder.nextLabel + 2))
  have helseBr := Builder.Grows.emit s₂.builder (.br (s.builder.nextLabel + 2))
  have hphi : (ifMerge s.builder s₂.builder).Grows ((ifMerge s.builder s₂.builder).createPhi
      [(thenV, s₁.builder.insertBlock), (elseV, s₂.builder.insertBlock)]).2 :=
    (Builder.Grows.emit _ _).trans (.bumpReg _)
  have helsePhi := fun l => (helseBr.prefix_ l).trans (hphi.prefix_ l)
  have hthenPhi := fun l =>
    ((hthenBr.prefix_ l).trans (helseGrown.prefix_ l)).trans (helsePhi l)
  have hjump : ∀ l, s.builder.code l <+: (ifHead s.builder flag).code l := hhead.prefix_
  have hthenCode := fun l => (hjump l).trans (hthenGrown.prefix_ l)
  have helseStart := fun l => (hthenCode l).trans (hthenBr.prefix_ l)
  have helseCode := fun l => (helseStart l).trans (helseGrown.prefix_ l)
  have hcells := hthen.cells.trans helse.cells
  refine ⟨hmerge.trans hphi, hcells, ?_, ?_⟩
  · exact ⟨(hwf.emit _).bumpReg, helse.placed.scope, helse.placed.old⟩
  intro final code hfinal hnodup hem m st hst
  have hat : s.builder.At m := hst.at_
  have hatHead : s.builder.createBlockIn.2.createBlock.2.createBlock.2.At m :=
    ⟨hat.block, hat.index⟩
  have hcond := Builder.step_createCondBr ops callees hatHead flag s.builder.nextLabel
    (s.builder.nextLabel + 1) (hem.first fun l => (hthenGrown.prefix_ l).trans (hthenPhi l))
  have hbrThen := (hem.rest hthenCode).first fun l =>
    (helseGrown.prefix_ l).trans (helsePhi l)
  have hbrElse := (hem.rest helseCode).first hphi.prefix_
  have hemPhi := hem.rest fun l => (helseCode l).trans (helseBr.prefix_ l)
  refine .after (.one hcond) ?_
  cases m.flag flag with
  | true =>
    have hstart : (athens ops callees).Stands (ifHead s.builder flag) final code st
        (m.jump s.builder.nextLabel) :=
      stands_of_eq hst ⟨rfl, (congrArg List.length hthenEmpty).symm⟩ rfl rfl rfl
    refine (joins hthen (helse.cells.trans hfinal) hnodup ((hem.rest hjump).first hthenPhi)
      hmergeEmpty hbrThen (k := s₁.builder.insertBlock) (by simp) hemPhi hhead.reg_le
      hmerge.reg_le hstart).mono ?_
    rintro y st₁ m₁ ⟨hstands, hval, hregs⟩
    exact ⟨hstands, hval, hregs⟩
  | false =>
    have hstart : (athens ops callees).Stands (elseHead s.builder s₁.builder) final code st
        (m.jump (s.builder.nextLabel + 1)) :=
      stands_of_eq hst ⟨rfl, (congrArg List.length helseEmpty).symm⟩ rfl rfl rfl
    refine (joins helse hfinal hnodup ((hem.rest helseStart).first helsePhi) hmergeEmpty hbrElse
      (k := s₂.builder.insertBlock) (by simp [hapart]) hemPhi
      (Nat.le_trans hhead.reg_le hthenGrown.reg_le) hmerge.reg_le hstart).mono ?_
    rintro y st₁ m₁ ⟨hstands, hval, hregs⟩
    exact ⟨hstands, hval, hregs⟩

theorem meant_if {cond then_ else_ : ExprAST D} (ihc : Meant ops callees cond)
    (iht : Meant ops callees then_) (ihe : Meant ops callees else_) :
    Meant ops callees (.ifExpr cond then_ else_) := by
  intro s v s' sc cells h hs
  obtain ⟨condV, s₁, b, flag, thenV, s₂, elseV, s₃, hcond, hb, hthen, helse, rfl, rfl⟩ :=
    codegen_if_ok h
  obtain ⟨rfl, rfl⟩ := Prod.mk.inj hb
  obtain ⟨hresolves, cells₁, h₁⟩ := ihc s condV s₁ sc cells hcond hs
  have h₂ := performs_createFCmp ops callees h₁.placed .one condV (.const ops.zero)
  have hthenStart := (ifHead_wf h₂.placed.wf
    (Builder.createFCmp ops .one s₁.builder condV (.const ops.zero)).1)
  obtain ⟨hresolves₂, cells₂, h₃⟩ := iht _ _ _ _ cells₁ hthen
    (h₂.placed.built hthenStart.1 hthenStart.2.1.cell_le)
  have helseStart := elseHead_wf h₂.placed.wf h₃.placed.wf h₃.grown
  obtain ⟨hresolves₃, cells₃, h₄⟩ := ihe _ _ _ _ cells₂ helse
    (h₃.placed.built helseStart.1 (Nat.le_refl _))
  refine ⟨⟨hresolves, hresolves₂, hresolves₃⟩, cells₃, ?_⟩
  exact BackEnd.Evaluates.branched h₁ h₂ (performs_branches h₂.placed h₃ h₄)

/-- Athens' code for an expression of built-in operators without loops does what the
expression means. -/
theorem meant_of_builtIn (ops : FloatOps D) (callees : Callees D Name W) (e : ExprAST D)
    (h : builtIn e = true) : Meant ops callees e := by
  induction e using ExprAST.induction with
  | null => exact fun s v s' sc cells h => absurd h codegen_null
  | numberExpr val =>
    intro s v s' sc cells h hs
    obtain ⟨rfl, rfl⟩ := codegen_number_ok h
    refine ⟨trivial, cells, (performs_const ops callees hs val).congr fun m st => ?_⟩
    rw [Agreement.eval]
  | variableExpr name => exact meant_variable name
  | unaryExpr op operand _ => cases h
  | forExpr varName start end_ step body _ _ _ _ => cases h
  | binaryExpr op lhs rhs ihl ihr =>
    rw [builtIn, Bool.and_eq_true, Bool.and_eq_true] at h
    by_cases hop : op = byte '='
    · subst hop
      exact meant_assignment (ihr h.2)
    · refine meant_binary hop ?_ (ihl h.1.2) (ihr h.2)
      simpa [Arithmetic, hop, or_assoc] using h.1.1
  | callExpr callee args ih =>
    rw [builtIn, builtInArgs_iff] at h
    exact meant_call fun a ha => ih a ha (h a ha)
  | ifExpr cond then_ else_ ihc iht ihe =>
    rw [builtIn, Bool.and_eq_true, Bool.and_eq_true] at h
    exact meant_if (ihc h.1.1) (iht h.1.2) (ihe h.2)
  | varExpr varNames body ihs ih =>
    rw [builtIn, Bool.and_eq_true, builtInBindings_iff] at h
    exact meant_var (fun b hb => ihs b hb (h.1 b hb)) (ih h.2)

/-! ## Functions -/

/-- The loop over the arguments: each goes from its register to a new cell. -/
theorem performs_params (ops : FloatOps D) (callees : Callees D Name W) (params : List Name)
    (reg : Nat) (hs : s.Placed sc cells) (hregs : reg + params.length ≤ s.builder.nextReg) :
    ∃ cells', (athens ops callees).Performs s (s.bindParams reg params) (sc.bindAll params) cells
      cells' (fun m st =>
        .done () (st.writeAll ((List.range' reg params.length).map m.regs) sc.next))
      (fun _ => ()) := by
  induction params generalizing s sc cells reg with
  | nil => exact ⟨cells, BackEnd.Performs.refl hs ()⟩
  | cons name params ih =>
    rw [List.length_cons] at hregs
    have hreg : reg < s.builder.nextReg := by omega
    obtain ⟨-, h₁⟩ := performs_bound ops callees hs (x := .reg reg) hreg name
    have hrest : reg + 1 + params.length ≤ s.builder.nextReg := by omega
    obtain ⟨cells', h₂⟩ := ih (reg + 1) h₁.placed hrest
    refine ⟨cells', (h₁.bind h₂ (k := fun m _ st => .done ()
      (st.writeAll ((List.range' (reg + 1) params.length).map m.regs) (sc.next + 1))) ?_).congr ?_⟩
    · intro m m₁ hkept st
      have hsame : (List.range' (reg + 1) params.length).map m₁.regs =
          (List.range' (reg + 1) params.length).map m.regs := by
        apply List.map_congr_left
        intro r hr
        have hbound := (List.mem_range'_1.mp hr).2
        exact hkept r (Nat.lt_of_lt_of_le hbound hrest)
      rw [hsame]
      rfl
    · exact fun _ _ => rfl

/-- In front of the entry block of a function that was called. The arguments are its first
registers; the memory is as whoever was there has left it. -/
structure Entered (args : List D) (world : W) (m : Machine D Name W) : Prop where
  block : m.block = 0
  index : m.index = 0
  regs : ∀ i x, args[i]? = some x → m.regs i = x
  world : m.world = world
  calls : m.calls = []

/-- A function that was compiled does what its body means, behind its parameters. -/
theorem FunctionAST.follows {f : FunctionAST D} {fn : FunctionIR D} {g : AthensState D}
    (h : f.codegen ops s = .ok fn g) (hbuiltIn : builtIn f.body = true)
    (callees : Callees D Name W) :
    Resolves f.body (entryScope fn.args) ∧ ∃ cells, ∀ args world m,
      args.length = fn.args.length → Entered args world m →
      Base.Follows (Machine.step ops callees fn.body.code)
        ((athens ops callees).Waits cells fn.body.code) m
        (evalFunction ops callees (holdsOrdered ops) fn.args f.body args world)
        ((athens ops callees).Went (f.declared s).builder fn.body cells fn.body.code m fun m =>
          m.val fn.retVal) := by
  obtain ⟨v, hbody, rfl⟩ := FunctionAST.codegen_generated h
  have hstart : (f.declared s).Placed ⟨fun _ => none, 0⟩ [] :=
    ⟨⟨Nat.one_pos, fun _ _ => rfl⟩, .empty, fun _ hk => (List.not_mem_nil hk).elim⟩
  have hregs : 0 + (f.argNames s).length ≤ (f.declared s).builder.nextReg :=
    Nat.le_of_eq (Nat.zero_add _)
  obtain ⟨cells, h₁⟩ := performs_params ops callees (f.argNames s) 0 hstart hregs
  obtain ⟨hresolves, cells', h₂⟩ := meant_of_builtIn ops callees f.body hbuiltIn _ v _ _ _ hbody
    h₁.placed
  refine ⟨hresolves, cells', fun args world m hlen hm => ?_⟩
  have hall := h₁.bind h₂ (k := fun _ _ st => Agreement.eval ops callees (holdsOrdered ops) f.body
    (entryScope (f.argNames s)) st) fun _ _ _ _ => rfl
  have hst : (athens ops callees).Stands (f.declared s).builder cells' g.builder.code
      ⟨fun _ => none, world, []⟩ m :=
    ⟨⟨hm.block, hm.index⟩, .nothing hm.world hm.calls⟩
  have hrun := hall.follows cells' g.builder.code List.prefix_rfl h₂.placed.scope.distinct
    (.of_le fun _ => List.prefix_rfl) m _ hst
  have hargs : (List.range' 0 (f.argNames s).length).map m.regs = args := by
    rw [← hlen]
    exact inputs_eq hm.regs
  rw [hargs] at hrun
  exact hrun

end

end AroundTheWorld.Athens
