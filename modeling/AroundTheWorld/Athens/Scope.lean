import AroundTheWorld.Base.Scopes
import AroundTheWorld.Athens.CodegenSpec

/-!
# What code generation leaves of the symbol table

`leaks e x` says that a lowering which patches and unpatches its symbol table by
hand leaves `x` bound to a cell of its own after `e`. The cause is always a `var`
list that names `x` twice: its restoring loop runs forward, so what the second
binding had saved, the cell of the first one, is written back last.
-/

namespace AroundTheWorld.Athens

open AroundTheWorld.Base AroundTheWorld.Base.Scopes AroundTheWorld.Lex AroundTheWorld.Llvm

variable {D : Type}

mutual

/-- With `boundsInScope`, the step and the end of a `for` are in the scope of its
variable, as in Athens; without, only the body is. -/
def leaks (boundsInScope : Bool) : ExprAST D → Name → Bool
  | .null, _ => false
  | .numberExpr _, _ => false
  | .variableExpr _, _ => false
  | .unaryExpr _ operand, x => leaks boundsInScope operand x
  | .binaryExpr op lhs rhs, x =>
    -- no code is generated for the left side of an assignment
    (op ≠ byte '=' && leaks boundsInScope lhs x) || leaks boundsInScope rhs x
  | .callExpr _ args, x => leaksArgs boundsInScope args x
  | .ifExpr cond then_ else_, x =>
    leaks boundsInScope cond x || leaks boundsInScope then_ x || leaks boundsInScope else_ x
  | .forExpr varName start end_ step body, x =>
    if boundsInScope then
      leaks boundsInScope start x || (x ≠ varName &&
        (leaks boundsInScope body x || leaks boundsInScope step x || leaks boundsInScope end_ x))
    else
      leaks boundsInScope start x || leaks boundsInScope end_ x || leaks boundsInScope step x ||
        (x ≠ varName && leaks boundsInScope body x)
  | .varExpr varNames body, x => leaksVar boundsInScope varNames (leaks boundsInScope body x) x

def leaksArgs (boundsInScope : Bool) : List (ExprAST D) → Name → Bool
  | [], _ => false
  | arg :: args, x => leaks boundsInScope arg x || leaksArgs boundsInScope args x

def leaksVar (boundsInScope : Bool) : List (Name × ExprAST D) → Bool → Name → Bool
  | [], inBody, _ => inBody
  | (y, init) :: rest, inBody, x =>
    leaks boundsInScope init x || (if x = y then (rest.map (·.1)).contains x
      else leaksVar boundsInScope rest inBody x)

end

/-- The bindings of a list with what their initialisers leave behind. -/
def leakingBindings (boundsInScope : Bool) (varNames : List (Name × ExprAST D)) :
    List (Name × (Name → Bool)) :=
  varNames.map fun (y, init) => (y, leaks boundsInScope init)

theorem leakingBindings_names (boundsInScope : Bool) (varNames : List (Name × ExprAST D)) :
    (leakingBindings boundsInScope varNames).map (·.1) = varNames.map (·.1) := by
  simp [leakingBindings]

theorem leaksVar_eq (boundsInScope : Bool) (varNames : List (Name × ExprAST D))
    (body : ExprAST D) (x : Name) : leaksVar boundsInScope varNames (leaks boundsInScope body x) x =
      leaksList (leakingBindings boundsInScope varNames) (leaks boundsInScope body) x := by
  induction varNames with
  | nil => rw [leaksVar]; rfl
  | cons b rest ih =>
    obtain ⟨y, init⟩ := b
    rw [leaksVar, ih, ← leakingBindings_names boundsInScope rest]
    by_cases hxy : x = y
    · simp [leakingBindings, leaksList, hxy]
      congr
    · simp [leakingBindings, leaksList, hxy]

theorem leaks_isNull {boundsInScope : Bool} {e : ExprAST D} (h : e.isNull = true) :
    leaks boundsInScope e = fun _ => false := by
  rw [ExprAST.eq_null_of_isNull h]
  funext x
  rw [leaks]

/-! ## Lists that repeat no name -/

mutual

/-- No `var` list in the expression names a variable twice. -/
def noRepeat : ExprAST D → Bool
  | .null => true
  | .numberExpr _ => true
  | .variableExpr _ => true
  | .unaryExpr _ operand => noRepeat operand
  | .binaryExpr _ lhs rhs => noRepeat lhs && noRepeat rhs
  | .callExpr _ args => noRepeatArgs args
  | .ifExpr cond then_ else_ => noRepeat cond && noRepeat then_ && noRepeat else_
  | .forExpr _ start end_ step body =>
    noRepeat start && noRepeat end_ && noRepeat step && noRepeat body
  | .varExpr varNames body => noRepeatVar varNames && noRepeat body

def noRepeatArgs : List (ExprAST D) → Bool
  | [] => true
  | arg :: args => noRepeat arg && noRepeatArgs args

def noRepeatVar : List (Name × ExprAST D) → Bool
  | [] => true
  | (y, init) :: rest => !(rest.map (·.1)).contains y && noRepeat init && noRepeatVar rest

end

theorem noRepeatArgs_iff {args : List (ExprAST D)} :
    noRepeatArgs args = true ↔ ∀ a ∈ args, noRepeat a = true := by
  induction args with
  | nil => simp [noRepeatArgs]
  | cons arg args ih => simp [noRepeatArgs, ih]

theorem noRepeatVar_inits {varNames : List (Name × ExprAST D)}
    (h : noRepeatVar varNames = true) : ∀ b ∈ varNames, noRepeat b.2 = true := by
  induction varNames with
  | nil => simp
  | cons b rest ih =>
    obtain ⟨y, init⟩ := b
    simp only [noRepeatVar, Bool.and_eq_true] at h
    intro b hb
    rcases List.mem_cons.mp hb with rfl | hb
    · exact h.1.2
    · exact ih h.2 b hb

/-- Then nothing leaks. -/
theorem leaks_of_noRepeat (boundsInScope : Bool) (e : ExprAST D) (h : noRepeat e = true)
    (x : Name) : leaks boundsInScope e x = false := by
  induction e using ExprAST.induction with
  | null => rw [leaks]
  | numberExpr val => rw [leaks]
  | variableExpr name => rw [leaks]
  | unaryExpr op operand ih =>
    rw [noRepeat] at h
    rw [leaks, ih h]
  | binaryExpr op lhs rhs ihl ihr =>
    simp only [noRepeat, Bool.and_eq_true] at h
    rw [leaks, ihl h.1, ihr h.2, Bool.and_false, Bool.or_false]
  | callExpr callee args ih =>
    rw [noRepeat, noRepeatArgs_iff] at h
    rw [leaks]
    induction args with
    | nil => rw [leaksArgs]
    | cons arg args ihargs =>
      rw [leaksArgs, ih arg (by simp) (h arg (by simp)), Bool.false_or]
      exact ihargs (fun a ha => ih a (by simp [ha])) (fun a ha => h a (by simp [ha]))
  | ifExpr cond then_ else_ ihc iht ihe =>
    simp only [noRepeat, Bool.and_eq_true] at h
    rw [leaks, ihc h.1.1, iht h.1.2, ihe h.2]
    rfl
  | forExpr varName start end_ step body ihs ihe ihst ihb =>
    simp only [noRepeat, Bool.and_eq_true] at h
    simp [leaks, ihs h.1.1.1, ihe h.1.1.2, ihst h.1.2, ihb h.2]
  | varExpr varNames body ihs ihb =>
    simp only [noRepeat, Bool.and_eq_true] at h
    rw [leaks, ihb h.2]
    have hvar := h.1
    clear h
    induction varNames with
    | nil => rw [leaksVar]
    | cons b rest ihrest =>
      obtain ⟨y, init⟩ := b
      simp only [noRepeatVar, Bool.and_eq_true, Bool.not_eq_true'] at hvar
      rw [leaksVar, ihs (y, init) (by simp) hvar.1.2, Bool.false_or]
      split
      · rename_i hxy
        rw [hxy]
        exact hvar.1.1
      · exact ihrest (fun b hb => ihs b (by simp [hb])) hvar.2

/-! ## Athens -/

section
variable {ops : FloatOps D}

/-- The cells in the table have been created. -/
def AthensState.Allocated (s : AthensState D) : Prop :=
  ∀ x c, s.namedValues x = some c → c < s.builder.nextCell

/-- What a successful code generation has done to `NamedValues`. -/
def AthensState.Patched (s s' : AthensState D) (leak : Name → Bool) : Prop :=
  Effect leak s.builder.nextCell s'.builder.nextCell s.namedValues s'.namedValues

theorem binaryOp_patched {op : Byte} {l r v : Operand D} {s s' : AthensState D}
    (h : binaryOp ops op l r s = .ok v s') : s.Patched s' (fun _ => false) := by
  have heq : s'.namedValues = s.namedValues ∧ s'.builder.nextCell = s.builder.nextCell := by
    rcases binaryOp_ok h with ⟨fop, -, -, rfl⟩ | ⟨-, flag, b, hb, -, rfl⟩ | ⟨-, -, -, m, rfl⟩
    · simp
    · have hb' : b = (Builder.createFCmp ops .ult s.builder l r).2 := congrArg Prod.snd hb
      simp [hb']
    · simp
  rw [AthensState.Patched, heq.1, heq.2]
  exact Effect.refl (Nat.le_refl _) _

/-- Restoring in the model is restoring in the library. -/
theorem restoreNames_eq (names : List Name) (olds : List (Option Nat)) (s s' : AthensState D)
    (h : restoreNames names olds s = .ok () s') :
    s'.builder = s.builder ∧ s'.namedValues = restore names olds s.namedValues := by
  induction names generalizing olds s with
  | nil => cases olds <;> cases h <;> exact ⟨rfl, rfl⟩
  | cons name names ih =>
    cases olds with
    | nil => cases h; exact ⟨rfl, rfl⟩
    | cons old olds => exact ih olds (s.withName name old) h

theorem codegenOr_patched {e : ExprAST D} {default : D} {s s' : AthensState D} {v : Operand D}
    (he : ∀ s s' v, codegen ops e s = .ok v s' → s.Patched s' (leaks true e))
    (h : codegenOr ops default e s = .ok v s') : s.Patched s' (leaks true e) := by
  rcases codegenOr_ok h with ⟨hnull, -, rfl⟩ | ⟨-, h⟩
  · rw [leaks_isNull hnull]
    exact Effect.refl (Nat.le_refl _) _
  · exact he s s' v h

theorem codegenArgs_patched {args : List (ExprAST D)}
    (hargs : ∀ a ∈ args, ∀ s s' v, codegen ops a s = .ok v s' → s.Patched s' (leaks true a))
    {s s' : AthensState D} {vs : List (Operand D)} (h : codegenArgs ops args s = .ok vs s') :
    s.Patched s' (leaksArgs true args) := by
  induction args generalizing s vs with
  | nil =>
    rw [codegenArgs] at h
    cases h
    exact Effect.refl (Nat.le_refl _) _
  | cons arg args ih =>
    obtain ⟨v, s₁, rest, harg, hrest, rfl⟩ := codegenArgs_cons_ok h
    have hfirst := hargs arg (by simp) s s₁ v harg
    have hothers := ih (fun a ha => hargs a (by simp [ha])) hrest
    exact hfirst.trans hothers

theorem codegenBindings_binds {varNames : List (Name × ExprAST D)}
    (hinits : ∀ b ∈ varNames, ∀ s s' v, codegen ops b.2 s = .ok v s' →
      s.Patched s' (leaks true b.2)) {s s' : AthensState D} {olds : List (Option Nat)}
    (h : codegenBindings ops varNames s = .ok olds s') :
    Binds (leakingBindings true varNames) s.builder.nextCell s.namedValues olds
      s'.builder.nextCell s'.namedValues := by
  induction varNames generalizing s olds with
  | nil =>
    rw [codegenBindings] at h
    cases h
    exact .nil
  | cons b rest ih =>
    obtain ⟨y, init⟩ := b
    obtain ⟨initVal, s₁, olds', hinit, hrest, rfl⟩ := codegenBindings_cons_ok h
    have hfirst := codegenOr_patched (hinits (y, init) (by simp)) hinit
    have hothers := ih (fun b hb => hinits b (by simp [hb])) hrest
    exact .cons hfirst (Nat.lt_succ_self _) hothers

/-- Code generation patches the table for exactly the names that leak. -/
theorem codegen_patched (e : ExprAST D) : ∀ s s' v, codegen ops e s = .ok v s' →
    s.Patched s' (leaks true e) := by
  induction e using ExprAST.induction with
  | null =>
    intro s s' v h
    exact absurd h codegen_null
  | numberExpr val =>
    intro s s' v h
    obtain ⟨-, rfl⟩ := codegen_number_ok h
    exact Effect.refl (Nat.le_refl _) _
  | variableExpr name =>
    intro s s' v h
    obtain ⟨a, -, -, rfl⟩ := codegen_variable_ok h
    exact Effect.refl (Nat.le_refl _) _
  | unaryExpr op operand ih =>
    intro s s' v h
    obtain ⟨operandV, s₁, m, hoperand, -, rfl⟩ := codegen_unary_ok h
    exact ih s s₁ operandV hoperand
  | binaryExpr op lhs rhs ihl ihr =>
    intro s s' v h
    by_cases hop : op = byte '='
    · subst hop
      obtain ⟨name, s₁, cell, -, hrhs, -, rfl⟩ := codegen_assign_ok h
      simpa [leaks, AthensState.Patched] using ihr s s₁ v hrhs
    · obtain ⟨l, s₁, r, s₂, hl, hr, h⟩ := codegen_binary_ok hop h
      have hboth := ((ihl s s₁ l hl).trans (ihr s₁ s₂ r hr)).trans (binaryOp_patched h)
      simpa [leaks, hop, AthensState.Patched] using hboth
  | callExpr callee args ih =>
    intro s s' v h
    obtain ⟨m, argsV, s₁, hargs, -, rfl⟩ := codegen_call_ok h
    have hpatched := codegenArgs_patched ih hargs
    simpa [leaks, AthensState.Patched] using hpatched
  | ifExpr cond then_ else_ ihc iht ihe =>
    intro s s' v h
    obtain ⟨condV, s₁, b, flag, thenV, s₂, elseV, s₃, hcond, hb, hthen, helse, -, rfl⟩ :=
      codegen_if_ok h
    have hb' : b.nextCell = s₁.builder.nextCell := by
      rw [show b = _ from congrArg Prod.snd hb, Builder.createFCmp_nextCell]
    have hc := ihc _ _ _ hcond
    have ht := iht _ _ _ hthen
    have he := ihe _ _ _ helse
    simp only [AthensState.Patched, AthensState.withBuilder_builder, ifHead, elseHead, ifMerge, hb',
      AthensState.withBuilder_namedValues, Builder.setInsertPoint_nextCell, leaks,
      Builder.createBr_nextCell, Builder.createPhi_nextCell, Builder.createCondBr_nextCell,
      Builder.createBlock_nextCell, Builder.createBlockIn_nextCell,
      Builder.appendBlock_nextCell] at hc ht he ⊢
    exact (hc.trans ht).trans he
  | forExpr varName start end_ step body ihs ihe ihst ihb =>
    intro s s' v h
    obtain ⟨startVal, s₁, bodyVal, s₂, stepVal, s₃, endV, s₄, flag, b₅, next, b₆, hstart, hbody,
      hstep, hend, hb₅, hb₆, -, rfl⟩ := codegen_for_ok h
    have hb₅' : b₅.nextCell = s₄.builder.nextCell := by
      rw [show b₅ = _ from congrArg Prod.snd hb₅, Builder.createFCmp_nextCell]
    have hb₆' : b₆.nextCell = s₄.builder.nextCell := by
      rw [show b₆ = _ from congrArg Prod.snd hb₆, Builder.createFBin_nextCell,
        Builder.createLoad_nextCell, hb₅']
    have hs := ihs _ _ _ hstart
    have hb := ihb _ _ _ hbody
    have hst := codegenOr_patched ihst hstep
    have he := ihe _ _ _ hend
    have hloop := (hb.trans hst).trans he
    simp only [AthensState.withName_builder, AthensState.withBuilder_builder, forHead,
      Builder.setInsertPoint_nextCell, Builder.createBr_nextCell, Builder.createBlockIn_nextCell,
      Builder.createStore_nextCell] at hloop
    have hscope := (hs.scope hloop (Nat.le_refl _)).mono (Nat.le_succ _) (Nat.le_refl _)
    have hleaks : leaks true (.forExpr varName start end_ step body) = fun x =>
        leaks true start x || (x ≠ varName &&
          (leaks true body x || leaks true step x || leaks true end_ x)) := by
      funext x
      rw [leaks, if_pos rfl]
    rw [AthensState.Patched, hleaks]
    simp only [AthensState.withName_builder, AthensState.withBuilder_builder, forEnd,
      Builder.setInsertPoint_nextCell, Builder.createCondBr_nextCell,
      Builder.createBlockIn_nextCell, Builder.createStore_nextCell, hb₆']
    exact hscope
  | varExpr varNames body ihs ihb =>
    intro s s' v h
    obtain ⟨olds, s₁, s₂, hbindings, hbody, hrestore⟩ := codegen_var_ok h
    obtain ⟨hbuilder, hnames⟩ := restoreNames_eq _ _ _ _ hrestore
    have hbinds := codegenBindings_binds ihs hbindings
    have hscope := hbinds.scope (ihb s₁ s₂ v hbody)
    rw [leakingBindings_names] at hscope
    have hleaks : leaks true (.varExpr varNames body) =
        leaksList (leakingBindings true varNames) (leaks true body) := by
      funext x
      rw [leaks, leaksVar_eq]
    rw [AthensState.Patched, hbuilder, hnames, hleaks]
    exact hscope

end

/-- In the scope of a parameter `x` with the cell 0. -/
def parameterX : AthensState Int :=
  { builder := Llvm.Builder.entry.createAlloca.2
    namedValues := fun name => if name = [byte 'x'] then some 0 else none }

theorem parameterX_allocated : parameterX.Allocated := by
  intro x c h
  simp only [parameterX] at h
  split at h
  · cases h
    decide
  · cases h

end AroundTheWorld.Athens
