import AroundTheWorld.Athens.Scope
import AroundTheWorld.Berlin.MlirGen

/-!
# What Berlin leaves of the symbol table

`Patches x leak` is what a generator does to `namedValues_` when it succeeds. It
is closed under sequencing; only the loop and the `var` list need the states in
between. Berlin restores in the same order as Athens, so the same names leak, but
its loop variable is in scope in the body alone.
-/

namespace AroundTheWorld.Berlin

open AroundTheWorld.Base AroundTheWorld.Base.Scopes AroundTheWorld.Lex AroundTheWorld.Mlir
open AroundTheWorld.Athens (ExprAST Name leaks leaksArgs leaksVar leaksVar_eq leakingBindings
  leakingBindings_names leaks_isNull codegen AthensState parameterX parameterX_allocated)
open AroundTheWorld.Llvm (FloatOps wholeOps)

variable {D α β : Type}

/-- What a successful generation has done to `namedValues_`. -/
def BerlinState.Patched (s s' : BerlinState D) (leak : Name → Bool) : Prop :=
  Effect leak s.builder.nextValue s'.builder.nextValue s.namedValues s'.namedValues

def Patches (x : BerlinGen D α) (leak : Name → Bool) : Prop :=
  ∀ s s' a, x s = .ok a s' → s.Patched s' leak

/-- Generators that leave the table alone. -/
abbrev Quiet (x : BerlinGen D α) : Prop := Patches x (fun _ => false)

theorem Patches.congr {x : BerlinGen D α} {leak leak' : Name → Bool} (h : Patches x leak)
    (heq : ∀ n, leak' n = leak n) : Patches x leak' := by
  rw [show leak' = leak from funext heq]
  exact h

theorem Patches.bind {x : BerlinGen D α} {f : α → BerlinGen D β} {leak leak' : Name → Bool}
    (hx : Patches x leak) (hf : ∀ a, Patches (f a) leak') :
    Patches (x >>= f) (fun n => leak n || leak' n) := by
  intro s s'' b h
  obtain ⟨a, s', hxa, hfa⟩ := Gen.bind_ok h
  exact (hx s s' a hxa).trans (hf a s' s'' b hfa)

theorem Patches.after {x : BerlinGen D α} {f : α → BerlinGen D β} {leak : Name → Bool}
    (hx : Quiet x) (hf : ∀ a, Patches (f a) leak) : Patches (x >>= f) leak :=
  (hx.bind hf).congr (fun _ => rfl)

theorem Patches.before {x : BerlinGen D α} {f : α → BerlinGen D β} {leak : Name → Bool}
    (hx : Patches x leak) (hf : ∀ a, Quiet (f a)) : Patches (x >>= f) leak :=
  (hx.bind hf).congr (fun n => (Bool.or_false (leak n)).symm)

/-- A value that is tested later: without it nothing succeeds. -/
theorem Patches.attempt_bind {x : BerlinGen D α} {f : Option α → BerlinGen D β}
    {leak leak' : Name → Bool} (hx : Patches x leak) (hnone : ∀ s s' b, f none s ≠ .ok b s')
    (hf : ∀ a, Patches (f (some a)) leak') :
    Patches (Gen.attempt x >>= f) (fun n => leak n || leak' n) := by
  intro s s'' b h
  obtain ⟨a, s', hxa, hfa⟩ := Gen.bind_ok h
  cases a with
  | none => exact absurd hfa (hnone s' s'' b)
  | some a => exact (hx s s' a (Gen.attempt_some hxa)).trans (hf a s' s'' b hfa)

/-! ## Generators that leave the table alone -/

theorem quiet_pure (a : α) : Quiet (pure a : BerlinGen D α) := by
  intro s s' b h
  cases h
  exact Effect.refl (Nat.le_refl _) _

theorem quiet_complain (line : Text) : Quiet (complain line : BerlinGen D α) := by
  intro s s' b h
  cases h

theorem quiet_createOp (op : Op D Name) : Quiet (createOp op) := by
  intro s s' b h
  unfold createOp at h
  split at h
  · cases h
  · rename_i builder hinsert
    cases h
    have hvalue := (OpBuilder.insert_some hinsert).1
    exact Effect.refl (Nat.le_of_eq hvalue.symm) _

theorem quiet_newValue : Quiet (newValue : BerlinGen D Nat) := by
  intro s s' b h
  cases h
  exact Effect.refl (Nat.le_succ _) _

theorem quiet_newBlock : Quiet (newBlock : BerlinGen D Nat) := by
  intro s s' b h
  cases h
  exact Effect.refl (Nat.le_refl _) _

theorem quiet_getInsertPoint : Quiet (getInsertPoint : BerlinGen D InsertPoint) := by
  intro s s' b h
  cases h
  exact Effect.refl (Nat.le_refl _) _

theorem quiet_setInsertPoint (p : InsertPoint) : Quiet (setInsertPoint p : BerlinGen D Unit) := by
  intro s s' b h
  cases h
  exact Effect.refl (Nat.le_refl _) _

theorem quiet_lookupName (name : Name) : Quiet (lookupName name : BerlinGen D (Option Nat)) := by
  intro s s' b h
  cases h
  exact Effect.refl (Nat.le_refl _) _

theorem quiet_create (op : Nat → Op D Name) : Quiet (create op) := by
  apply Patches.after quiet_newValue
  intro dst
  apply Patches.after (quiet_createOp _)
  intro _
  exact quiet_pure dst

section
variable {ops : FloatOps D}

theorem quiet_binaryOp (op : Byte) (lhs rhs : Nat) :
    Quiet (binaryOp op lhs rhs : BerlinGen D Nat) := by
  unfold binaryOp
  split
  · exact quiet_create _
  split
  · exact quiet_create _
  split
  · exact quiet_create _
  split
  · apply Patches.after (quiet_create _)
    intro cmp
    apply Patches.after (quiet_create _)
    intro ext
    exact quiet_create _
  · exact quiet_complain _

theorem quiet_unaryOp (op : Byte) (operand : Nat) : Quiet (unaryOp ops op operand) := by
  unfold unaryOp
  split
  · apply Patches.after (quiet_create _)
    intro zeroVal
    exact quiet_create _
  · exact quiet_create _

theorem genAssignment_patches {lhs : ExprAST D} {rhs : BerlinGen D Nat} {leak : Name → Bool}
    (hrhs : Patches rhs leak) : Patches (genAssignment lhs rhs) leak := by
  unfold genAssignment
  split
  · intro s s' a h
    cases h
  · apply Patches.before hrhs
    intro val
    apply Patches.after (quiet_lookupName _)
    intro it
    cases it with
    | none => exact quiet_complain _
    | some memref =>
      apply Patches.after (quiet_createOp _)
      intro _
      exact quiet_pure val
  · intro s s' a h
    cases h

/-! ## Scopes -/

theorem bindName_bind (name : Name) (value : Option Nat) (f : Unit → BerlinGen D β)
    (s : BerlinState D) : (bindName name value >>= f) s =
      f () { s with namedValues := set s.namedValues name value } := rfl

theorem lookupName_bind (name : Name) (f : Option Nat → BerlinGen D β) (s : BerlinState D) :
    (lookupName name >>= f) s = f (s.namedValues name) s := rfl

/-- A new alloca is a value of its own. -/
theorem create_alloca_ok {s s' : BerlinState D} {a : Nat}
    (h : (create Op.alloca : BerlinGen D Nat) s = .ok a s') :
    a = s.builder.nextValue ∧ s'.builder.nextValue = s.builder.nextValue + 1 ∧
      s'.namedValues = s.namedValues := by
  obtain ⟨dst, s₁, hvalue, h⟩ := Gen.bind_ok h
  cases hvalue
  obtain ⟨u, s₂, hop, h⟩ := Gen.bind_ok h
  cases h
  unfold createOp at hop
  split at hop
  · cases hop
  · rename_i builder hinsert
    cases hop
    exact ⟨rfl, (OpBuilder.insert_some hinsert).1, rfl⟩

/-- Binding a name to a fresh alloca around a generator. -/
theorem scope_patches {name : Name} {body : BerlinGen D Nat} {store : Nat → Op D Name}
    {finish : Option Nat → BerlinGen D β} {leak : Name → Bool} (hbody : Patches body leak)
    (hnone : ∀ s s' b, finish none s ≠ .ok b s') (hfinish : ∀ v, Quiet (finish (some v))) :
    Patches (do
      let alloca ← create .alloca
      createOp (store alloca)
      let saved ← lookupName name
      bindName name (some alloca)
      let bodyVal ← Gen.attempt body
      bindName name saved
      finish bodyVal) (fun n => n ≠ name && leak n) := by
  intro s s' b h
  obtain ⟨alloca, s₁, halloca, h⟩ := Gen.bind_ok h
  obtain ⟨rfl, hvalue, hnames⟩ := create_alloca_ok halloca
  obtain ⟨u, s₂, hstore, h⟩ := Gen.bind_ok h
  have hquiet := quiet_createOp _ _ _ _ hstore
  rw [lookupName_bind, bindName_bind] at h
  obtain ⟨bodyVal, s₃, hattempt, h⟩ := Gen.bind_ok h
  rw [bindName_bind] at h
  cases bodyVal with
  | none => exact absurd h (hnone _ _ _)
  | some v =>
    have hinner := hbody _ _ _ (Gen.attempt_some hattempt)
    have hle := hquiet.le
    have houter : Effect (fun _ => false) s.builder.nextValue s₂.builder.nextValue s.namedValues
        s₂.namedValues := by
      refine ⟨by omega, ?_, by simp⟩
      intro x _
      rw [hquiet.kept x rfl, hnames]
    have hscope := houter.scope hinner (Nat.le_refl _)
    have hrest := hfinish v _ _ _ h
    have hall := hscope.trans hrest
    simp only [Bool.false_or, Bool.or_false] at hall
    exact hall

theorem genLoop_patches {varName : Name} {startF64 endF64 stepF64 : Nat} {body : BerlinGen D Nat}
    {leak : Name → Bool} (hbody : Patches body leak) :
    Patches (genLoop ops varName startF64 endF64 stepF64 body)
      (fun n => n ≠ varName && leak n) := by
  unfold genLoop
  apply Patches.after (quiet_create _)
  intro startI64
  apply Patches.after (quiet_create _)
  intro endI64
  apply Patches.after (quiet_create _)
  intro stepI64
  apply Patches.after (quiet_create _)
  intro lb
  apply Patches.after (quiet_create _)
  intro ub
  apply Patches.after (quiet_create _)
  intro step
  apply Patches.after quiet_getInsertPoint
  intro after
  apply Patches.after quiet_newBlock
  intro bodyBlock
  apply Patches.after quiet_newValue
  intro iv
  apply Patches.after (quiet_createOp _)
  intro _
  apply Patches.after (quiet_setInsertPoint _)
  intro _
  apply Patches.after (quiet_create _)
  intro ivI64
  apply Patches.after (quiet_create _)
  intro ivF64
  apply scope_patches hbody
  · intro s s' b h
    cases h
  · intro v
    apply Patches.after (quiet_setInsertPoint _)
    intro _
    exact quiet_create _

theorem genOr_patches {e : ExprAST D} {default : BerlinGen D Nat} (hdefault : Quiet default)
    (he : Patches (gen ops e) (leaks false e)) :
    Patches (if e.isNull then default else gen ops e) (leaks false e) := by
  split
  · rename_i hnull
    rw [leaks_isNull hnull]
    exact hdefault
  · exact he

theorem genArgs_patches {args : List (ExprAST D)}
    (hargs : ∀ a ∈ args, Patches (gen ops a) (leaks false a)) :
    Patches (genArgs ops args) (leaksArgs false args) := by
  induction args with
  | nil =>
    rw [genArgs]
    exact quiet_pure _
  | cons arg args ih =>
    rw [genArgs]
    apply Patches.bind (hargs arg (by simp))
    intro argVal
    apply Patches.before (ih fun a ha => hargs a (by simp [ha]))
    intro argVals
    exact quiet_pure _

/-- The bindings of a list; what is saved is saved under the names of the list. -/
theorem genBindings_binds {varNames : List (Name × ExprAST D)}
    (hinits : ∀ b ∈ varNames, Patches (gen ops b.2) (leaks false b.2)) {s s' : BerlinState D}
    {oldBindings : List (Name × Option Nat)} (h : genBindings ops varNames s = .ok oldBindings s') :
    oldBindings.map (·.1) = varNames.map (·.1) ∧
      Binds (leakingBindings false varNames) s.builder.nextValue s.namedValues
        (oldBindings.map (·.2)) s'.builder.nextValue s'.namedValues := by
  induction varNames generalizing s oldBindings with
  | nil =>
    rw [genBindings] at h
    cases h
    exact ⟨rfl, .nil⟩
  | cons b rest ih =>
    obtain ⟨y, init⟩ := b
    rw [genBindings] at h
    obtain ⟨initVal, s₁, hinit, h⟩ := Gen.bind_ok h
    obtain ⟨alloca, s₂, halloca, h⟩ := Gen.bind_ok h
    obtain ⟨u, s₃, hstore, h⟩ := Gen.bind_ok h
    rw [lookupName_bind, bindName_bind] at h
    obtain ⟨olds, s₄, hrest, h⟩ := Gen.bind_ok h
    cases h
    have hfirst := genOr_patches (quiet_create _) (hinits (y, init) (by simp)) _ _ _ hinit
    obtain ⟨rfl, hvalue, hnames⟩ := create_alloca_ok halloca
    have hquiet := quiet_createOp _ _ _ _ hstore
    have hsame : s₃.namedValues = s₁.namedValues := by
      funext x
      rw [hquiet.kept x rfl, hnames]
    obtain ⟨hnames', hbinds⟩ := ih (fun b hb => hinits b (by simp [hb])) hrest
    have hlt : s₁.builder.nextValue < s₃.builder.nextValue := by
      have := hquiet.le
      omega
    constructor
    · simp [hnames']
    · rw [hsame] at hbinds ⊢
      exact .cons hfirst hlt hbinds

theorem restoreNames_eq (oldBindings : List (Name × Option Nat)) (s s' : BerlinState D) {u : Unit}
    (h : restoreNames oldBindings s = .ok u s') : s'.builder = s.builder ∧
      s'.namedValues = restore (oldBindings.map (·.1)) (oldBindings.map (·.2)) s.namedValues := by
  induction oldBindings generalizing s with
  | nil =>
    cases h
    exact ⟨rfl, rfl⟩
  | cons b oldBindings ih => exact ih { s with namedValues := set s.namedValues b.1 b.2 } h

/-- Berlin patches the table for exactly the names that leak. -/
theorem gen_patches (e : ExprAST D) : Patches (gen ops e) (leaks false e) := by
  induction e using ExprAST.induction with
  | null =>
    intro s s' a h
    rw [gen] at h
    cases h
  | numberExpr val =>
    rw [gen]
    exact quiet_create _
  | variableExpr name =>
    rw [gen]
    apply Patches.after (quiet_lookupName _)
    intro it
    cases it with
    | none => exact quiet_complain _
    | some memref => exact quiet_create _
  | unaryExpr op operand ih =>
    rw [gen]
    apply Patches.before ih
    intro operand
    exact quiet_unaryOp _ _
  | binaryExpr op lhs rhs ihl ihr =>
    rw [gen]
    by_cases hop : op = byte '='
    · rw [if_pos hop]
      apply (genAssignment_patches ihr).congr
      intro x
      simp [leaks, hop]
    · rw [if_neg hop]
      have hboth : ∀ x, leaks false (.binaryExpr op lhs rhs) x =
          (leaks false lhs x || (leaks false rhs x || false)) := by
        intro x
        simp [leaks, hop]
      apply Patches.congr _ hboth
      apply Patches.attempt_bind ihl
      · intro s s' b h
        obtain ⟨r, s₁, -, h⟩ := Gen.bind_ok h
        cases h
      · intro l
        apply Patches.attempt_bind ihr
        · intro s s' b h
          cases h
        · intro r
          exact quiet_binaryOp op l r
  | callExpr callee args ih =>
    rw [gen]
    apply Patches.congr ((genArgs_patches ih).before fun _ => quiet_create _)
    intro x
    rw [leaks]
  | ifExpr cond then_ else_ ihc iht ihe =>
    rw [gen]
    have hif : ∀ x, leaks false (.ifExpr cond then_ else_) x =
        (leaks false cond x || (leaks false then_ x || leaks false else_ x)) := by
      intro x
      rw [leaks, Bool.or_assoc]
    apply Patches.congr _ hif
    apply Patches.bind ihc
    intro cond
    apply Patches.after (quiet_create _)
    intro zeroVal
    apply Patches.after (quiet_create _)
    intro i1
    apply Patches.after quiet_getInsertPoint
    intro after
    apply Patches.after quiet_newBlock
    intro thenBlock
    apply Patches.after quiet_newBlock
    intro elseBlock
    apply Patches.after (quiet_create _)
    intro result
    apply Patches.after (quiet_setInsertPoint _)
    intro _
    apply Patches.bind iht
    intro thenVal
    apply Patches.after (quiet_createOp _)
    intro _
    apply Patches.after (quiet_setInsertPoint _)
    intro _
    apply Patches.before ihe
    intro elseVal
    apply Patches.after (quiet_createOp _)
    intro _
    apply Patches.after (quiet_setInsertPoint _)
    intro _
    exact quiet_pure result
  | forExpr varName start end_ step body ihs ihe ihst ihb =>
    rw [gen]
    have hfor : ∀ x, leaks false (.forExpr varName start end_ step body) x =
        (leaks false start x || (leaks false end_ x || (leaks false step x ||
          (x ≠ varName && leaks false body x)))) := by
      intro x
      simp [leaks, Bool.or_assoc]
    apply Patches.congr _ hfor
    apply Patches.attempt_bind ihs
    · intro s s' b h
      obtain ⟨endF64, s₁, -, h⟩ := Gen.bind_ok h
      cases h
    · intro startF64
      apply Patches.attempt_bind ihe
      · intro s s' b h
        cases h
      · intro endF64
        apply Patches.bind (genOr_patches (quiet_create _) ihst)
        intro stepF64
        exact genLoop_patches ihb
  | varExpr varNames body ihs ihb =>
    intro s s' v h
    rw [gen] at h
    obtain ⟨oldBindings, s₁, hbindings, h⟩ := Gen.bind_ok h
    obtain ⟨bodyVal, s₂, hattempt, h⟩ := Gen.bind_ok h
    obtain ⟨u, s₃, hrestore, h⟩ := Gen.bind_ok h
    cases bodyVal with
    | none => cases h
    | some v =>
      cases h
      obtain ⟨hnames, hbinds⟩ := genBindings_binds ihs hbindings
      have hscope := hbinds.scope (ihb s₁ s₂ _ (Gen.attempt_some hattempt))
      obtain ⟨hbuilder, hrestored⟩ := restoreNames_eq _ _ _ hrestore
      have hleaks : leaks false (.varExpr varNames body) =
          leaksList (leakingBindings false varNames) (leaks false body) := by
        funext x
        rw [leaks, leaksVar_eq]
      rw [leakingBindings_names] at hscope
      rw [BerlinState.Patched, hbuilder, hrestored, hnames, hleaks]
      exact hscope

end

/-! ## Both lowerings -/

def BerlinState.Allocated (s : BerlinState D) : Prop :=
  ∀ x c, s.namedValues x = some c → c < s.builder.nextValue

/-- Athens and Berlin restore every name exactly when none leaks. -/
theorem scope_restored_iff_no_leak (ops : FloatOps D) (e : ExprAST D) :
    (∀ (s s' : AthensState D) v, s.Allocated → codegen ops e s = .ok v s' →
      (s'.namedValues = s.namedValues ↔ ∀ x, leaks true e x = false)) ∧
    (∀ (s s' : BerlinState D) v, s.Allocated → gen ops e s = .ok v s' →
      (s'.namedValues = s.namedValues ↔ ∀ x, leaks false e x = false)) := by
  constructor
  · intro s s' v hs h
    have hpatched := Athens.codegen_patched e s s' v h
    exact hpatched.eq_iff hs
  · intro s s' v hs h
    have hpatched := gen_patches e s s' v h
    exact hpatched.eq_iff hs

/-- In the scope of a parameter `x` with the memref 0. -/
def berlinX : BerlinState Int :=
  { builder := { insertPoint := .atEnd 0, nextBlock := 1, nextValue := 1 }
    namedValues := fun name => if name = [byte 'x'] then some 0 else none }

theorem berlinX_allocated : berlinX.Allocated := by
  intro x c h
  simp only [berlinX] at h
  split at h
  · cases h
    decide
  · cases h

/-- `var x = 1 in x` restores the parameter. -/
theorem scope_restored_after_var :
    (∃ v s', codegen wholeOps (.varExpr [([byte 'x'], .numberExpr 1)] (.variableExpr [byte 'x']))
      parameterX = .ok v s' ∧ s'.namedValues = parameterX.namedValues) ∧
    (∃ v s', gen wholeOps (.varExpr [([byte 'x'], .numberExpr 1)] (.variableExpr [byte 'x']))
      berlinX = .ok v s' ∧ s'.namedValues = berlinX.namedValues) := by
  have hleaks : ∀ b x, leaks b (.varExpr [([byte 'x'], .numberExpr (1 : Int))]
      (.variableExpr [byte 'x'])) x = false := by
    intro b x
    simp [leaks, leaksVar]
  have hiff := scope_restored_iff_no_leak wholeOps
    (.varExpr [([byte 'x'], .numberExpr 1)] (.variableExpr [byte 'x']))
  constructor
  · exact ⟨_, _, rfl, (hiff.1 _ _ _ parameterX_allocated rfl).mpr (hleaks true)⟩
  · exact ⟨_, _, rfl, (hiff.2 _ _ _ berlinX_allocated rfl).mpr (hleaks false)⟩

/-- After `var x = 1, x = 2 in x` the parameter `x` has the first cell of the list. -/
theorem scope_not_restored_after_repeated_name :
    parameterX.Allocated ∧ parameterX.namedValues [byte 'x'] = some 0 ∧
    berlinX.Allocated ∧ berlinX.namedValues [byte 'x'] = some 0 ∧
    (∃ v s', codegen wholeOps (.varExpr [([byte 'x'], .numberExpr 1), ([byte 'x'], .numberExpr 2)]
      (.variableExpr [byte 'x'])) parameterX = .ok v s' ∧
        s'.namedValues [byte 'x'] = some 1) ∧
    (∃ v s', gen wholeOps (.varExpr [([byte 'x'], .numberExpr 1), ([byte 'x'], .numberExpr 2)]
      (.variableExpr [byte 'x'])) berlinX = .ok v s' ∧
        s'.namedValues [byte 'x'] = some 2) := by
  refine ⟨parameterX_allocated, by decide, berlinX_allocated, by decide, ?_, ?_⟩
  · exact Outcome.ok_of_state (f := fun s : AthensState Int => s.namedValues [byte 'x'])
      (by decide +kernel)
  · exact Outcome.ok_of_state (f := fun s : BerlinState Int => s.namedValues [byte 'x'])
      (by decide +kernel)

end AroundTheWorld.Berlin
