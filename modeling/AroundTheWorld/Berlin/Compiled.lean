import AroundTheWorld.Berlin.Target

/-!
# Berlin's code does what expressions mean

The code of every expression, loops and all, run from the insertion point where its
generation started. One lemma for each construct; the induction is over the expression, for
all scopes and states of the generator at once.
-/

namespace AroundTheWorld.Berlin

open AroundTheWorld.Base AroundTheWorld.Lex AroundTheWorld.Mlir AroundTheWorld.Counted
open AroundTheWorld.Athens (ExprAST Name noRepeat noRepeatVar noRepeatArgs_iff)
open AroundTheWorld.Llvm (IntOps FloatOps Callees)

variable {D W : Type}

/-- Loops of Berlin test their end in front of every iteration; negation is no call. -/
def dialect (ops : IntOps D) (callees : Callees D Name W) : Dialect D W where
  ops := ops
  noStep := ops.unit
  first lb ub := decide (lb < ub)
  next i step := i + step
  unary op x st :=
    if op = byte '-' then some (ops.sub ops.zero x, st)
    else callFunction callees (text "unary" ++ [op]) [x] st
  call callee _ meanings st :=
    (evalAll meanings st).bind fun r => callFunction callees callee r.1 r.2

section
variable {ops : IntOps D} {callees : Callees D Name W} {N : Nat} {t t' t₁ t₂ : BerlinState D}
  {scope : List (Name × Nat)}

/-- What is generated for the expression does what it means. -/
abbrev Preserved (ops : IntOps D) (callees : Callees D Name W) (N : Nat) (e : ExprAST D) : Prop :=
  (target ops callees).Compiles N (eval (dialect ops callees) N) (gen ops.toFloatOps)
    (fun v a => a.env.floats v) e

/-! ## Operators -/

/-- The `switch` of `genBinary`, on two values. -/
theorem computes_binaryOp {op : Byte} {lhs rhs v : Nat}
    (hconv : ∀ b : Bool, ops.sitofp (if b then 1 else 0) = ops.uitofp b)
    (h : binaryOp op lhs rhs t = .ok v t₁) (ht : Ready ops callees t scope) :
    Computes ops callees N t t₁ scope scope
      (fun a => evalBinary (dialect ops callees) op (a.env.floats lhs) (a.env.floats rhs))
      (·.env.floats v) := by
  unfold binaryOp at h
  unfold evalBinary
  split at h
  case isTrue hadd =>
    refine (computes_float h ht fun _ => rfl).congr fun a st => ?_
    rw [if_pos hadd]
    rfl
  rename_i hadd
  split at h
  case isTrue hsub =>
    refine (computes_float h ht fun _ => rfl).congr fun a st => ?_
    rw [if_neg hadd, if_pos hsub]
    rfl
  rename_i hsub
  split at h
  case isTrue hmul =>
    refine (computes_float h ht fun _ => rfl).congr fun a st => ?_
    rw [if_neg hadd, if_neg hsub, if_pos hmul]
    rfl
  rename_i hmul
  split at h
  case isFalse => cases h
  rename_i hlt
  obtain ⟨cmp, t₂, hcmp, h⟩ := Gen.bind_ok h
  obtain ⟨ext, t₃, hext, h⟩ := Gen.bind_ok h
  have h₂ := computes_cmpf (N := N) hcmp ht
  have h₃ := computes_int (N := N) hext h₂.ready fun _ => rfl
  have h₄ := computes_float (N := N) h h₃.ready fun _ => rfl
  have hflag := h₂.bind h₃ (k := fun _ b st => some (if b then 1 else 0, st)) fun _ _ _ _ => rfl
  have hall := hflag.bind h₄ (k := fun _ n st => some (ops.sitofp n, st)) fun _ _ _ _ => rfl
  refine hall.congr fun a st => ?_
  rw [if_neg hadd, if_neg hsub, if_neg hmul, if_pos hlt]
  show some (ops.uitofp _, st) = some (ops.sitofp _, st)
  rw [hconv]
  rfl

/-- `genUnary` behind the operand. -/
theorem computes_unaryOp {op : Byte} {operand v : Nat} (hoperand : InValues operand t.builder)
    (h : unaryOp ops.toFloatOps op operand t = .ok v t₁) (ht : Ready ops callees t scope) :
    Computes ops callees N t t₁ scope scope
      (fun a => (dialect ops callees).unary op (a.env.floats operand)) (·.env.floats v) := by
  unfold unaryOp at h
  split at h
  case isTrue hop =>
    obtain ⟨zeroVal, t₂, hzero, h⟩ := Gen.bind_ok h
    have h₂ := computes_zero (N := N) hzero ht
    have h₃ := computes_float (N := N) h h₂.ready fun _ => rfl
    have hall := h₂.bind h₃ (k := fun a x st => some (ops.sub x (a.env.floats operand), st))
      fun a a₁ hkept st => by
        rw [← hkept.values.floats operand hoperand]
        rfl
    exact hall.congr fun a st => if_pos hop
  case isFalse hop =>
    refine (computes_call h ht).congr fun a st => ?_
    exact if_neg hop

theorem preserved_unary {op : Byte} {operand : ExprAST D} (ih : Preserved ops callees N operand) :
    Preserved ops callees N (.unaryExpr op operand) := by
  intro t v t' scope h hrep ht
  rw [gen] at h
  obtain ⟨x, t₁, hx, h⟩ := Gen.bind_ok h
  rw [noRepeat] at hrep
  have h₁ := ih t x t₁ scope hx hrep ht
  obtain ⟨-, hin⟩ := gen_extends ops.toFloatOps operand t x t₁ ht.wf hx
  have h₂ := computes_unaryOp (N := N) hin h h₁.ready
  refine (h₁.bind h₂ (k := fun _ => (dialect ops callees).unary op) fun _ _ _ _ => rfl).congr
    fun a st => ?_
  rw [eval]

theorem preserved_variable (name : Name) : Preserved ops callees N (.variableExpr name) := by
  intro t v t' scope h _ ht
  rw [gen] at h
  obtain ⟨it, t₁, hit, h⟩ := Gen.bind_ok h
  cases hit
  cases hfound : t.namedValues name with
  | none =>
    rw [hfound] at h
    cases h
  | some memref =>
    rw [hfound] at h
    refine (computes_load hfound h ht).congr fun a st => ?_
    rw [eval]

theorem preserved_assignment {lhs rhs : ExprAST D} (ih : Preserved ops callees N rhs) :
    Preserved ops callees N (.binaryExpr (byte '=') lhs rhs) := by
  intro t v t' scope h hrep ht
  rw [gen, if_pos rfl] at h
  rw [noRepeat, Bool.and_eq_true] at hrep
  cases lhs with
  | variableExpr name =>
    obtain ⟨x, t₁, hx, h⟩ := Gen.bind_ok h
    obtain ⟨it, t₂, hit, h⟩ := Gen.bind_ok h
    cases hit
    cases hfound : t₁.namedValues name with
    | none =>
      rw [hfound] at h
      cases h
    | some memref =>
      rw [hfound] at h
      obtain ⟨_, t₃, hstore, h⟩ := Gen.bind_ok h
      cases h
      have h₁ := ih t v t₁ scope hx hrep.2 ht
      obtain ⟨-, hin⟩ := gen_extends ops.toFloatOps rhs t v t₁ ht.wf hx
      have h₂ := computes_store (N := N) hfound hstore hin h₁.ready
      refine (h₁.bind h₂ (k := fun _ x st => (st.write name x).map fun st => (x, st))
        fun _ _ _ _ => rfl).congr fun a st => ?_
      rw [eval]
      exact if_pos rfl
  | _ => cases h

theorem preserved_binary (hconv : ∀ b : Bool, ops.sitofp (if b then 1 else 0) = ops.uitofp b)
    {op : Byte} {lhs rhs : ExprAST D} (ihl : Preserved ops callees N lhs)
    (ihr : Preserved ops callees N rhs) : Preserved ops callees N (.binaryExpr op lhs rhs) := by
  by_cases hop : op = byte '='
  · subst hop
    exact preserved_assignment ihr
  intro t v t' scope h hrep ht
  rw [gen, if_neg hop] at h
  rw [noRepeat, Bool.and_eq_true] at hrep
  obtain ⟨l, t₁, hl, h⟩ := Gen.bind_ok h
  obtain ⟨r, t₂, hr, h⟩ := Gen.bind_ok h
  cases l with
  | none => cases h
  | some x =>
    cases r with
    | none => cases h
    | some y =>
      have hx := Gen.attempt_some hl
      have h₁ := ihl t x t₁ scope hx hrep.1 ht
      have h₂ := ihr t₁ y t₂ scope (Gen.attempt_some hr) hrep.2 h₁.ready
      obtain ⟨-, hin⟩ := gen_extends ops.toFloatOps lhs t x t₁ ht.wf hx
      have h₃ := computes_binaryOp (N := N) hconv h h₂.ready
      -- the left value has survived the code of the right side
      have hrest := h₂.bind h₃
        (k := fun a y st => evalBinary (dialect ops callees) op (a.env.floats x) y st)
        fun a a₁ hkept st => by
          rw [← hkept.values.floats x hin]
      refine (h₁.bind hrest (k := fun _ x st => (eval (dialect ops callees) N rhs st).bind fun r =>
        evalBinary (dialect ops callees) op x r.1 r.2) fun _ _ _ _ => rfl).congr fun a st => ?_
      rw [eval]
      exact if_neg hop

/-! ## Lists of expressions -/

theorem computes_args {args : List (ExprAST D)} (ih : ∀ a ∈ args, Preserved ops callees N a)
    (hrep : ∀ a ∈ args, noRepeat a = true) {vals : List Nat}
    (h : genArgs ops.toFloatOps args t = .ok vals t₁) (ht : Ready ops callees t scope) :
    Computes ops callees N t t₁ scope scope
      (fun _ => evalAll (evals (dialect ops callees) N args)) (fun a => vals.map a.env.floats) := by
  induction args generalizing t vals with
  | nil =>
    rw [genArgs] at h
    cases h
    refine (Target.Computes.refl ht []).congr fun a st => ?_
    rw [evals, evalAll]
  | cons arg args ihs =>
    rw [genArgs] at h
    obtain ⟨x, t₂, hx, h⟩ := Gen.bind_ok h
    obtain ⟨xs, t₃, hxs, h⟩ := Gen.bind_ok h
    cases h
    have h₂ := ih arg (List.mem_cons_self ..) t x t₂ scope hx (hrep arg (List.mem_cons_self ..)) ht
    have h₃ := ihs (fun a ha => ih a (List.mem_cons_of_mem _ ha))
      (fun a ha => hrep a (List.mem_cons_of_mem _ ha)) hxs h₂.ready
    obtain ⟨-, hin⟩ := gen_extends ops.toFloatOps arg t x t₂ ht.wf hx
    have hin₃ : x < t₁.builder.nextValue := Nat.lt_of_lt_of_le hin h₃.grown.2.grown.values
    have hrest : Computes ops callees N t₂ t₁ scope scope
        (fun a st => (evalAll (evals (dialect ops callees) N args) st).map
          fun r => (a.env.floats x :: r.1, r.2)) (fun a => (x :: xs).map a.env.floats) := by
      apply h₃.reading (f := fun a ys => a.env.floats x :: ys)
      · exact fun _ _ => rfl
      · intro a a₁ hkept
        rw [List.map_cons, hkept.values.floats x hin]
      · intro a a' hkept
        rw [List.map_cons, List.map_cons, hkept.values.floats x hin₃]
        exact congrArg (a.env.floats x :: ·) (h₃.stable a a' hkept)
    refine (h₂.bind hrest (k := fun _ x st => (evalAll (evals (dialect ops callees) N args) st).map
      fun r => (x :: r.1, r.2)) fun _ _ _ _ => rfl).congr fun a st => ?_
    rw [evals, evalAll]

theorem preserved_call {callee : Name} {args : List (ExprAST D)}
    (ih : ∀ a ∈ args, Preserved ops callees N a) :
    Preserved ops callees N (.callExpr callee args) := by
  intro t v t' scope h hrep ht
  rw [gen] at h
  obtain ⟨xs, t₁, hxs, h⟩ := Gen.bind_ok h
  rw [noRepeat, noRepeatArgs_iff] at hrep
  have h₁ := computes_args ih hrep hxs ht
  have h₂ := computes_call (N := N) h h₁.ready
  refine (h₁.bind h₂ (k := fun _ => callFunction callees callee) fun _ _ _ _ => rfl).congr
    fun a st => ?_
  rw [eval]
  rfl

/-! ## Bindings -/

/-- The initialiser of a binding. -/
theorem computes_init {init : ExprAST D} (ih : Preserved ops callees N init)
    (hrep : noRepeat init = true) {v : Nat}
    (h : (if init.isNull then defaultF64Zero ops.toFloatOps else gen ops.toFloatOps init) t =
      .ok v t₁) (ht : Ready ops callees t scope) : Computes ops callees N t t₁ scope scope
      (fun _ st => if init.isNull then some (ops.zero, st) else
        eval (dialect ops callees) N init st)
      (·.env.floats v) := by
  split at h
  case isTrue hnull => exact (computes_zero h ht).congr fun a st => if_pos hnull
  case isFalse hnull => exact (ih t v t₁ scope h hrep ht).congr fun a st => if_neg hnull

/-- A new cell, a store to it, and the name in the cell. -/
theorem computes_bound {name : Name} {x k : Nat} (hk : create .alloca t = .ok k t₁)
    (hstore : createOp (.store x k) t₁ = .ok () t₂) (hname : bindName name (some k) t₂ = .ok () t')
    (ht : Ready ops callees t scope) :
    Computes ops callees N t t' scope ((name, k) :: scope)
      (fun a st => some ((), st.push name (a.env.floats x))) (fun _ => ()) := by
  cases hname
  have hcreate := create_spans ht.wf hk
  have hwf₁ := hcreate.grown.wf
  have hpush := createOp_spans hwf₁ hstore
  obtain ⟨hnew, hnames, hnext⟩ := create_names ht.wf hk
  have hfresh : ∀ b ∈ scope, b.2 ≠ k := by
    intro b hb
    have hlt : b.2 < t.builder.nextValue := ht.has b hb
    omega
  have ht₂ : Ready ops callees t₂ scope := (ht.create hk).createOp hstore
  constructor
  · exact ⟨ht.wf, hcreate.trans hpush⟩
  · have hvalues := hpush.grown.values
    have hhas : k < t₂.builder.nextValue := by omega
    exact ht₂.push rfl (fun _ => rfl) hhas hfresh
  · exact fun _ _ _ => rfl
  · intro blocks hcode a st hat hst
    have hcode₁ : Within blocks t.builder t₁.builder :=
      (target ops callees).within_first ⟨ht.wf, hcreate⟩ ⟨hwf₁, hpush⟩ hcode
    have hcode₂ : Within blocks t₁.builder t₂.builder :=
      (target ops callees).within_rest ⟨ht.wf, hcreate⟩ ⟨hwf₁, hpush⟩ hcode
    obtain ⟨rest, htodo, hat₁⟩ := At.created ht.wf hk hcode₁ hat
    have hstep : a.step ops callees blocks = some ⟨a.env, rest, a.frames⟩ :=
      Activation.step_of_run htodo rfl
    obtain ⟨rest', htodo', hat₂⟩ := At.pushed hwf₁ hstore hcode₂ (hat₁ a.env a.frames)
    let after : Activation D Name W := ⟨a.env.setCell k (a.env.floats x), rest', a.frames⟩
    have hstep' : Activation.step ops callees blocks ⟨a.env, rest, a.frames⟩ = some after :=
      Activation.step_of_run htodo' rfl
    have hvalues : Env.Below t.builder.nextValue a.env after.env :=
      ⟨fun _ _ => rfl, fun _ _ => rfl, fun _ _ => rfl⟩
    have hst' : (target ops callees).Agrees ((name, k) :: scope) (st.push name (a.env.floats x))
        after :=
      hst.push hfresh rfl rfl rfl
    exact Simulates.after ((Reaches.one hstep).trans (Reaches.one hstep'))
      (Simulates.pure ⟨hat₂ _ _, hst', rfl, hvalues, rfl⟩)

/-- The bindings of a `var`: `inner` is what they add to the scope. -/
theorem computes_bindings {varNames : List (Name × ExprAST D)}
    (ih : ∀ b ∈ varNames, Preserved ops callees N b.2) (hrep : noRepeatVar varNames = true)
    {olds : List (Name × Option Nat)} (h : genBindings ops.toFloatOps varNames t = .ok olds t₁)
    (ht : Ready ops callees t scope) :
    olds.map Prod.fst = varNames.map Prod.fst ∧ ∃ inner : List (Name × Nat),
      inner.length = varNames.length ∧ Undoes olds inner scope ∧
      Computes ops callees N t t₁ scope (inner ++ scope)
        (fun _ st => (evalBindings (dialect ops callees) N varNames st).map fun st => ((), st))
        (fun _ => ()) := by
  induction varNames generalizing t scope olds with
  | nil =>
    rw [genBindings] at h
    cases h
    refine ⟨rfl, [], rfl, .nil, (Target.Computes.refl ht ()).congr fun a st => ?_⟩
    rw [evalBindings]
    rfl
  | cons b rest ihs =>
    obtain ⟨name, init⟩ := b
    rw [genBindings] at h
    obtain ⟨x, t₂, hx, h⟩ := Gen.bind_ok h
    obtain ⟨k, t₃, hk, h⟩ := Gen.bind_ok h
    obtain ⟨_, t₄, hstore, h⟩ := Gen.bind_ok h
    obtain ⟨it, t₅, hit, h⟩ := Gen.bind_ok h
    cases hit
    obtain ⟨_, t₅, hname, h⟩ := Gen.bind_ok h
    obtain ⟨olds', t₆, hrest, h⟩ := Gen.bind_ok h
    cases h
    rw [noRepeatVar, Bool.and_eq_true, Bool.and_eq_true] at hrep
    obtain ⟨⟨hnew, hrepInit⟩, hrepRest⟩ := hrep
    have h₁ := computes_init (ih _ (List.mem_cons_self ..)) hrepInit hx ht
    have h₂ := computes_bound (N := N) hk hstore hname h₁.ready
    obtain ⟨hmap, inner, hlength, hundoes, h₃⟩ :=
      ihs (fun b hb => ih b (List.mem_cons_of_mem _ hb)) hrepRest hrest h₂.ready
    refine ⟨by simp [hmap], inner ++ [(name, k)], by simp [hlength], ?_, ?_⟩
    · apply hundoes.cons
      · rw [hmap]
        simpa using hnew
      · exact (Ready.createOp (Ready.create h₁.ready hk) hstore).names name
    · rw [List.append_assoc, List.singleton_append]
      refine ((h₁.bind h₂ (k := fun _ x st => some ((), st.push name x)) fun _ _ _ _ => rfl).bind h₃
        (k := fun _ _ st => (evalBindings (dialect ops callees) N rest st).map fun st => ((), st))
          fun _ _ _ _ => rfl).congr fun a st => ?_
      rw [evalBindings, Option.bind_assoc, Option.map_bind]
      cases init.isNull <;> rfl

theorem preserved_var {varNames : List (Name × ExprAST D)} {body : ExprAST D}
    (ihs : ∀ b ∈ varNames, Preserved ops callees N b.2) (ih : Preserved ops callees N body) :
    Preserved ops callees N (.varExpr varNames body) := by
  intro t v t' scope h hrep ht
  rw [gen] at h
  rw [noRepeat, Bool.and_eq_true] at hrep
  obtain ⟨olds, t₁, hbindings, h⟩ := Gen.bind_ok h
  obtain ⟨bodyVal, t₂, hbody, h⟩ := Gen.bind_ok h
  obtain ⟨_, t₃, hrestore, h⟩ := Gen.bind_ok h
  cases bodyVal with
  | none => cases h
  | some w =>
    cases h
    obtain ⟨-, inner, hlength, hundoes, h₁⟩ := computes_bindings ihs hrep.1 hbindings ht
    have h₂ := ih t₁ v t₂ _ (Gen.attempt_some hbody) hrep.2 h₁.ready
    have hall := h₁.bind h₂ (k := fun _ _ st => eval (dialect ops callees) N body st)
      fun _ _ _ _ => rfl
    obtain rfl := restoreNames_run hrestore
    have hpop : Ready ops callees
        { t₂ with namedValues := Agreement.restoreTable olds t₂.namedValues }
        scope := h₂.ready.pop rfl (hundoes t₂.namedValues h₂.ready.names)
    refine (hall.popped hpop rfl).congr fun a st => ?_
    rw [eval, hlength]
    simp [Option.map_eq_bind, Option.bind_assoc]

end

end AroundTheWorld.Berlin
