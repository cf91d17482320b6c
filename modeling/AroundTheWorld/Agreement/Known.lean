import AroundTheWorld.Agreement.Reference

/-!
# When an expression has a meaning

An expression whose names are in scope has one, as long as something is known of the cells
that it reads. These are the cells of its own scope, unless a `var` binds a name twice: the
name then keeps a cell of the `var` behind it, which may never have been written.
-/

namespace AroundTheWorld.Agreement

open AroundTheWorld.Base AroundTheWorld.Lex AroundTheWorld.Llvm
open AroundTheWorld.Athens (ExprAST Name noRepeat noRepeatArgs noRepeatVar noRepeatArgs_iff
  noRepeatVar_inits)

/-! ## Tables that are restored -/

section
variable {D : Type}

theorem restore_table {table : Name → Option Nat} {names : List Name} (sc : NameScope) (k : Name) :
    (NameScope.restore (names.map fun n => (n, table n)) sc).table k =
      if k ∈ names then table k else sc.table k := by
  induction names generalizing sc with
  | nil => rfl
  | cons name names ih =>
    rw [List.map_cons, NameScope.restore, ih]
    show (if k ∈ names then table k else if k = name then table name else sc.table k) = _
    by_cases hk : k = name
    · subst hk
      simp
    · simp [hk]

/-- What the bindings of a `var` save is what the table had before all of them. -/
theorem scopeBindings_saved {varNames : List (Name × ExprAST D)}
    (hinit : ∀ b ∈ varNames, ∀ sc, (scopeAfter b.2 sc).table = sc.table)
    (hrep : noRepeatVar varNames = true) (table : Name → Option Nat) {sc : NameScope}
    (htable : ∀ b ∈ varNames, sc.table b.1 = table b.1) :
    (scopeBindings varNames sc).1 = (varNames.map (·.1)).map (fun n => (n, table n)) ∧
    ∀ k ∉ varNames.map (·.1), (scopeBindings varNames sc).2.table k = sc.table k := by
  induction varNames generalizing sc with
  | nil => exact ⟨rfl, fun _ _ => rfl⟩
  | cons b rest ih =>
    obtain ⟨name, init⟩ := b
    simp only [noRepeatVar, Bool.and_eq_true, Bool.not_eq_true'] at hrep
    have hname : name ∉ rest.map (·.1) := by simpa using hrep.1.1
    have hsame := hinit _ (List.mem_cons_self ..) sc
    have hbound : ∀ k ≠ name, ((scopeAfter init sc).bind name).table k = sc.table k := by
      intro k hk
      exact (if_neg hk).trans (congrFun hsame k)
    have hrest : ∀ b ∈ rest, ((scopeAfter init sc).bind name).table b.1 = table b.1 := by
      intro b hb
      have hne : b.1 ≠ name := by
        rintro rfl
        exact hname (List.mem_map_of_mem hb)
      exact (hbound _ hne).trans (htable b (List.mem_cons_of_mem _ hb))
    obtain ⟨hsaved, houtside⟩ := ih (fun b hb => hinit b (List.mem_cons_of_mem _ hb)) hrep.2 hrest
    rw [scopeBindings]
    constructor
    · show _ :: _ = _ :: _
      rw [hsaved, hsame, htable _ (List.mem_cons_self ..)]
    · intro k hk
      rw [List.map_cons, List.mem_cons, not_or] at hk
      exact (houtside k hk.2).trans (hbound k hk.1)

/-- Where no `var` binds a name twice, the table is as before. -/
theorem scopeAfter_table {e : ExprAST D} (h : noRepeat e = true) (sc : NameScope) :
    (scopeAfter e sc).table = sc.table := by
  induction e using ExprAST.induction generalizing sc with
  | null => rw [scopeAfter]
  | numberExpr val => rw [scopeAfter]
  | variableExpr name => rw [scopeAfter]
  | unaryExpr op operand ih =>
    rw [noRepeat] at h
    rw [scopeAfter, ih h]
  | binaryExpr op lhs rhs ihl ihr =>
    rw [noRepeat, Bool.and_eq_true] at h
    rw [scopeAfter]
    split
    · exact ihr h.2 sc
    · rw [ihr h.2, ihl h.1]
  | callExpr callee args ih =>
    rw [noRepeat, noRepeatArgs_iff] at h
    rw [scopeAfter]
    induction args generalizing sc with
    | nil => rw [scopeArgs]
    | cons arg args ihs =>
      rw [scopeArgs, ihs fun a ha => ih a (List.mem_cons_of_mem _ ha),
        ih arg (List.mem_cons_self ..) (h arg (List.mem_cons_self ..))]
      exact fun a ha => h a (List.mem_cons_of_mem _ ha)
  | ifExpr cond then_ else_ ihc iht ihe =>
    rw [noRepeat, Bool.and_eq_true, Bool.and_eq_true] at h
    rw [scopeAfter, ihe h.2, iht h.1.2, ihc h.1.1]
  | forExpr varName start end_ step body _ _ _ _ => rw [scopeAfter]
  | varExpr varNames body ihs ih =>
    rw [noRepeat, Bool.and_eq_true] at h
    have hinits := noRepeatVar_inits h.1
    obtain ⟨hsaved, houtside⟩ := scopeBindings_saved (fun b hb => ihs b hb (hinits b hb)) h.1
      sc.table fun _ _ => rfl
    rw [scopeAfter, hsaved]
    funext k
    rw [restore_table]
    split
    · rfl
    · rename_i hk
      rw [ih h.2]
      exact houtside k hk

end

/-! ## Evaluations that have a meaning -/

section
variable {D W α β : Type}

/-- The evaluation has a meaning and keeps what is known; its result satisfies `P`. -/
def Defined (st : State D W) (e : Value D W α) (P : State D W → Prop) : Prop :=
  match e with
  | .done _ st' => st.Known st' ∧ P st'
  | .waits _ st' => st.Known st'
  | .unknown => False

theorem Defined.after {st st₁ : State D W} {e : Value D W α} {P : State D W → Prop}
    (h : Defined st₁ e P) (hknown : st.Known st₁) : Defined st e P := by
  cases e with
  | unknown => exact h
  | waits what st' => exact hknown.trans h
  | done x st' => exact ⟨hknown.trans h.1, h.2⟩

theorem Defined.bind {st : State D W} {e : Value D W α} {f : α → State D W → Value D W β}
    {P Q : State D W → Prop} (h : Defined st e P)
    (hf : ∀ x st', st.Known st' → P st' → Defined st' (f x st') Q) : Defined st (e.bind f) Q := by
  cases e with
  | unknown => exact h
  | waits what st' => exact h
  | done x st' =>
    obtain ⟨hknown, hP⟩ := h
    exact (hf x st' hknown hP).after hknown

theorem Defined.same {st : State D W} {x : α} {P : State D W → Prop} (h : P st) :
    Defined st (.done x st) P := ⟨.refl st, h⟩

/-- Enough is known of the cells: where tables are `restored`, of those in scope. -/
def Ready (restored : Bool) (sc : NameScope) (st : State D W) : Prop :=
  if restored then ∀ name c, sc.table name = some c → (st.mem c).isSome
  else ∀ c, (st.mem c).isSome

namespace Ready

variable {restored : Bool} {sc sc' : NameScope} {st st' : State D W}

theorem find (h : Ready restored sc st) {name : Name} {c : Nat} (hc : sc.table name = some c) :
    (st.mem c).isSome := by
  cases restored with
  | true => exact h name c hc
  | false => exact h c

theorem later (h : Ready restored sc st) (hknown : st.Known st')
    (htable : restored = true → sc'.table = sc.table) : Ready restored sc' st' := by
  cases restored with
  | true =>
    intro name c hc
    rw [htable rfl] at hc
    exact hknown c (h name c hc)
  | false => exact fun c => hknown c (h c)

/-- A name in a new cell that is written. -/
theorem bind (h : Ready restored sc st) (name : Name) (x : D) :
    Ready restored (sc.bind name) (st.write sc.next x) := by
  have hknown := st.known_write sc.next x
  cases restored with
  | false => exact fun c => hknown c (h c)
  | true =>
    intro k c hc
    change (if k = name then some sc.next else sc.table k) = some c at hc
    split at hc
    · cases hc
      show (if sc.next = sc.next then some x else _).isSome = true
      rw [if_pos rfl]
      rfl
    · exact hknown c (h k c hc)

/-- Parameters in new cells that have the arguments. -/
theorem bindAll (h : Ready restored sc st) {names : List Name} {xs : List D}
    (hlen : xs.length = names.length) :
    Ready restored (sc.bindAll names) (st.writeAll xs sc.next) := by
  induction names generalizing sc st xs with
  | nil =>
    rw [List.length_eq_zero_iff.mp hlen]
    exact h
  | cons name names ih =>
    cases xs with
    | nil => cases hlen
    | cons x xs => exact ih (h.bind name x) (Nat.succ.inj hlen)

end Ready

variable (ops : FloatOps D) (callees : Callees D Name W) (test : D → Bool)

theorem evalCall_defined (callee : Name) (args : List D) (st : State D W) :
    Defined st (evalCall callees callee args st) fun _ => True := by
  unfold evalCall
  cases callees callee args st.world with
  | none => exact .refl st
  | some r => exact ⟨fun _ h => h, trivial⟩

theorem evalUnary_defined (op : Byte) (x : D) (st : State D W) :
    Defined st (evalUnary ops callees op x st) fun _ => True := by
  unfold evalUnary
  split
  · exact .same trivial
  · exact evalCall_defined callees _ _ st

theorem evalBinary_defined {op : Byte} (hop : Arithmetic op) (x y : D) (st : State D W) :
    Defined st (evalBinary ops op x y st) fun _ => True := by
  unfold evalBinary
  rcases hop with rfl | rfl | rfl | rfl <;> exact .same trivial

variable {ops callees test} {restored : Bool}

/-- Wherever its names are in scope, the expression has a meaning. -/
def Definite (ops : FloatOps D) (callees : Callees D Name W) (test : D → Bool) (restored : Bool)
    (e : ExprAST D) : Prop :=
  ∀ sc (st : State D W), Resolves e sc → (restored = true → noRepeat e = true) →
    Ready restored sc st → Defined st (eval ops callees test e sc st) fun _ => True

theorem evalArgs_defined {args : List (ExprAST D)}
    (ih : ∀ a ∈ args, Definite ops callees test restored a) {sc : NameScope} {st : State D W}
    (hres : ResolvesArgs args sc) (hrep : restored = true → ∀ a ∈ args, noRepeat a = true)
    (h : Ready restored sc st) :
    Defined st (evalArgs ops callees test args sc st) fun _ => True := by
  induction args generalizing sc st with
  | nil =>
    rw [evalArgs]
    exact .same trivial
  | cons arg args ihs =>
    have hreparg := fun hr => hrep hr arg (List.mem_cons_self ..)
    rw [evalArgs]
    refine (ih arg (List.mem_cons_self ..) sc st hres.1 hreparg h).bind fun x st' hknown _ => ?_
    have hready := h.later hknown fun hr => scopeAfter_table (hreparg hr) sc
    have hrest := ihs (fun a ha => ih a (List.mem_cons_of_mem _ ha)) hres.2
      (fun hr a ha => hrep hr a (List.mem_cons_of_mem _ ha)) hready
    exact hrest.bind fun _ _ _ _ => .same trivial

/-- Behind the bindings of a `var`, enough is known for its body. -/
theorem evalBindings_defined {varNames : List (Name × ExprAST D)}
    (ih : ∀ b ∈ varNames, Definite ops callees test restored b.2) {sc : NameScope} {st : State D W}
    (hres : ResolvesBindings varNames sc) (hrep : restored = true → noRepeatVar varNames = true)
    (h : Ready restored sc st) : Defined st (evalBindings ops callees test varNames sc st)
      (Ready restored (scopeBindings varNames sc).2) := by
  induction varNames generalizing sc st with
  | nil =>
    rw [evalBindings]
    exact .same h
  | cons b rest ihs =>
    obtain ⟨name, init⟩ := b
    have hinit := fun hr => noRepeatVar_inits (hrep hr) (name, init) (List.mem_cons_self ..)
    have hrest : restored = true → noRepeatVar rest = true := by
      intro hr
      have hall := hrep hr
      rw [noRepeatVar, Bool.and_eq_true] at hall
      exact hall.2
    rw [evalBindings, scopeBindings]
    have hvalue : Defined st (if init.isNull then .done ops.zero st
        else eval ops callees test init sc st) fun _ => True := by
      split
      · exact .same trivial
      · rename_i hnull
        exact ih _ (List.mem_cons_self ..) sc st (hres.1.resolve_left hnull) hinit h
    refine hvalue.bind fun x st' hknown _ => ?_
    have hready := h.later hknown fun hr => scopeAfter_table (hinit hr) sc
    have hbound := ihs (fun b hb => ih b (List.mem_cons_of_mem _ hb)) hres.2 hrest
      (hready.bind name x)
    exact hbound.after (st'.known_write _ x)

/-- An expression whose names are in scope has a meaning. -/
theorem eval_defined (e : ExprAST D) : Definite ops callees test restored e := by
  induction e using ExprAST.induction with
  | null => exact fun _ _ hres => hres.elim
  | forExpr varName start end_ step body _ _ _ _ => exact fun _ _ hres => hres.elim
  | numberExpr val =>
    intro sc st _ _ _
    rw [eval]
    exact .same trivial
  | variableExpr name =>
    intro sc st hres _ h
    rw [Resolves] at hres
    obtain ⟨c, hc⟩ := Option.isSome_iff_exists.mp hres
    obtain ⟨x, hx⟩ := Option.isSome_iff_exists.mp (h.find hc)
    rw [eval, evalVariable, hc, Option.bind_some, hx]
    exact .same trivial
  | unaryExpr op operand ih =>
    intro sc st hres hrep h
    rw [Resolves] at hres
    rw [eval]
    exact (ih sc st hres hrep h).bind fun x st' _ _ => evalUnary_defined ops callees op x st'
  | binaryExpr op lhs rhs ihl ihr =>
    intro sc st hres hrep h
    rw [Resolves] at hres
    rw [noRepeat, Bool.and_eq_true] at hrep
    rw [eval]
    split at hres
    case isTrue hop =>
      rw [if_pos hop]
      refine (ihr sc st hres.1 (fun hr => (hrep hr).2) h).bind fun x st' _ _ => ?_
      cases lhs with
      | variableExpr name =>
        obtain ⟨c, hc⟩ := Option.isSome_iff_exists.mp hres.2
        unfold evalAssignment
        simp only [hc]
        exact ⟨st'.known_write c x, trivial⟩
      | _ => exact hres.2.elim
    case isFalse hop =>
      obtain ⟨hresl, hresr, harith⟩ := hres
      rw [if_neg hop]
      refine (ihl sc st hresl (fun hr => (hrep hr).1) h).bind fun x st' hknown _ => ?_
      have hready := h.later hknown fun hr => scopeAfter_table (hrep hr).1 sc
      refine (ihr _ st' hresr (fun hr => (hrep hr).2) hready).bind fun y st'' _ _ => ?_
      exact evalBinary_defined ops harith x y st''
  | callExpr callee args ih =>
    intro sc st hres hrep h
    rw [Resolves] at hres
    rw [noRepeat, noRepeatArgs_iff] at hrep
    rw [eval]
    exact (evalArgs_defined ih hres hrep h).bind
      fun xs st' _ _ => evalCall_defined callees callee xs st'
  | ifExpr cond then_ else_ ihc iht ihe =>
    intro sc st hres hrep h
    rw [noRepeat, Bool.and_eq_true, Bool.and_eq_true] at hrep
    obtain ⟨hresc, hrest, hrese⟩ := hres
    rw [eval]
    refine (ihc sc st hresc (fun hr => (hrep hr).1.1) h).bind fun x st' hknown _ => ?_
    have hcond := fun hr => scopeAfter_table (hrep hr).1.1 sc
    split
    · exact iht _ st' hrest (fun hr => (hrep hr).1.2) (h.later hknown hcond)
    · exact ihe _ st' hrese (fun hr => (hrep hr).2)
        (h.later hknown fun hr => (scopeAfter_table (hrep hr).1.2 _).trans (hcond hr))
  | varExpr varNames body ihs ih =>
    intro sc st hres hrep h
    rw [noRepeat, Bool.and_eq_true] at hrep
    rw [eval]
    refine (evalBindings_defined ihs hres.1 (fun hr => (hrep hr).1) h).bind fun _ st' _ hready => ?_
    exact ih _ st' hres.2 (fun hr => (hrep hr).2) hready

/-- Called with as many arguments as it has parameters, a function has a meaning if no `var`
of its body binds a name twice. -/
theorem evalFunction_defined {params : List Name} {body : ExprAST D} {args : List D} {world : W}
    (hres : Resolves body (entryScope params)) (hrep : noRepeat body = true)
    (hlen : args.length = params.length) :
    evalFunction ops callees test params body args world ≠ .unknown := by
  have hstart : Ready true (⟨fun _ => none, 0⟩ : NameScope)
      (⟨fun _ => none, world, []⟩ : State D W) := fun _ _ hc => by cases hc
  have hready : Ready true (entryScope params) (entryState args world) := hstart.bindAll hlen
  have hdefined : Defined _ (evalFunction ops callees test params body args world) fun _ => True :=
    eval_defined body _ _ hres (fun _ => hrep) hready
  intro hunknown
  rw [hunknown] at hdefined
  exact hdefined

end

end AroundTheWorld.Agreement
