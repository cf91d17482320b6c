import AroundTheWorld.Agreement.Reference

/-!
# The values that an evaluation tests

`tested` walks along an evaluation and collects the values of the conditions that it comes
to. Back ends that take the same of these for true march in step: what else a test says of
other values does not matter.
-/

namespace AroundTheWorld.Agreement

open AroundTheWorld.Base AroundTheWorld.Lex AroundTheWorld.Llvm
open AroundTheWorld.Athens (ExprAST Name)

section
variable {D W : Type}

/-- What is collected behind a result, if there is one. -/
def behind {α : Type} (r : Value D W α) (f : α → State D W → List D) : List D :=
  match r with
  | .done x st => f x st
  | .waits _ _ => []
  | .unknown => []

section
variable (ops : FloatOps D) (callees : Callees D Name W) (test : D → Bool)

mutual

/-- The conditions of the `if`s that the evaluation comes to. -/
def tested : ExprAST D → NameScope → State D W → List D
  | .null, _, _ => []
  | .numberExpr _, _, _ => []
  | .variableExpr _, _, _ => []
  | .unaryExpr _ operand, sc, st => tested operand sc st
  | .binaryExpr op lhs rhs, sc, st =>
    if op = byte '=' then tested rhs sc st
    else tested lhs sc st ++ behind (eval ops callees test lhs sc st) fun _ st =>
      tested rhs (scopeAfter lhs sc) st
  | .callExpr _ args, sc, st => testedArgs args sc st
  | .ifExpr cond then_ else_, sc, st =>
    tested cond sc st ++ behind (eval ops callees test cond sc st) fun x st =>
      x :: if test x then tested then_ (scopeAfter cond sc) st
        else tested else_ (scopeAfter then_ (scopeAfter cond sc)) st
  | .varExpr varNames body, sc, st =>
    testedBindings varNames sc st ++ behind (evalBindings ops callees test varNames sc st)
      fun _ st => tested body (scopeBindings varNames sc).2 st
  | .forExpr _ _ _ _ _, _, _ => []

def testedArgs : List (ExprAST D) → NameScope → State D W → List D
  | [], _, _ => []
  | arg :: args, sc, st =>
    tested arg sc st ++ behind (eval ops callees test arg sc st) fun _ st =>
      testedArgs args (scopeAfter arg sc) st

def testedBindings : List (Name × ExprAST D) → NameScope → State D W → List D
  | [], _, _ => []
  | (name, init) :: rest, sc, st =>
    tested init sc st ++
      behind (if init.isNull then .done ops.zero st else eval ops callees test init sc st)
        fun x st => testedBindings rest ((scopeAfter init sc).bind name)
          (st.write (scopeAfter init sc).next x)

end

/-- The conditions that a call of a function comes to. -/
def testedFunction (params : List Name) (body : ExprAST D) (args : List D) (world : W) : List D :=
  tested ops callees test body (entryScope params) (entryState args world)

end

variable {ops : FloatOps D} {callees : Callees D Name W} {test test' : D → Bool}

theorem forall_behind {α : Type} {r : Value D W α} {f : α → State D W → List D} {P : D → Prop} :
    (∀ x ∈ behind r f, P x) ↔ ∀ a st, r = .done a st → ∀ x ∈ f a st, P x := by
  cases r with
  | done a st =>
    constructor
    · rintro h a' st' heq
      cases heq
      exact h
    · intro h
      exact h a st rfl
  | waits what st => simp [behind]
  | unknown => simp [behind]

theorem bind_congr {α β : Type} {r : Value D W α} {f g : α → State D W → Value D W β}
    (h : ∀ a st, r = .done a st → f a st = g a st) : r.bind f = r.bind g := by
  cases r with
  | done a st => exact h a st rfl
  | waits what st => rfl
  | unknown => rfl

/-- The tests agree on what the evaluation of `e` tests, and so it is the same with both. -/
def InStep (ops : FloatOps D) (callees : Callees D Name W) (test test' : D → Bool)
    (e : ExprAST D) : Prop :=
  ∀ sc st, (∀ x ∈ tested ops callees test e sc st, test' x = test x) →
    eval ops callees test' e sc st = eval ops callees test e sc st

theorem evalArgs_inStep {args : List (ExprAST D)}
    (ih : ∀ a ∈ args, InStep ops callees test test' a) {sc : NameScope} {st : State D W}
    (h : ∀ x ∈ testedArgs ops callees test args sc st, test' x = test x) :
    evalArgs ops callees test' args sc st = evalArgs ops callees test args sc st := by
  induction args generalizing sc st with
  | nil => rw [evalArgs, evalArgs]
  | cons arg args ihs =>
    rw [testedArgs, List.forall_mem_append, forall_behind] at h
    rw [evalArgs, evalArgs, ih arg (List.mem_cons_self ..) sc st h.1]
    refine bind_congr fun x st' hdone => ?_
    rw [ihs (fun a ha => ih a (List.mem_cons_of_mem _ ha)) (h.2 x st' hdone)]

theorem evalBindings_inStep {varNames : List (Name × ExprAST D)}
    (ih : ∀ b ∈ varNames, InStep ops callees test test' b.2) {sc : NameScope} {st : State D W}
    (h : ∀ x ∈ testedBindings ops callees test varNames sc st, test' x = test x) :
    evalBindings ops callees test' varNames sc st =
      evalBindings ops callees test varNames sc st := by
  induction varNames generalizing sc st with
  | nil => rw [evalBindings, evalBindings]
  | cons b rest ihs =>
    obtain ⟨name, init⟩ := b
    rw [testedBindings, List.forall_mem_append, forall_behind] at h
    rw [evalBindings, evalBindings, ih _ (List.mem_cons_self ..) sc st h.1]
    refine bind_congr fun x st' hdone => ?_
    exact ihs (fun b hb => ih b (List.mem_cons_of_mem _ hb)) (h.2 x st' hdone)

theorem eval_inStep (e : ExprAST D) : InStep ops callees test test' e := by
  induction e using ExprAST.induction with
  | null =>
    intro sc st _
    rw [eval, eval]
  | numberExpr val =>
    intro sc st _
    rw [eval, eval]
  | variableExpr name =>
    intro sc st _
    rw [eval, eval]
  | forExpr varName start end_ step body _ _ _ _ =>
    intro sc st _
    rw [eval, eval]
  | unaryExpr op operand ih =>
    intro sc st h
    rw [tested] at h
    rw [eval, eval, ih sc st h]
  | binaryExpr op lhs rhs ihl ihr =>
    intro sc st h
    rw [tested] at h
    rw [eval, eval]
    by_cases hop : op = byte '='
    · rw [if_pos hop] at h
      rw [if_pos hop, if_pos hop, ihr sc st h]
    · rw [if_neg hop, List.forall_mem_append, forall_behind] at h
      rw [if_neg hop, if_neg hop, ihl sc st h.1]
      refine bind_congr fun x st' hdone => ?_
      rw [ihr _ st' (h.2 x st' hdone)]
  | callExpr callee args ih =>
    intro sc st h
    rw [tested] at h
    rw [eval, eval, evalArgs_inStep ih h]
  | ifExpr cond then_ else_ ihc iht ihe =>
    intro sc st h
    rw [tested, List.forall_mem_append, forall_behind] at h
    rw [eval, eval, ihc sc st h.1]
    refine bind_congr fun x st' hdone => ?_
    -- the condition is tested itself, and decides which branch is
    obtain ⟨htest, hbranch⟩ := List.forall_mem_cons.mp (h.2 x st' hdone)
    rw [htest]
    cases hx : test x with
    | true =>
      rw [hx] at hbranch
      exact iht _ st' hbranch
    | false =>
      rw [hx] at hbranch
      exact ihe _ st' hbranch
  | varExpr varNames body ihs ih =>
    intro sc st h
    rw [tested, List.forall_mem_append, forall_behind] at h
    rw [eval, eval, evalBindings_inStep ihs h.1]
    refine bind_congr fun x st' hdone => ?_
    exact ih _ st' (h.2 x st' hdone)

end

end AroundTheWorld.Agreement
