import AroundTheWorld.Athens.Linked
import AroundTheWorld.Counted.Eval

/-!
# What functions mean whose loops count

A parameter is a local of the body. With more calls that come back, and more tests of
loops, there are only more results.
-/

namespace AroundTheWorld.Counted

open AroundTheWorld.Base AroundTheWorld.Lex AroundTheWorld.Llvm
open AroundTheWorld.Athens (Call ExprAST FunctionAST Name)

variable {D W : Type}

/-! ## Definitions -/

section
variable (dialect : Callees D Name W → Dialect D W)

def evalFunction (N : Nat) (callees : Callees D Name W) (f : FunctionAST D) (args : List D)
    (world : W) : Option (D × W) :=
  (eval (dialect callees) N f.body ⟨f.proto.locals args, world, []⟩).map fun r => (r.1, r.2.world)

/-- A call of a definition, or of a function that is not defined. One with another number of
arguments has no meaning. -/
def callDefinition (ext : Callees D Name W) (defs : List (FunctionAST D)) (N : Nat)
    (oracle : Call D W → Option (D × W)) (call : Call D W) : Option (D × W) :=
  match defs.find? (·.proto.name = call.1) with
  | some f =>
    if call.2.1.length = f.proto.args.length then
      evalFunction dialect N (fun callee args world => oracle (callee, args, world)) f call.2.1
        call.2.2
    else none
  | none => ext call.1 call.2.1 call.2.2

end

/-! ## Dialects with more results -/

/-- A meaning that is there where another one is. -/
def Meaning.Le (m m' : Meaning D W) : Prop := ∀ st, LessDefined (m st) (m' st)

theorem Meaning.Le.refl (m : Meaning D W) : m.Le m := fun st => LessDefined.refl (m st)

/-- Unary operators and calls of `d'` have the results of `d`. -/
structure Dialect.Le (d d' : Dialect D W) : Prop where
  ops : d'.ops = d.ops
  noStep : d'.noStep = d.noStep
  first : d'.first = d.first
  next : d'.next = d.next
  unary : ∀ op x, Meaning.Le (d.unary op x) (d'.unary op x)
  call : ∀ callee args ms ms', List.Forall₂ Meaning.Le ms ms' →
    Meaning.Le (d.call callee args ms) (d'.call callee args ms')

section
variable {d d' : Dialect D W} {N N' : Nat}

theorem callFunction_mono {callees callees' : Callees D Name W}
    (hle : ∀ f args w, LessDefined (callees f args w) (callees' f args w)) (callee : Name)
    (args : List D) :
    Meaning.Le (callFunction callees callee args) (callFunction callees' callee args) :=
  fun st => (hle callee args st.world).map _

theorem evalAll_mono {ms ms' : List (Meaning D W)} (h : List.Forall₂ Meaning.Le ms ms')
    (st : State D W) : LessDefined (evalAll ms st) (evalAll ms' st) := by
  induction h generalizing st with
  | nil => exact LessDefined.refl _
  | cons hm _ ih => exact (hm st).bind fun r => (ih r.2).map _

theorem evalBinary_eq (h : d.Le d') (op : Byte) (x y : D) (st : State D W) :
    evalBinary d' op x y st = evalBinary d op x y st := by
  unfold evalBinary
  rw [h.ops]

theorem loop_mono (h : d.Le d') (hN : N ≤ N') {body body' : Meaning D W} (hbody : body.Le body')
    (varName : Name) (lb ub step : Int) (st : State D W) :
    LessDefined (loop d N varName lb ub step body st) (loop d' N' varName lb ub step body' st) := by
  unfold loop
  rw [h.first]
  refine LessDefined.map (fun r hr => ?_) _
  refine whileLoop_mono (fun p q hq => ?_) hN hr
  unfold iteration at hq ⊢
  rw [h.next, h.ops]
  exact (hbody _).map _ _ hq

/-- With more results of calls, and more tests of loops, there are only more results. -/
theorem eval_mono (h : d.Le d') (hN : N ≤ N') (e : ExprAST D) :
    Meaning.Le (eval d N e) (eval d' N' e) := by
  induction e using ExprAST.induction with
  | null =>
    rw [eval, eval]
    exact .refl _
  | numberExpr val =>
    rw [eval, eval]
    exact .refl _
  | variableExpr name =>
    rw [eval, eval]
    exact .refl _
  | unaryExpr op operand ih =>
    intro st
    rw [eval, eval]
    exact (ih st).bind fun r => h.unary op r.1 r.2
  | binaryExpr op lhs rhs ihl ihr =>
    intro st
    rw [eval, eval]
    dsimp only
    by_cases hop : op = byte '='
    · rw [if_pos hop, if_pos hop]
      exact (ihr st).bind fun r => LessDefined.refl _
    · rw [if_neg hop, if_neg hop]
      refine (ihl st).bind fun l => (ihr l.2).bind fun r => ?_
      rw [evalBinary_eq h]
      exact LessDefined.refl _
  | callExpr callee args ih =>
    rw [eval, eval]
    apply h.call
    induction args with
    | nil =>
      rw [evals, evals]
      exact .nil
    | cons arg args ihs =>
      rw [evals, evals]
      exact .cons (ih arg (List.mem_cons_self ..))
        (ihs fun a ha => ih a (List.mem_cons_of_mem _ ha))
  | ifExpr cond then_ else_ ihc iht ihe =>
    intro st
    rw [eval, eval]
    refine (ihc st).bind fun r => ?_
    rw [h.ops]
    cases d.ops.une r.1 d.ops.zero with
    | true => exact iht r.2
    | false => exact ihe r.2
  | forExpr varName start end_ step body ihStart ihEnd ihStep ihBody =>
    intro st
    rw [eval, eval, h.ops, h.noStep]
    refine (ihStart st).bind fun x => (ihEnd x.2).bind fun y => ?_
    refine LessDefined.bind ?_ fun z => (loop_mono h hN ihBody varName _ _ _ z.2).map _
    split
    · exact LessDefined.refl _
    · exact ihStep y.2
  | varExpr varNames body ihs ih =>
    have hbindings : ∀ st, LessDefined (evalBindings d N varNames st)
        (evalBindings d' N' varNames st) := by
      induction varNames with
      | nil =>
        intro st
        rw [evalBindings, evalBindings]
        exact LessDefined.refl _
      | cons b rest ihrest =>
        intro st
        rw [evalBindings, evalBindings, h.ops]
        refine LessDefined.bind ?_ fun r =>
          ihrest (fun b hb => ihs b (List.mem_cons_of_mem _ hb)) _
        split
        · exact LessDefined.refl _
        · exact ihs b (List.mem_cons_self ..) st
    intro st
    rw [eval, eval]
    exact (hbindings st).bind fun st' => (ih st').map _

end

/-- Calls of definitions have more results when what they call has. -/
theorem callDefinition_mono {dialect : Callees D Name W → Dialect D W}
    (hdialect : ∀ callees callees' : Callees D Name W,
      (∀ f args w, LessDefined (callees f args w) (callees' f args w)) →
      (dialect callees).Le (dialect callees'))
    {ext : Callees D Name W} {defs : List (FunctionAST D)} {N N' : Nat}
    {oracle oracle' : Call D W → Option (D × W)} (hN : N ≤ N')
    (hle : ∀ k, LessDefined (oracle k) (oracle' k)) (call : Call D W) :
    LessDefined (callDefinition dialect ext defs N oracle call)
      (callDefinition dialect ext defs N' oracle' call) := by
  unfold callDefinition
  cases defs.find? (·.proto.name = call.1) with
  | none => exact LessDefined.refl _
  | some f =>
    dsimp only
    split
    · exact (eval_mono (hdialect _ _ fun callee args world => hle (callee, args, world)) hN f.body
        _).map _
    · exact LessDefined.refl _

end AroundTheWorld.Counted
