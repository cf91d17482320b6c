import AroundTheWorld.Lex.Token
import AroundTheWorld.Smt.Program

/-!
# The Dublin AST

An `ExprPtr` is an `Expr` here, with `null` for the null pointer. Operators are
the lexemes of their tokens. A `Type` of kind `Bool` always has width 1.
-/

namespace AroundTheWorld.Dublin

open AroundTheWorld.Lex AroundTheWorld.Smt

inductive Expr where
  | null
  | integer (value : Int)
  | bool (value : Bool)
  | variable_ (name : Text)
  | call (callee : Text) (args : List Expr)
  | unary (op : Text) (operand : Expr)
  | binary (op : Text) (lhs rhs : Expr)
  deriving Inhabited

structure Argument where
  name : Text
  type : Ty
  deriving DecidableEq, Repr

/-- The assertions are the conditions. -/
structure VerifyBlock where
  name : Text
  args : List Argument
  assertions : List Expr

/-- Induction on expressions, with the arguments of a call as list members. -/
theorem Expr.induction {P : Expr → Prop} (null : P .null) (integer : ∀ value, P (.integer value))
    (bool : ∀ value, P (.bool value)) (variable_ : ∀ name, P (.variable_ name))
    (call : ∀ callee args, (∀ a ∈ args, P a) → P (.call callee args))
    (unary : ∀ op operand, P operand → P (.unary op operand))
    (binary : ∀ op lhs rhs, P lhs → P rhs → P (.binary op lhs rhs)) : ∀ e, P e := by
  intro e
  refine @Expr.rec P (fun args => ∀ a ∈ args, P a) null integer bool variable_ call unary binary
    ?_ ?_ e
  · intro a h
    cases h
  · intro head tail hhead htail a ha
    rcases List.mem_cons.mp ha with rfl | ha
    · exact hhead
    · exact htail a ha

end AroundTheWorld.Dublin
