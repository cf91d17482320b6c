import AroundTheWorld.Lex.Token

/-!
# The Athens AST

A `unique_ptr<ExprAST>` is an `ExprAST` here, with `null` for the null pointer:
the step of a `for` and the initialiser of a `var` binding may be null, every
other child is dereferenced by code generation.
-/

namespace AroundTheWorld.Athens

open AroundTheWorld.Lex

/-- `std::string` as the name of a variable or a function. -/
abbrev Name := Text

inductive ExprAST (D : Type) where
  | null
  | numberExpr (val : D)
  | variableExpr (name : Name)
  | unaryExpr (op : Byte) (operand : ExprAST D)
  | binaryExpr (op : Byte) (lhs rhs : ExprAST D)
  | callExpr (callee : Name) (args : List (ExprAST D))
  | ifExpr (cond then_ else_ : ExprAST D)
  | forExpr (varName : Name) (start end_ step body : ExprAST D)
  | varExpr (varNames : List (Name × ExprAST D)) (body : ExprAST D)
  deriving Inhabited

structure PrototypeAST where
  name : Name
  args : List Name
  isOperator : Bool := false
  precedence : Nat := 0
  deriving DecidableEq, Repr, Inhabited

structure FunctionAST (D : Type) where
  proto : PrototypeAST
  body : ExprAST D

namespace PrototypeAST

def isBinaryOp (p : PrototypeAST) : Bool := p.isOperator && p.args.length == 2

/-- The last character of the name; the source asserts that there is one. -/
def getOperatorName (p : PrototypeAST) : Byte := p.name.getLastD 0

def getBinaryPrecedence (p : PrototypeAST) : Nat := p.precedence

end PrototypeAST

namespace ExprAST

variable {D : Type}

def isNull : ExprAST D → Bool
  | .null => true
  | _ => false

theorem eq_null_of_isNull {e : ExprAST D} (h : e.isNull = true) : e = .null := by
  cases e <;> first | rfl | cases h

/-- Induction on expressions, with the children in lists as list members. -/
theorem induction {P : ExprAST D → Prop} (null : P .null)
    (numberExpr : ∀ val, P (.numberExpr val)) (variableExpr : ∀ name, P (.variableExpr name))
    (unaryExpr : ∀ op operand, P operand → P (.unaryExpr op operand))
    (binaryExpr : ∀ op lhs rhs, P lhs → P rhs → P (.binaryExpr op lhs rhs))
    (callExpr : ∀ callee args, (∀ a ∈ args, P a) → P (.callExpr callee args))
    (ifExpr : ∀ cond then_ else_, P cond → P then_ → P else_ → P (.ifExpr cond then_ else_))
    (forExpr : ∀ varName start end_ step body, P start → P end_ → P step → P body →
      P (.forExpr varName start end_ step body))
    (varExpr : ∀ varNames body, (∀ b ∈ varNames, P b.2) → P body → P (.varExpr varNames body)) :
    ∀ e, P e := by
  intro e
  refine @ExprAST.rec D P (fun args => ∀ a ∈ args, P a) (fun bs => ∀ b ∈ bs, P b.2)
    (fun b => P b.2) null numberExpr variableExpr unaryExpr binaryExpr callExpr ifExpr
      forExpr varExpr
    ?_ ?_ ?_ ?_ ?_ e
  · intro a h
    cases h
  · intro head tail hhead htail a ha
    rcases List.mem_cons.mp ha with rfl | ha
    · exact hhead
    · exact htail a ha
  · intro b h
    cases h
  · intro head tail hhead htail b hb
    rcases List.mem_cons.mp hb with rfl | hb
    · exact hhead
    · exact htail b hb
  · intro name init hinit
    exact hinit

end ExprAST

end AroundTheWorld.Athens
