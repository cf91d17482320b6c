import AroundTheWorld.Dublin.Ast

/-!
# What a Dublin expression means

The meaning of the language, without the emitter: an expression has a value at a
type. A literal has the type of the expression that it is compared or combined
with, and 32 bits if that is a literal as well. Comparison operators are signed;
`ult` and its like are unsigned.
-/

namespace AroundTheWorld.Dublin

open AroundTheWorld.Lex AroundTheWorld.Smt

/-- The types of the arguments. -/
abbrev ArgTypes := Text → Option Ty

def VerifyBlock.argTypes (block : VerifyBlock) : ArgTypes := fun name =>
  (block.args.find? fun arg => arg.name = name).map (·.type)

/-- The type that an expression has of itself; one of literals has none. -/
def ownType (Γ : ArgTypes) : Expr → Option Ty
  | .null => none
  | .integer _ => none
  | .bool _ => some .bool
  | .variable_ name => Γ name
  | .call _ _ => some .bool
  | .unary op operand => if op = text "-" then ownType Γ operand else some .bool
  | .binary op lhs rhs =>
    if op = text "+" ∨ op = text "-" ∨ op = text "*" then (ownType Γ lhs).or (ownType Γ rhs)
    else some .bool

/-- The type at which two operands are compared. -/
def commonType (lhs rhs : Option Ty) : Ty := (lhs.or rhs).getD (.bv 32)

/-- `+`, `-` and `*` modulo `2 ^ w`. -/
def arithmetic {w : Nat} (op : Text) (x y : BitVec w) : Option (BitVec w) :=
  if op = text "+" then some (x + y)
  else if op = text "-" then some (x - y)
  else if op = text "*" then some (x * y)
  else none

/-- The signed comparisons. -/
def compare {w : Nat} (op : Text) (x y : BitVec w) : Option Bool :=
  if op = text "<" then some (decide (x.toInt < y.toInt))
  else if op = text "<=" then some (decide (x.toInt ≤ y.toInt))
  else if op = text ">" then some (decide (x.toInt > y.toInt))
  else if op = text ">=" then some (decide (x.toInt ≥ y.toInt))
  else none

/-- The unsigned comparisons. -/
def compareUnsigned {w : Nat} (callee : Text) (x y : BitVec w) : Option Bool :=
  if callee = text "ult" then some (decide (x.toNat < y.toNat))
  else if callee = text "ule" then some (decide (x.toNat ≤ y.toNat))
  else if callee = text "ugt" then some (decide (x.toNat > y.toNat))
  else if callee = text "uge" then some (decide (x.toNat ≥ y.toNat))
  else none

/-- The value of an expression at each type, if it has one there. -/
abbrev Meaning := (τ : Ty) → Option τ.denote

/-- A comparison of bitvectors of a common type. -/
def compareAt (f : {w : Nat} → BitVec w → BitVec w → Option Bool) (lhs rhs : Meaning) :
    Ty → Option Bool
  | .bool => none
  | .bv w => (lhs (.bv w)).bind fun x => (rhs (.bv w)).bind fun y => f (w := w) x y

def equalAt (lhs rhs : Meaning) (τ : Ty) : Option Bool :=
  (lhs τ).bind fun x => (rhs τ).map fun y => decide (x = y)

/-- A binary operator with a truth value. -/
def evalRelation (op : Text) (lhs rhs : Meaning) (τ : Ty) : Option Bool :=
  if op = text "==" then equalAt lhs rhs τ
  else if op = text "!=" then (equalAt lhs rhs τ).map (!·)
  else compareAt (compare op) lhs rhs τ

mutual

def eval (Γ : ArgTypes) (ρ : Valuation Text) : Expr → Meaning
  | .null, _ => none
  | .integer _, .bool => none
  | .integer value, .bv w => some (BitVec.ofInt w value)
  | .bool value, .bool => some value
  | .bool _, .bv _ => none
  | .variable_ name, τ => if Γ name = some τ then some (ρ name τ) else none
  | .unary op operand, .bool =>
    if op = text "!" then (eval Γ ρ operand .bool).map fun b : Bool => !b else none
  | .unary op operand, .bv w =>
    if op = text "-" then (eval Γ ρ operand (.bv w)).map fun x : BitVec w => -x else none
  | .binary op lhs rhs, .bool =>
    evalRelation op (eval Γ ρ lhs) (eval Γ ρ rhs) (commonType (ownType Γ lhs) (ownType Γ rhs))
  | .binary op lhs rhs, .bv w =>
    (eval Γ ρ lhs (.bv w)).bind fun x => (eval Γ ρ rhs (.bv w)).bind fun y => arithmetic op x y
  | .call callee args, .bool =>
    match args.map (ownType Γ), evalArgs Γ ρ args with
    | [l, r], [lhs, rhs] => compareAt (compareUnsigned callee) lhs rhs (commonType l r)
    | _, _ => none
  | .call _ _, .bv _ => none

def evalArgs (Γ : ArgTypes) (ρ : Valuation Text) : List Expr → List Meaning
  | [] => []
  | arg :: args => eval Γ ρ arg :: evalArgs Γ ρ args

end

/-- The truth value of the assertion with this index, under a valuation of the
arguments. -/
def VerifyBlock.evalAssertion (block : VerifyBlock) (ρ : Valuation Text) (index : Nat) :
    Option Bool :=
  block.assertions[index]?.bind fun condition => eval block.argTypes ρ condition .bool

end AroundTheWorld.Dublin
