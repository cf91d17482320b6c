import Mathlib.Algebra.Group.Nat.Defs
import AroundTheWorld.Base.Gen
import AroundTheWorld.Dublin.Ast

/-!
# The SMT emitter

`SmtEmitter` over its members. A function returns a value, or `nullopt` with a
message in `error`, or follows a null pointer. What it writes to `out_` is kept
as lines; `moduleText` is the text of the module around them.
-/

namespace AroundTheWorld.Dublin

open AroundTheWorld.Base AroundTheWorld.Lex AroundTheWorld.Smt

structure SmtValue where
  name : Text
  type : Ty
  deriving DecidableEq, Repr

/-- The members of an `SmtEmitter`, and the `EmitError` that its functions fill. -/
structure SmtEmitter where
  symbols : Text → Option SmtValue := fun _ => none
  out : Program Text := []
  nextId : Nat := 0
  error : Text := []

/-- A null pointer that is followed, or an assertion that the block does not have. -/
inductive Crash where
  | nullDereference
  | outOfRange
  deriving DecidableEq, Repr

abbrev Emit (α : Type) := Gen SmtEmitter Crash α

def fail {α : Type} (message : Text) : Emit α := fun s => .null { s with error := message }

def lookupSymbol (name : Text) : Emit (Option SmtValue) := fun s => .ok (s.symbols name) s

def bindSymbol (name : Text) (value : SmtValue) : Emit Unit := fun s =>
  .ok () { s with symbols := fun k => if k = name then some value else s.symbols k }

def isNameByte (c : Byte) : Bool :=
  (byte 'a' ≤ c && c ≤ byte 'z') || (byte 'A' ≤ c && c ≤ byte 'Z') ||
    (byte '0' ≤ c && c ≤ byte '9') || c == byte '_'

/-- The hint without the characters that a name cannot have. -/
def cleanName (hint : Text) : Text :=
  let clean := hint.filter isNameByte
  if clean = [] then text "v" else clean

/-- `nextId_` is an `unsigned`. -/
def nextName (hint : Text) : Emit Text := fun s =>
  .ok (text "%" ++ cleanName hint ++ text (toString s.nextId))
    { s with nextId := (s.nextId + 1) % 2 ^ 32 }

def writeLine (line : Line Text) : Emit Unit := fun s => .ok () { s with out := s.out ++ [line] }

/-- A line that introduces a value under a new name. -/
def emitDef (hint : Text) (value : Def Text) : Emit SmtValue := do
  let name ← nextName hint
  writeLine (.define name value)
  pure ⟨name, value.type⟩

/-- `sameType(lhs.type, rhs.type) && isBV(lhs.type)`, with the width. -/
def sameBV (lhs rhs : SmtValue) : Option Nat :=
  match lhs.type, rhs.type with
  | .bv w, .bv w' => if w = w' then some w else none
  | _, _ => none

/-! ## Expressions -/

def emitInteger (value : Int) (expected : Option Ty) : Emit SmtValue :=
  match expected.getD (.bv 32) with
  | .bv w => emitDef (text "c") (.bvConstant value w)
  | .bool => fail (text "integer literal used where boolean was expected")

def emitVariable (name : Text) : Emit SmtValue := do
  let value ← lookupSymbol name
  match value with
  | none => fail (text "unknown variable: " ++ name)
  | some value => pure value

/-- The operand is the emission of a child, which still needs its expected type. -/
def emitUnary (op : Text) (operand : Option Ty → Emit SmtValue) (expected : Option Ty) :
    Emit SmtValue :=
  if op = text "!" then do
    let x ← operand (some .bool)
    if x.type = .bool then emitDef (text "not") (.not x.name)
    else fail (text "'!' expects a boolean operand")
  else if op = text "-" then do
    let x ← operand expected
    match x.type with
    | .bv w => emitDef (text "neg") (.bvNeg x.name w)
    | .bool => fail (text "unary '-' expects a bitvector operand")
  else fail (text "unsupported unary operator: " ++ op)

/-- Both operands, the right one with the type of the left one expected. -/
def emitOperands (lhs rhs : Option Ty → Emit SmtValue) (expected : Option Ty) :
    Emit (SmtValue × SmtValue) := do
  let l ← lhs expected
  let r ← rhs (some l.type)
  pure (l, r)

def emitArithmetic (hint : String) (op : BinOp) (l r : SmtValue) : Emit SmtValue :=
  match sameBV l r with
  | some w => emitDef (text hint) (.bvBin op l.name r.name w)
  | none => fail (text "arithmetic operands must have the same bitvector type")

def emitEquality (negated : Bool) (l r : SmtValue) : Emit SmtValue :=
  if l.type = r.type then do
    let eq ← emitDef (text "eq") (.eq l.name r.name l.type)
    if negated then emitDef (text "neq") (.not eq.name) else pure eq
  else fail (text "equality operands must have the same type")

def emitComparison (hint message : Text) (pred : Pred) (l r : SmtValue) : Emit SmtValue :=
  match sameBV l r with
  | some w => emitDef hint (.bvCmp pred l.name r.name w)
  | none => fail message

def emitBinary (op : Text) (lhs rhs : Option Ty → Emit SmtValue) (expected : Option Ty) :
    Emit SmtValue :=
  if op = text "+" ∨ op = text "-" ∨ op = text "*" then do
    let (l, r) ← emitOperands lhs rhs expected
    if op = text "+" then emitArithmetic "add" .add l r
    else if op = text "-" then emitArithmetic "sub" .sub l r
    else emitArithmetic "mul" .mul l r
  else if op = text "==" ∨ op = text "!=" then do
    let (l, r) ← emitOperands lhs rhs expected
    emitEquality (op != text "==") l r
  else if op = text "<" ∨ op = text "<=" ∨ op = text ">" ∨ op = text ">=" then do
    let (l, r) ← emitOperands lhs rhs expected
    emitComparison (text "cmp") (text "comparison operands must have the same bitvector type")
      (if op = text "<" then .slt else if op = text "<=" then .sle
        else if op = text ">" then .sgt else .sge) l r
  else fail (text "unsupported binary operator: " ++ op)

/-- The table of `emitCall`. -/
def preds : List (String × Pred) := [("ult", .ult), ("ule", .ule), ("ugt", .ugt), ("uge", .uge)]

def findPred (callee : Text) : Option Pred := (preds.find? fun p => text p.1 = callee).map (·.2)

def emitCall (callee : Text) (args : List (Option Ty → Emit SmtValue)) : Emit SmtValue :=
  match findPred callee with
  | none => fail (text "unsupported call: " ++ callee)
  | some pred =>
    match args with
    | [lhs, rhs] => do
      let (l, r) ← emitOperands lhs rhs none
      emitComparison (text "ucmp")
        (callee ++ text " operands must have the same bitvector type") pred l r
    | _ => fail (callee ++ text " expects two arguments")

mutual

def emitExpr : Expr → Option Ty → Emit SmtValue
  | .null, _ => Gen.abort .nullDereference
  | .integer value, expected => emitInteger value expected
  | .bool value, _ => emitDef (text "b") (.constant value)
  | .variable_ name, _ => emitVariable name
  | .unary op operand, expected => emitUnary op (emitExpr operand) expected
  | .binary op lhs rhs, expected => emitBinary op (emitExpr lhs) (emitExpr rhs) expected
  | .call callee args, _ => emitCall callee (emitArgs args)

def emitArgs : List Expr → List (Option Ty → Emit SmtValue)
  | [] => []
  | arg :: args => emitExpr arg :: emitArgs args

end

/-! ## The module -/

/-- The loop over the arguments. -/
def declareArgs : List Argument → Emit Unit
  | [] => pure ()
  | arg :: args => do
    let declared ← lookupSymbol arg.name
    match declared with
    | some _ => fail (text "duplicate argument: " ++ arg.name)
    | none => do
      let value ← emitDef arg.name (.declareFun arg.name arg.type)
      bindSymbol arg.name value
      declareArgs args

def emitCondition (condition : Expr) : Emit SmtValue := do
  let value ← emitExpr condition none
  if value.type = .bool then pure value
  else fail (text "assertion is not a boolean expression")

/-- The loop over the earlier assertions. -/
def emitAssumptions : List Expr → Emit Unit
  | [] => pure ()
  | condition :: rest => do
    let assumption ← emitCondition condition
    writeLine (.assert assumption.name)
    emitAssumptions rest

def emit (block : VerifyBlock) (assertionIndex : Nat) : Emit Unit := do
  declareArgs block.args
  emitAssumptions (block.assertions.take assertionIndex)
  match block.assertions[assertionIndex]? with
  | none => Gen.abort .outOfRange
  | some condition => do
    let assertion ← emitCondition condition
    let bad ← emitDef (text "bad") (.not assertion.name)
    writeLine (.assert bad.name)

/-- A new emitter for one assertion. -/
def runEmitter (block : VerifyBlock) (assertionIndex : Nat) : Outcome SmtEmitter Crash Unit :=
  emit block assertionIndex {}

/-- The lines of the query, when the emitter has succeeded. -/
def emitted (block : VerifyBlock) (assertionIndex : Nat) : Option (Program Text) :=
  (runEmitter block assertionIndex).state?.map (·.out)

/-! ## The text of the module -/

def typeName : Ty → Text
  | .bool => text "!smt.bool"
  | .bv width => text "!smt.bv<" ++ text (toString width) ++ text ">"

def BinOp.mnemonic : BinOp → Text
  | .add => text "add"
  | .sub => text "sub"
  | .mul => text "mul"

def Pred.mnemonic : Pred → Text
  | .slt => text "slt"
  | .sle => text "sle"
  | .sgt => text "sgt"
  | .sge => text "sge"
  | .ult => text "ult"
  | .ule => text "ule"
  | .ugt => text "ugt"
  | .uge => text "uge"

def operandsText (lhs rhs : Text) (type : Ty) : Text :=
  lhs ++ text ", " ++ rhs ++ text " : " ++ typeName type

def defText : Def Text → Text
  | .declareFun symbol type =>
    text "smt.declare_fun \"" ++ symbol ++ text "\" : " ++ typeName type
  | .bvConstant value width =>
    text "smt.bv.constant #smt.bv<" ++ text (toString value) ++ text "> : " ++ typeName (.bv width)
  | .constant value => text "smt.constant " ++ text (if value then "true" else "false")
  | .not operand => text "smt.not " ++ operand
  | .bvNeg operand width => text "smt.bv.neg " ++ operand ++ text " : " ++ typeName (.bv width)
  | .bvBin op lhs rhs width =>
    text "smt.bv." ++ BinOp.mnemonic op ++ text " " ++ operandsText lhs rhs (.bv width)
  | .eq lhs rhs type => text "smt.eq " ++ operandsText lhs rhs type
  | .bvCmp pred lhs rhs width =>
    text "smt.bv.cmp " ++ Pred.mnemonic pred ++ text " " ++ operandsText lhs rhs (.bv width)

def lineText : Line Text → Text
  | .define name value => text "    " ++ name ++ text " = " ++ defText value ++ text "\n"
  | .assert operand => text "    smt.assert " ++ operand ++ text "\n"

def moduleText (lines : Program Text) : Text :=
  text "module \x7b\n  smt.solver () : () -> () \x7b\n    smt.set_logic \"QF_BV\"\n" ++
    lines.flatMap lineText ++
    text "    smt.check sat \x7b\n    \x7d unknown \x7b\n    \x7d unsat \x7b\n    \x7d\n" ++
    text "    smt.yield\n  \x7d\n\x7d\n"

end AroundTheWorld.Dublin
