import AroundTheWorld.Athens.Codegen
import AroundTheWorld.Lex.Lexer

/-!
# The Athens driver

`ParseStream` and its handlers over the globals of the process, and the REPL,
which feeds it one line after another whatever it returns. What the JIT does with
the modules that it is handed is a parameter.
-/

namespace AroundTheWorld.Athens

open AroundTheWorld.Base AroundTheWorld.Lex AroundTheWorld.Llvm AroundTheWorld.Parse

variable {D : Type}

/-- The globals of the process, and the functions that the JIT has been handed,
the last one first. -/
structure Session (D : Type) where
  globals : AthensState D := {}
  handedOver : List (FunctionIR D) := []

/-- Why the process ends. -/
inductive Halt where
  | aborted (why : Abort)
  | exitOnErr
  deriving DecidableEq, Repr

abbrev SessionGen (D α : Type) := Gen (Session D) Halt α

/-- A call of a `codegen` method whose result is tested. -/
def generate {α : Type} (x : AthensGen D α) : SessionGen D (Option α) := fun s =>
  match x s.globals with
  | .ok a globals => .ok (some a) { s with globals }
  | .null globals => .ok none { s with globals }
  | .abort why => .abort (.aborted why)

/-- A new module and a new builder. -/
def initializeModule : SessionGen D Unit := fun s =>
  .ok () { s with globals := { s.globals with theModule := fun _ => none, builder := .entry } }

def setBinopPrecedence (table : BinopTable) : SessionGen D Unit := fun s =>
  .ok () { s with globals := { s.globals with binopPrecedence := table } }

/-- `InstallStandardBinaryOperators`. -/
def standardBinaryOperators : BinopTable :=
  BinopTable.set (BinopTable.set (BinopTable.set (BinopTable.set (BinopTable.set (fun _ => none)
    (byte '=') (some 2)) (byte '<') (some 10)) (byte '+') (some 20)) (byte '-') (some 20))
    (byte '*') (some 40)

/-- What `main` sets up before it loads the runtime. -/
def Session.start : Session D := { globals := { binopPrecedence := standardBinaryOperators } }

section
variable (ops : FloatOps D) (jit : List (FunctionIR D) → Bool)

/-- `ExitOnErr(TheJIT->addModule(...))`, and for an expression the lookup and the
call of the function as well: `jit` says whether the process goes on. -/
def addModule (fnIR : FunctionIR D) : SessionGen D Unit := fun s =>
  if jit (fnIR :: s.handedOver) then .ok () { s with handedOver := fnIR :: s.handedOver }
  else .abort .exitOnErr

def handleDefinition (fnAST : FunctionAST D) : SessionGen D Bool := do
  let fnIR ← generate (fnAST.codegen ops)
  match fnIR with
  | none => pure false
  | some fnIR => do
    addModule jit fnIR
    initializeModule
    pure true

def handleExtern (protoAST : PrototypeAST) : SessionGen D Bool := do
  let fnIR ← generate protoAST.codegen
  match fnIR with
  | none => pure false
  | some _ => do
    let _ ← generate (registerProto protoAST)
    pure true

def handleTopLevelExpression (expr : ExprAST D) : SessionGen D Bool :=
  match expr with
  | .null => pure false
  | expr => handleDefinition ops jit ⟨⟨text "__anon_expr", [], false, 0⟩, expr⟩

/-- What `ParseStream` does with an item. -/
def handleItem (item : AthensParsedItem D) : SessionGen D Bool :=
  match item.function, item.prototype with
  | some fnAST, _ => handleDefinition ops jit fnAST
  | none, some protoAST => handleExtern protoAST
  | none, none => pure false

/-! ## Streams and the REPL -/

/-- The tokens that are left of a file or a line. -/
structure Stream (D : Type) where
  tokens : List (Token D)
  eofLoc : SourceLoc := {}

/-- The context of the next call of the parser: the loop only goes on while
nothing has been reported. -/
def Stream.context (input : Stream D) (s : Session D) : ParseState D BinopTable :=
  { tokens := input.tokens, eofLoc := input.eofLoc, globals := s.globals.binopPrecedence }

/-- How a turn of the loop of `ParseStream` ends. -/
inductive Turn (D : Type) where
  | next (input : Stream D)
  | return_ (ok : Bool)

/-- `(void)tokens.match(Semicolon)`. -/
def skipSemicolon (σ : ParseState D BinopTable) : Stream D :=
  if (Parser.current σ).kind = .semicolon then ⟨σ.tokens.tail, σ.eofLoc⟩ else ⟨σ.tokens, σ.eofLoc⟩

/-- Behind a parse: nothing is handled once something has been reported. -/
def finishTurn (handle : SessionGen D Bool) (σ : ParseState D BinopTable) :
    SessionGen D (Turn D) := do
  setBinopPrecedence σ.globals
  if σ.diag ≠ [] then pure (.return_ false)
  else do
    let handled ← handle
    if handled then pure (.next (skipSemicolon σ)) else pure (.return_ false)

variable (ofInt : Int → D) (fuel : Nat)

/-- One turn of the `while` loop, `none` when `fuel` does not bound the depth of
the parser's calls. -/
def parseStreamTurn (input : Stream D) (s : Session D) :
    Option (Outcome (Session D) Halt (Turn D)) :=
  match (Parser.current (input.context s)).kind with
  | .eof => some (.ok (.return_ true) s)
  | .semicolon => some (.ok (.next ⟨input.tokens.tail, input.eofLoc⟩) s)
  | .kwFuncDef | .kwExtern =>
    (athensParseItem ofInt fuel (input.context s)).map fun (item, σ) =>
      finishTurn (handleItem ops jit item) σ s
  | _ =>
    ((athensEngine ofInt fuel).parseExpression 0 (input.context s)).map fun (expr, σ) =>
      finishTurn (handleTopLevelExpression ops jit expr) σ s

/-- The process: at a prompt, inside a stream, or no more. -/
inductive Repl (D : Type) where
  | prompt (s : Session D)
  | reading (input : Stream D) (s : Session D)
  | halted (why : Halt)

/-- `LoadRepl`, in a run whose nesting `fuel` bounds. A line may be any sequence
of tokens; the runtime is read in the same way, before the first line. -/
inductive Repl.Step : Repl D → Repl D → Prop where
  | line (input : Stream D) (s : Session D) : Step (.prompt s) (.reading input s)
  | next {input rest : Stream D} {s s' : Session D} :
      parseStreamTurn ops jit ofInt fuel input s = some (.ok (.next rest) s') →
      Step (.reading input s) (.reading rest s')
  | return_ {input : Stream D} {ok : Bool} {s s' : Session D} :
      parseStreamTurn ops jit ofInt fuel input s = some (.ok (.return_ ok) s') →
      Step (.reading input s) (.prompt s')
  | halt {input : Stream D} {why : Halt} {s : Session D} :
      parseStreamTurn ops jit ofInt fuel input s = some (.abort why) →
      Step (.reading input s) (.halted why)

/-- `ParseStream`, `none` when the bound on the turns or `fuel` is too small. -/
def parseStream : Nat → Stream D → Session D → Option (Outcome (Session D) Halt Bool)
  | 0, _, _ => none
  | turns + 1, input, s =>
    (parseStreamTurn ops jit ofInt fuel input s).bind fun
      | .ok (.next rest) s' => parseStream turns rest s'
      | .ok (.return_ ok) s' => some (.ok ok s')
      | .null s' => some (.null s')
      | .abort why => some (.abort why)

end

end AroundTheWorld.Athens
