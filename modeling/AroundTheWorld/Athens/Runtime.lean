import Mathlib.Logic.Relation
import AroundTheWorld.Athens.Driver

/-!
# Sessions behind the runtime

The runtime is a stream like any other: what `ParseStream` computes on a stream
is a run of the REPL. Sessions on concrete lines start from the state in which
`lib/runtime.ath` has been loaded.
-/

namespace AroundTheWorld.Athens

open AroundTheWorld.Base AroundTheWorld.Lex AroundTheWorld.Llvm

section
variable {D : Type} {ops : FloatOps D} {jit : List (FunctionIR D) → Bool} {ofInt : Int → D}
  {fuel : Nat}

/-- Any number of steps of the REPL. -/
abbrev Repl.Run (ops : FloatOps D) (jit : List (FunctionIR D) → Bool) (ofInt : Int → D)
    (fuel : Nat) : Repl D → Repl D → Prop :=
  Relation.ReflTransGen (Repl.Step ops jit ofInt fuel)

/-- Induction on the turns that `parseStream` takes. -/
theorem parseStream_run {turns : Nat} {input : Stream D} {s s' : Session D} {ok : Bool}
    (h : parseStream ops jit ofInt fuel turns input s = some (.ok ok s')) :
    Repl.Run ops jit ofInt fuel (.reading input s) (.prompt s') := by
  induction turns generalizing input s with
  | zero => cases h
  | succ turns ih =>
    obtain ⟨r, hturn, h⟩ := Option.bind_eq_some_iff.mp h
    cases r with
    | null _ => cases h
    | abort _ => cases h
    | ok turn s₁ =>
      cases turn with
      | next rest => exact .head (.next hturn) (ih h)
      | return_ b =>
        cases h
        exact .single (.return_ hturn)

/-- A line that is read to its end, from one prompt to the next. -/
theorem line_run {turns : Nat} {input : Stream D} {s s' : Session D} {ok : Bool}
    (h : parseStream ops jit ofInt fuel turns input s = some (.ok ok s')) :
    Repl.Run ops jit ofInt fuel (.prompt s) (.prompt s') :=
  .head (.line input s) (parseStream_run h)

end

/-! ## The runtime -/

/-- The definitions of `lib/runtime.ath`. -/
def runtimeDefinitions : List String :=
  ["def unary!(v) if v then 0 else 1;",
    "def unary-(v) 0-v;",
    "def binary> 10 (LHS RHS) RHS < LHS;",
    "def binary| 5 (LHS RHS) if LHS then 1 else if RHS then 1 else 0;",
    "def binary& 6 (LHS RHS) if !LHS then 0 else !!RHS;",
    "def binary = 9 (LHS RHS) !(LHS < RHS | LHS > RHS);",
    "def binary : 1 (x y) y;"]

/-- The tokens that the lexer makes of some lines without floats. -/
def Stream.ofLines (lines : List String) : Option (Stream Int) :=
  (lines.mapM fun line =>
    ((Lexer.ofBuffer (text line)).tokenize athensLexRules (fun t => ((0 : Int), t.length))
      70 40).map
      fun out => (out.map (·.2)).dropLast).map fun tokens => ⟨tokens.flatten, {}⟩

/-- `ParseStream` over the integers, with a JIT that takes every module. -/
def replay (lines : List String) (s : Session Int) : Option (Outcome (Session Int) Halt Bool) :=
  (Stream.ofLines lines).bind fun input =>
    parseStream wholeOps (fun _ => true) id 40 40 input s

/-- The session in which the first line is typed. -/
def afterRuntime : Option (Session Int) :=
  (replay runtimeDefinitions .start).bind Outcome.state?

theorem replay_run {lines : List String} {s s' : Session Int}
    (h : (replay lines s).bind Outcome.state? = some s') :
    Repl.Run wholeOps (fun _ => true) id 40 (.prompt s) (.prompt s') := by
  obtain ⟨r, hr, hs'⟩ := Option.bind_eq_some_iff.mp h
  obtain ⟨input, -, hrun⟩ := Option.bind_eq_some_iff.mp hr
  cases r with
  | ok b s₁ =>
    cases hs'
    exact line_run hrun
  | null _ => cases hs'
  | abort _ => cases hs'

end AroundTheWorld.Athens
