import AroundTheWorld.Athens.Runtime
import AroundTheWorld.Berlin.MlirGen
import AroundTheWorld.Cairo.Codegen

/-!
# The targets of assignments

What stands on the left of `=` is whatever the parser has grouped there. Berlin and
Cairo test that it is a variable, Athens casts it to one unless it is null.
-/

namespace AroundTheWorld.Agreement

open AroundTheWorld.Base AroundTheWorld.Lex AroundTheWorld.Llvm
open AroundTheWorld.Athens (ExprAST Name AthensState codegen)

variable {D : Type}

mutual

/-- The two sides of every `=` in an expression. -/
def assignments : ExprAST D → List (ExprAST D × ExprAST D)
  | .null => []
  | .numberExpr _ => []
  | .variableExpr _ => []
  | .unaryExpr _ operand => assignments operand
  | .binaryExpr op lhs rhs =>
    (if op = byte '=' then [(lhs, rhs)] else []) ++ assignments lhs ++ assignments rhs
  | .callExpr _ args => assignmentsInArgs args
  | .ifExpr cond then_ else_ => assignments cond ++ assignments then_ ++ assignments else_
  | .forExpr _ start end_ step body =>
    assignments start ++ assignments end_ ++ assignments step ++ assignments body
  | .varExpr varNames body => assignmentsInBindings varNames ++ assignments body

def assignmentsInArgs : List (ExprAST D) → List (ExprAST D × ExprAST D)
  | [] => []
  | arg :: args => assignments arg ++ assignmentsInArgs args

def assignmentsInBindings : List (Name × ExprAST D) → List (ExprAST D × ExprAST D)
  | [] => []
  | (_, init) :: rest => assignments init ++ assignmentsInBindings rest

end

def isVariable : ExprAST D → Bool
  | .variableExpr _ => true
  | _ => false

theorem eq_variable_of_isVariable {e : ExprAST D} (h : isVariable e = true) :
    ∃ name, e = .variableExpr name := by
  cases e <;> first | exact ⟨_, rfl⟩ | cases h

/-- Code generation that succeeds in some state on an assignment of a number to `lhs`. -/
def AcceptsTarget {σ ε α : Type} (gen : ExprAST D → Gen σ ε α) (lhs : ExprAST D) : Prop :=
  ∃ val s a s', gen (.binaryExpr (byte '=') lhs (.numberExpr val)) s = .ok a s'

/-- What Athens should do with `lhs = rhs`: `lhs` is used as a variable only if it is one,
otherwise there is an error and nothing is emitted; and the back ends accept the same
left sides. -/
structure ChecksTarget (ops : IntOps D) (lhs rhs : ExprAST D) : Prop where
  cast : ∀ s, codegen ops.toFloatOps (.binaryExpr (byte '=') lhs rhs) s = .abort .badCast →
    codegen ops.toFloatOps rhs s = .abort .badCast
  refuses : isVariable lhs = false → ∀ s, ∃ line,
    codegen ops.toFloatOps (.binaryExpr (byte '=') lhs rhs) s =
      .null { s with errors := s.errors ++ [line] }
  agrees : (AcceptsTarget (codegen ops.toFloatOps) lhs ↔
      AcceptsTarget (Berlin.gen ops.toFloatOps) lhs) ∧
    (AcceptsTarget (codegen ops.toFloatOps) lhs ↔ AcceptsTarget (Cairo.gen ops) lhs)

section
variable {ops : IntOps D}

theorem athens_accepts_iff {lhs : ExprAST D} :
    AcceptsTarget (codegen ops.toFloatOps) lhs ↔ isVariable lhs = true := by
  constructor
  · intro ⟨val, s, a, s', h⟩
    rw [codegen, if_pos rfl] at h
    cases lhs <;> first | rfl | cases h
  · intro h
    obtain ⟨name, rfl⟩ := eq_variable_of_isVariable h
    let s : AthensState D := { namedValues := fun _ => some 0 }
    refine ⟨ops.zero, s, .const ops.zero,
      { s with builder := s.builder.createStore (.const ops.zero) 0 }, ?_⟩
    rw [codegen, if_pos rfl, codegen]
    rfl

theorem berlin_accepts_iff {lhs : ExprAST D} :
    AcceptsTarget (Berlin.gen ops.toFloatOps) lhs ↔ isVariable lhs = true := by
  constructor
  · intro ⟨val, s, a, s', h⟩
    rw [Berlin.gen, if_pos rfl] at h
    cases lhs <;> first | rfl | cases h
  · intro h
    obtain ⟨name, rfl⟩ := eq_variable_of_isVariable h
    let s : Berlin.BerlinState D :=
      { builder := { insertPoint := .atEnd 0, nextBlock := 1 }, namedValues := fun _ => some 0 }
    have h : ((Berlin.gen ops.toFloatOps (.binaryExpr (byte '=') (.variableExpr name)
        (.numberExpr ops.zero)) s).state?.isSome) = true := by
      rw [Berlin.gen, if_pos rfl, Berlin.gen]
      rfl
    obtain ⟨a, s', hgen⟩ := Outcome.ok_of_isSome h
    exact ⟨ops.zero, s, a, s', hgen⟩

theorem cairo_accepts_iff {lhs : ExprAST D} :
    AcceptsTarget (Cairo.gen ops) lhs ↔ isVariable lhs = true := by
  constructor
  · intro ⟨val, s, a, s', h⟩
    rw [Cairo.gen, if_pos rfl] at h
    cases lhs <;> first | rfl | cases h
  · intro h
    obtain ⟨name, rfl⟩ := eq_variable_of_isVariable h
    let s : Cairo.CairoState D := { namedValues := fun _ => some ⟨0, 0⟩ }
    refine ⟨ops.zero, s, .const ops.zero,
      { s with builder := s.builder.emit (.store (.const ops.zero) ⟨0, 0⟩) }, ?_⟩
    rw [Cairo.gen, if_pos rfl, Cairo.gen]
    rfl

/-- A left side that is neither a variable nor null is cast. -/
theorem codegen_badCast {lhs : ExprAST D} (hnull : lhs.isNull = false)
    (hvariable : isVariable lhs = false) (rhs : ExprAST D) (s : AthensState D) :
    codegen ops.toFloatOps (.binaryExpr (byte '=') lhs rhs) s = .abort .badCast := by
  rw [codegen, if_pos rfl]
  cases lhs with
  | null => cases hnull
  | variableExpr name => cases hvariable
  | _ => rfl

theorem checksTarget_iff {lhs rhs : ExprAST D} :
    ChecksTarget ops lhs rhs ↔ lhs.isNull = true ∨ isVariable lhs = true := by
  constructor
  · intro h
    by_contra hother
    simp only [not_or, Bool.not_eq_true] at hother
    obtain ⟨line, hline⟩ := h.refuses hother.2 {}
    rw [codegen_badCast hother.1 hother.2] at hline
    cases hline
  · intro h
    refine ⟨?_, ?_, ?_, ?_⟩
    · intro s hcast
      rcases h with hnull | hvariable
      · rw [ExprAST.eq_null_of_isNull hnull, codegen, if_pos rfl] at hcast
        cases hcast
      · obtain ⟨name, rfl⟩ := eq_variable_of_isVariable hvariable
        rw [codegen, if_pos rfl] at hcast
        refine (Gen.bind_abort hcast).resolve_right fun ⟨val, s', _, hstore⟩ => ?_
        rcases Gen.bind_abort hstore with hlookup | ⟨variable_, s'', _, hstore⟩
        · cases hlookup
        · cases variable_ <;> cases hstore
    · intro hvariable s
      have hnull := h.resolve_right (by rw [hvariable]; decide)
      rw [ExprAST.eq_null_of_isNull hnull, codegen, if_pos rfl]
      exact ⟨_, rfl⟩
    · rw [athens_accepts_iff, berlin_accepts_iff]
    · rw [athens_accepts_iff, cairo_accepts_iff]

/-- Athens checks the targets of an expression exactly when each of them is a variable
or null. -/
theorem assignments_checked_iff (ops : IntOps D) (e : ExprAST D) :
    (∀ a ∈ assignments e, ChecksTarget ops a.1 a.2) ↔
      ∀ a ∈ assignments e, a.1.isNull = true ∨ isVariable a.1 = true :=
  forall₂_congr fun _ _ => checksTarget_iff

end

/-- `x = y = 1` assigns to `x = y`: behind the runtime, a definition with this body ends
the process in the cast. Berlin and Cairo refuse the assignment. -/
theorem chained_assignment_cast : ∃ (s : Athens.Session Int) (input : Athens.Stream Int),
    Athens.afterRuntime = some s ∧
    Athens.Stream.ofLines ["def f(x y) x = y = 1"] = some input ∧
    Athens.Repl.Run wholeOps (fun _ => true) id 40 (.prompt .start) (.prompt s) ∧
    Athens.Repl.Run wholeOps (fun _ => true) id 40 (.reading input s)
      (.halted (.aborted .badCast)) ∧
    ¬ ChecksTarget wholeIntOps (.binaryExpr (byte '=') (.variableExpr (text "x"))
      (.variableExpr (text "y"))) (.numberExpr 1) := by
  have h : (Athens.afterRuntime.bind fun s =>
      (Athens.Stream.ofLines ["def f(x y) x = y = 1"]).bind fun input =>
        (Athens.parseStreamTurn wholeOps (fun _ => true) id 40 input s).map (·.why?)) =
          some (some (.aborted .badCast)) := by
    decide +kernel
  obtain ⟨s, hs, h⟩ := Option.bind_eq_some_iff.mp h
  obtain ⟨input, hinput, h⟩ := Option.bind_eq_some_iff.mp h
  obtain ⟨r, hturn, h⟩ := Option.map_eq_some_iff.mp h
  rw [Outcome.abort_of_why h] at hturn
  refine ⟨s, input, hs, hinput, Athens.replay_run hs, .single (.halt hturn), ?_⟩
  rw [checksTarget_iff]
  decide

end AroundTheWorld.Agreement
