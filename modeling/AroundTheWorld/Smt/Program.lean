import Mathlib.Data.List.Nodup

/-!
# Straight-line programs over booleans and bitvectors

A program is a list of lines in static single assignment form: declarations,
operations on values that earlier lines have introduced, and constraints. Names
are of any type. Running a program under a valuation of what it declares either
gets stuck at a line, or gives the values and whether all constraints hold.
-/

namespace AroundTheWorld.Smt

inductive Ty where
  | bool
  | bv (width : Nat)
  deriving DecidableEq, Repr

abbrev Ty.denote : Ty → Type
  | .bool => Bool
  | .bv width => BitVec width

instance (τ : Ty) : DecidableEq τ.denote :=
  match τ with
  | .bool => inferInstanceAs (DecidableEq Bool)
  | .bv width => inferInstanceAs (DecidableEq (BitVec width))

inductive BinOp where
  | add
  | sub
  | mul
  deriving DecidableEq, Repr

def BinOp.eval {w : Nat} : BinOp → BitVec w → BitVec w → BitVec w
  | .add, x, y => x + y
  | .sub, x, y => x - y
  | .mul, x, y => x * y

inductive Pred where
  | slt
  | sle
  | sgt
  | sge
  | ult
  | ule
  | ugt
  | uge
  deriving DecidableEq, Repr

def Pred.eval {w : Nat} : Pred → BitVec w → BitVec w → Bool
  | .slt, x, y => x.slt y
  | .sle, x, y => x.sle y
  | .sgt, x, y => y.slt x
  | .sge, x, y => y.sle x
  | .ult, x, y => x.ult y
  | .ule, x, y => x.ule y
  | .ugt, x, y => y.ult x
  | .uge, x, y => y.ule x

/-- The lines that introduce a value: `name = ...`. -/
inductive Def (N : Type) where
  | declareFun (symbol : N) (type : Ty)
  | bvConstant (value : Int) (width : Nat)
  | constant (value : Bool)
  | not (operand : N)
  | bvNeg (operand : N) (width : Nat)
  | bvBin (op : BinOp) (lhs rhs : N) (width : Nat)
  | eq (lhs rhs : N) (type : Ty)
  | bvCmp (pred : Pred) (lhs rhs : N) (width : Nat)
  deriving DecidableEq, Repr

inductive Line (N : Type) where
  | define (name : N) (value : Def N)
  | assert (operand : N)
  deriving DecidableEq, Repr

namespace Def

variable {N : Type}

/-- The type of the value. -/
def type : Def N → Ty
  | .declareFun _ type => type
  | .bvConstant _ width => .bv width
  | .constant _ => .bool
  | .not _ => .bool
  | .bvNeg _ width => .bv width
  | .bvBin _ _ _ width => .bv width
  | .eq _ _ _ => .bool
  | .bvCmp _ _ _ _ => .bool

/-- The operands, each with the type that it is used at. -/
def uses : Def N → List (N × Ty)
  | .declareFun _ _ => []
  | .bvConstant _ _ => []
  | .constant _ => []
  | .not operand => [(operand, .bool)]
  | .bvNeg operand width => [(operand, .bv width)]
  | .bvBin _ lhs rhs width => [(lhs, .bv width), (rhs, .bv width)]
  | .eq lhs rhs type => [(lhs, type), (rhs, type)]
  | .bvCmp _ lhs rhs width => [(lhs, .bv width), (rhs, .bv width)]

def constant? : Def N → Option (Int × Nat)
  | .bvConstant value width => some (value, width)
  | _ => none

end Def

namespace Line

variable {N : Type}

def uses : Line N → List (N × Ty)
  | .define _ value => value.uses
  | .assert operand => [(operand, .bool)]

def introduces : Line N → List (N × Ty)
  | .define name value => [(name, value.type)]
  | .assert _ => []

def constant? : Line N → Option (Int × Nat)
  | .define _ value => value.constant?
  | .assert _ => none

end Line

abbrev Program (N : Type) := List (Line N)

namespace Program

variable {N : Type}

/-- The values that the lines introduce, with their types. -/
def introduced (p : Program N) : List (N × Ty) := p.flatMap Line.introduces

def names (p : Program N) : List N := p.introduced.map (·.1)

theorem introduced_append (p q : Program N) :
    Program.introduced (p ++ q) = p.introduced ++ q.introduced := List.flatMap_append

theorem names_append (p q : Program N) : Program.names (p ++ q) = p.names ++ q.names := by
  unfold names
  rw [introduced_append, List.map_append]

/-- Every operand has been introduced on an earlier line, at the type that it is
used at. -/
def WellTyped (p : Program N) : Prop :=
  ∀ before line after, p = before ++ line :: after →
    ∀ use ∈ line.uses, use ∈ Program.introduced before

/-- The bitvector constants, each with its width. -/
def constants (p : Program N) : List (Int × Nat) := p.filterMap Line.constant?

theorem constants_append (p q : Program N) :
    Program.constants (p ++ q) = p.constants ++ q.constants := List.filterMap_append

end Program

/-! ## Running a program -/

/-- A value with its type. -/
abbrev Value := (τ : Ty) × τ.denote

abbrev Env (N : Type) := N → Option Value

/-- A value of each type for each symbol that a program may declare. -/
abbrev Valuation (N : Type) := N → (τ : Ty) → τ.denote

section
variable {N : Type}

/-- The value of a name at a type, if it has one of exactly this type. -/
def Env.lookup (env : Env N) (name : N) (τ : Ty) : Option τ.denote :=
  (env name).bind fun v => if h : v.1 = τ then some (h ▸ v.2) else none

theorem Env.lookup_iff {env : Env N} {name : N} {τ : Ty} {x : τ.denote} :
    env.lookup name τ = some x ↔ env name = some ⟨τ, x⟩ := by
  unfold Env.lookup
  rw [Option.bind_eq_some_iff]
  constructor
  · rintro ⟨⟨τ', y⟩, henv, h⟩
    split at h
    · rename_i hτ
      simp only at hτ
      subst hτ
      cases h
      exact henv
    · cases h
  · intro henv
    exact ⟨⟨τ, x⟩, henv, by simp⟩

def Def.eval (ρ : Valuation N) (env : Env N) : (d : Def N) → Option d.type.denote
  | .declareFun symbol type => some (ρ symbol type)
  | .bvConstant value width => some (BitVec.ofInt width value)
  | .constant value => some value
  | .not operand => (env.lookup operand .bool).map (!·)
  | .bvNeg operand width => (env.lookup operand (.bv width)).map fun x : BitVec width => -x
  | .bvBin op lhs rhs width =>
    (env.lookup lhs (.bv width)).bind fun x => (env.lookup rhs (.bv width)).map fun y => op.eval x y
  | .eq lhs rhs type =>
    (env.lookup lhs type).bind fun x => (env.lookup rhs type).map fun y => decide (x = y)
  | .bvCmp pred lhs rhs width =>
    (env.lookup lhs (.bv width)).bind fun x => (env.lookup rhs (.bv width)).map fun y =>
      pred.eval x y

variable {ρ : Valuation N} {env env' : Env N}

/-- A line that can be evaluated finds its operands at their types. -/
theorem Def.uses_of_eval {d : Def N} {x : d.type.denote} (h : d.eval ρ env = some x) {use : N × Ty}
    (huse : use ∈ d.uses) : ∃ y, env use.1 = some ⟨use.2, y⟩ := by
  cases d with
  | declareFun _ _ => cases huse
  | bvConstant _ _ => cases huse
  | constant _ => cases huse
  | not operand =>
    obtain ⟨y, hy, -⟩ := Option.map_eq_some_iff.mp h
    obtain rfl := List.mem_singleton.mp huse
    exact ⟨y, Env.lookup_iff.mp hy⟩
  | bvNeg operand width =>
    obtain ⟨y, hy, -⟩ := Option.map_eq_some_iff.mp h
    obtain rfl := List.mem_singleton.mp huse
    exact ⟨y, Env.lookup_iff.mp hy⟩
  | bvBin _ lhs rhs width =>
    obtain ⟨y, hy, h⟩ := Option.bind_eq_some_iff.mp h
    obtain ⟨z, hz, -⟩ := Option.map_eq_some_iff.mp h
    simp only [Def.uses, List.mem_cons, List.not_mem_nil, or_false] at huse
    rcases huse with rfl | rfl
    · exact ⟨y, Env.lookup_iff.mp hy⟩
    · exact ⟨z, Env.lookup_iff.mp hz⟩
  | eq lhs rhs type =>
    obtain ⟨y, hy, h⟩ := Option.bind_eq_some_iff.mp h
    obtain ⟨z, hz, -⟩ := Option.map_eq_some_iff.mp h
    simp only [Def.uses, List.mem_cons, List.not_mem_nil, or_false] at huse
    rcases huse with rfl | rfl
    · exact ⟨y, Env.lookup_iff.mp hy⟩
    · exact ⟨z, Env.lookup_iff.mp hz⟩
  | bvCmp _ lhs rhs width =>
    obtain ⟨y, hy, h⟩ := Option.bind_eq_some_iff.mp h
    obtain ⟨z, hz, -⟩ := Option.map_eq_some_iff.mp h
    simp only [Def.uses, List.mem_cons, List.not_mem_nil, or_false] at huse
    rcases huse with rfl | rfl
    · exact ⟨y, Env.lookup_iff.mp hy⟩
    · exact ⟨z, Env.lookup_iff.mp hz⟩

/-- Every value stays as it is. -/
def Env.Extends (env env' : Env N) : Prop := ∀ name v, env name = some v → env' name = some v

theorem Env.Extends.refl (env : Env N) : env.Extends env := fun _ _ h => h

theorem Env.Extends.trans {env₁ env₂ env₃ : Env N} (h : env₁.Extends env₂)
    (h' : env₂.Extends env₃) : env₁.Extends env₃ := fun name v hv => h' name v (h name v hv)

variable [DecidableEq N]

def Env.set (env : Env N) (name : N) (v : Value) : Env N :=
  fun k => if k = name then some v else env k

/-- The values behind the lines, and whether all constraints hold. -/
def Program.run (ρ : Valuation N) : Program N → Env N → Option (Env N × Bool)
  | [], env => some (env, true)
  | .define name d :: p, env => (d.eval ρ env).bind fun x =>
      Program.run ρ p (env.set name ⟨d.type, x⟩)
  | .assert operand :: p, env =>
    (env.lookup operand .bool).bind fun b =>
      (Program.run ρ p env).map fun (env', holds) => (env', b && holds)

/-- All constraints hold under the valuation. -/
def Program.Holds (ρ : Valuation N) (p : Program N) : Prop :=
  ∃ env, Program.run ρ p (fun _ => none) = some (env, true)

/-- Some valuation satisfies all constraints. -/
def Program.HasModel (p : Program N) : Prop := ∃ ρ, p.Holds ρ

theorem Program.run_append (p q : Program N) (env : Env N) :
    Program.run ρ (p ++ q) env =
      (Program.run ρ p env).bind fun r =>
        (Program.run ρ q r.1).map fun r' => (r'.1, r.2 && r'.2) := by
  induction p generalizing env with
  | nil =>
    rw [List.nil_append]
    change _ = (Program.run ρ q env).map fun r' => (r'.1, true && r'.2)
    simp
  | cons line p ih =>
    cases line with
    | define name d =>
      simp only [List.cons_append, Program.run, ih, Option.bind_assoc]
    | assert operand =>
      simp only [List.cons_append, Program.run, ih]
      cases env.lookup operand .bool with
      | none => rfl
      | some b =>
        cases Program.run ρ p env with
        | none => rfl
        | some r => simp [Function.comp_def, Bool.and_assoc]

theorem Program.holds_iff_of_run {p : Program N} {holds : Bool}
    (h : Program.run ρ p (fun _ => none) = some (env, holds)) : p.Holds ρ ↔ holds = true := by
  unfold Program.Holds
  rw [h]
  constructor
  · intro ⟨_, heq⟩
    cases heq
    rfl
  · intro hholds
    exact ⟨env, by rw [hholds]⟩

/-- Only the names that the lines introduce get values, of their types. -/
theorem Program.run_introduced {p : Program N} {holds : Bool}
    (h : Program.run ρ p env = some (env', holds)) {name : N} {τ : Ty} {x : τ.denote}
    (hname : env' name = some ⟨τ, x⟩) : env name = some ⟨τ, x⟩ ∨ (name, τ) ∈ p.introduced := by
  induction p generalizing env holds with
  | nil =>
    cases h
    exact .inl hname
  | cons line p ih =>
    cases line with
    | define name' d =>
      obtain ⟨v, -, h⟩ := Option.bind_eq_some_iff.mp h
      rcases ih h with hset | hmem
      · by_cases hk : name = name'
        · simp only [Env.set, hk, if_true, Option.some.injEq, Sigma.mk.injEq] at hset
          right
          simp [Program.introduced, Line.introduces, hk, hset.1]
        · left
          simpa [Env.set, hk] using hset
      · right
        exact List.mem_cons_of_mem _ hmem
    | assert operand =>
      obtain ⟨b, -, h⟩ := Option.bind_eq_some_iff.mp h
      obtain ⟨⟨env₁, holds₁⟩, hrest, heq⟩ := Option.map_eq_some_iff.mp h
      cases heq
      exact ih hrest

/-- A program that does not get stuck uses nothing before it is introduced. -/
theorem Program.wellTyped_of_run {p : Program N} {r : Env N × Bool}
    (h : Program.run ρ p (fun _ => none) = some r) : p.WellTyped := by
  rintro before line after rfl use huse
  rw [Program.run_append] at h
  obtain ⟨⟨env, holds⟩, hbefore, h⟩ := Option.bind_eq_some_iff.mp h
  obtain ⟨r', hline, -⟩ := Option.map_eq_some_iff.mp h
  have hfound : ∃ y, env use.1 = some ⟨use.2, y⟩ := by
    cases line with
    | define name d =>
      obtain ⟨x, hx, -⟩ := Option.bind_eq_some_iff.mp hline
      exact d.uses_of_eval hx huse
    | assert operand =>
      obtain ⟨b, hb, -⟩ := Option.bind_eq_some_iff.mp hline
      obtain rfl := List.mem_singleton.mp huse
      exact ⟨b, Env.lookup_iff.mp hb⟩
  obtain ⟨y, hy⟩ := hfound
  rcases Program.run_introduced hbefore hy with hnone | hmem
  · cases hnone
  · exact hmem

/-! ## Extending a program -/

/-- One more value, under a name that is new. -/
theorem Program.run_define {p : Program N} {name : N} {d : Def N} {x : d.type.denote} {holds : Bool}
    (hrun : Program.run ρ p (fun _ => none) = some (env, holds)) (hx : d.eval ρ env = some x)
    (hnew : (Program.names (p ++ [Line.define name d])).Nodup) :
    ∃ env', Program.run ρ (p ++ [.define name d]) (fun _ => none) = some (env', holds) ∧
      env.Extends env' ∧ env' name = some ⟨d.type, x⟩ := by
  refine ⟨env.set name ⟨d.type, x⟩, ?_, ?_, by simp [Env.set]⟩
  · rw [Program.run_append, hrun]
    simp [Program.run, hx]
  · rintro k ⟨τ, v⟩ hv
    have hk : k ≠ name := by
      rintro rfl
      rcases Program.run_introduced hrun hv with hnone | hmem
      · cases hnone
      · rw [Program.names_append, List.nodup_append] at hnew
        exact hnew.2.2 k (List.mem_map.mpr ⟨_, hmem, rfl⟩) k (by simp [Program.names,
          Program.introduced, Line.introduces]) rfl
    simpa [Env.set, hk] using hv

/-- One more constraint. -/
theorem Program.run_assert {p : Program N} {operand : N} {b holds : Bool}
    (hrun : Program.run ρ p (fun _ => none) = some (env, holds))
    (hb : env operand = some ⟨.bool, b⟩) :
    Program.run ρ (p ++ [.assert operand]) (fun _ => none) = some (env, holds && b) := by
  rw [Program.run_append, hrun]
  simp [Program.run, Env.lookup_iff.mpr hb]

end

end AroundTheWorld.Smt
