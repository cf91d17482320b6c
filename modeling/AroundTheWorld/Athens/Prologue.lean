import AroundTheWorld.Athens.Definition

/-!
# The prologue of a function

Before it generates the body, `FunctionAST::codegen` stores each argument of the
function in a slot and binds its name. The function is the one that `getFunction`
answers with: when the module already has one of that name, the names of its
arguments are bound, and those of the prototype are never looked at.
-/

namespace AroundTheWorld.Athens

open AroundTheWorld.Base AroundTheWorld.Lex AroundTheWorld.Llvm AroundTheWorld.Parse

variable {D : Type}

/-! ## Binding the arguments -/

/-- One turn of the loop over the arguments. -/
def AthensState.bindParam (s : AthensState D) (reg : Nat) (arg : Name) : AthensState D :=
  (s.withBuilder (s.builder.createAlloca.2.createStore (.reg reg) s.builder.nextCell)).withName arg
    (some s.builder.nextCell)

def AthensState.bindParams (s : AthensState D) (reg : Nat) : List Name → AthensState D
  | [] => s
  | arg :: args => (s.bindParam reg arg).bindParams (reg + 1) args

theorem codegenParams_bindParams (reg : Nat) (args : List Name) (s : AthensState D) :
    codegenParams reg args s = .ok () (s.bindParams reg args) := by
  induction args generalizing reg s with
  | nil => rfl
  | cons arg args ih => exact ih (reg + 1) (s.bindParam reg arg)

/-- The last argument of a name has the name. -/
theorem bindParams_namedValues (reg : Nat) (args : List Name) (s : AthensState D) (x : Name)
    (c : Nat) : (s.bindParams reg args).namedValues x = some c ↔
      (∃ i, args[i]? = some x ∧ (∀ j, i < j → args[j]? ≠ some x) ∧ c = s.builder.nextCell + i) ∨
        x ∉ args ∧ s.namedValues x = some c := by
  induction args generalizing reg s with
  | nil => simp [AthensState.bindParams]
  | cons arg args ih =>
    have hcell : (s.bindParam reg arg).builder.nextCell = s.builder.nextCell + 1 := rfl
    have hnames : (s.bindParam reg arg).namedValues x =
        if x = arg then some s.builder.nextCell else s.namedValues x := rfl
    rw [AthensState.bindParams, ih, hcell, hnames]
    constructor
    · rintro (⟨i, hi, hlast, rfl⟩ | ⟨hnot, hx⟩)
      · refine .inl ⟨i + 1, hi, ?_, by omega⟩
        intro j hj
        obtain ⟨k, rfl⟩ : ∃ k, j = k + 1 := ⟨j - 1, by omega⟩
        exact hlast k (by omega)
      · by_cases hxa : x = arg
        · rw [if_pos hxa] at hx
          cases hx
          refine .inl ⟨0, by simp [hxa], ?_, rfl⟩
          intro j hj hj'
          obtain ⟨k, rfl⟩ : ∃ k, j = k + 1 := ⟨j - 1, by omega⟩
          exact hnot (List.mem_of_getElem? hj')
        · rw [if_neg hxa] at hx
          exact .inr ⟨by simp [hxa, hnot], hx⟩
    · rintro (⟨i, hi, hlast, rfl⟩ | ⟨hnot, hx⟩)
      · cases i with
        | zero =>
          obtain rfl : arg = x := by simpa using hi
          refine .inr ⟨?_, by simp⟩
          intro hmem
          obtain ⟨k, hk⟩ := List.mem_iff_getElem?.mp hmem
          exact hlast (k + 1) (by omega) hk
        | succ i =>
          refine .inl ⟨i, hi, ?_, by omega⟩
          intro j hj
          exact hlast (j + 1) (by omega)
      · obtain ⟨hxa, hnot'⟩ : x ≠ arg ∧ x ∉ args := by simpa using hnot
        exact .inr ⟨hnot', by rw [if_neg hxa]; exact hx⟩

/-- The stores of the arguments from register `reg` and slot `cell` on. -/
def argStores (reg cell : Nat) : List Name → List (Instr D Name)
  | [] => []
  | _ :: args => .store (.reg reg) cell :: argStores (reg + 1) (cell + 1) args

theorem bindParams_code (reg : Nat) (args : List Name) (s : AthensState D) :
    (s.bindParams reg args).builder.code s.builder.insertBlock =
      s.builder.code s.builder.insertBlock ++ argStores reg s.builder.nextCell args := by
  induction args generalizing reg s with
  | nil => simp [AthensState.bindParams, argStores]
  | cons arg args ih =>
    have hrest := ih (reg + 1) (s.bindParam reg arg)
    have hcode : (s.bindParam reg arg).builder.code s.builder.insertBlock =
        s.builder.code s.builder.insertBlock ++ [.store (.reg reg) s.builder.nextCell] := by
      simp [AthensState.bindParam, Builder.createStore, Builder.emit, Builder.createAlloca]
    rw [AthensState.bindParams, argStores]
    show ((s.bindParam reg arg).bindParams (reg + 1) args).builder.code
      (s.bindParam reg arg).builder.insertBlock = _
    rw [hrest]
    show (s.bindParam reg arg).builder.code s.builder.insertBlock ++
      argStores (reg + 1) (s.builder.nextCell + 1) args = _
    rw [hcode, List.append_assoc]
    rfl

theorem bindParams_insertBlock (reg : Nat) (args : List Name) (s : AthensState D) :
    (s.bindParams reg args).builder.insertBlock = s.builder.insertBlock := by
  induction args generalizing reg s with
  | nil => rfl
  | cons arg args ih => exact ih (reg + 1) (s.bindParam reg arg)

/-! ## The state in which a body is generated -/

/-- The names of the arguments of `TheFunction`. -/
def FunctionAST.argNames (f : FunctionAST D) (s : AthensState D) : List Name :=
  (s.theModule f.proto.name).getD (setArgNames 0 [] f.proto.args)

/-- `s` with the function in the module and the prototype in the tables. -/
def FunctionAST.declared (f : FunctionAST D) (s : AthensState D) : AthensState D :=
  { s.define f.proto with
    theModule := fun name => if name = f.proto.name then some (f.argNames s) else s.theModule name
    builder := { Builder.entry with nextReg := (f.argNames s).length }
    namedValues := fun _ => none }

def FunctionAST.bodyState (f : FunctionAST D) (s : AthensState D) : AthensState D :=
  (f.declared s).bindParams 0 (f.argNames s)

/-- What `FunctionAST::codegen` makes of the result of the body. -/
def FunctionAST.finish (f : FunctionAST D) (args : List Name) :
    Outcome (AthensState D) Abort (Operand D) → Outcome (AthensState D) Abort (FunctionIR D)
  | .ok v s => .ok ⟨f.proto.name, args, s.builder, v⟩ s
  | .null s => .null (s.undefine f.proto)
  | .abort why => .abort why

theorem getFunction_declared (f : FunctionAST D) (s : AthensState D) :
    getFunction f.proto.name { s with functionProtos := s.functionProtos.insert f.proto } =
      .ok (some (f.argNames s)) { s with
        functionProtos := s.functionProtos.insert f.proto
        theModule := fun name =>
          if name = f.proto.name then some (f.argNames s) else s.theModule name } := by
  unfold getFunction FunctionAST.argNames
  cases hmodule : s.theModule f.proto.name with
  | some args =>
    have hsame : s.theModule = fun name => if name = f.proto.name then some args else
        s.theModule name := by
      funext name
      split
      · rename_i heq
        rw [heq, hmodule]
      · rfl
    simp only [Option.getD_some, ← hsame]
  | none =>
    have hfind : (s.functionProtos.insert f.proto).find f.proto.name = some f.proto := by
      simp [ProtoTable.insert]
    simp only [hfind, Option.getD_none]
    show Gen.bind f.proto.codegen _ _ = _
    simp only [Gen.bind, PrototypeAST.codegen, hmodule]
    rfl

/-- A definition is its body, generated in the state that the prologue leaves. -/
theorem FunctionAST.codegen_body (ops : FloatOps D) (f : FunctionAST D) (s : AthensState D) :
    f.codegen ops s = f.finish (f.argNames s) (Athens.codegen ops f.body (f.bodyState s)) := by
  simp only [FunctionAST.codegen, Bind.bind, Gen.bind, registerProto, getFunction_declared,
    setOperator_eq, enterFunction, codegenParams_bindParams]
  simp only [Gen.attempt, FunctionAST.bodyState, FunctionAST.declared, AthensState.define]
  cases hbody : Athens.codegen ops f.body _ with
  | ok v s₂ => rfl
  | null s₂ => exact cleanUp_eq f.proto s₂
  | abort why => rfl

/-- What is compiled has the code of the body, which is generated behind the prologue. -/
theorem FunctionAST.codegen_generated {ops : FloatOps D} {f : FunctionAST D} {s g : AthensState D}
    {fnIR : FunctionIR D} (h : f.codegen ops s = .ok fnIR g) :
    ∃ v, Athens.codegen ops f.body (f.bodyState s) = .ok v g ∧
      fnIR = ⟨f.proto.name, f.argNames s, g.builder, v⟩ := by
  rw [f.codegen_body] at h
  cases hrun : Athens.codegen ops f.body (f.bodyState s) with
  | ok v s₂ =>
    rw [hrun] at h
    cases h
    exact ⟨v, rfl, rfl⟩
  | null s₂ =>
    rw [hrun] at h
    cases h
  | abort why =>
    rw [hrun] at h
    cases h

theorem FunctionAST.codegen_ok {ops : FloatOps D} {f : FunctionAST D} {s g : AthensState D}
    {fnIR : FunctionIR D} (h : f.codegen ops s = .ok fnIR g) :
    fnIR.name = f.proto.name ∧ fnIR.args = f.argNames s ∧ fnIR.body = g.builder := by
  obtain ⟨v, -, rfl⟩ := FunctionAST.codegen_generated h
  exact ⟨rfl, rfl, rfl⟩

/-! ## The scope of the body -/

/-- The function has as many arguments as the prototype has parameters, exactly the
parameters are in scope, each has the slot of its number, and that holds the
argument of its number. -/
structure OwnParameters (p : PrototypeAST) (args : List Name) (s : AthensState D) : Prop where
  arity : args.length = p.args.length
  scope : ∀ x c, s.namedValues x = some c ↔ p.args[c]? = some x
  slots : s.builder.code s.builder.insertBlock = argStores 0 0 p.args

theorem setArgNames_of_nodup {args taken : List Name} (n : Nat) (hnodup : args.Nodup)
    (hfree : ∀ x ∈ args, x ∉ taken) : setArgNames n taken args = args := by
  induction args generalizing taken with
  | nil => rfl
  | cons arg args ih =>
    obtain ⟨hnot, hnodup'⟩ := List.nodup_cons.mp hnodup
    have hnew : ¬ taken.contains arg = true := by
      simpa using hfree arg (by simp)
    rw [setArgNames, if_neg hnew, ih hnodup']
    intro x hx hmem
    rcases List.mem_cons.mp hmem with rfl | hmem
    · exact hnot hx
    · exact hfree x (by simp [hx]) hmem

theorem bodyState_namedValues (f : FunctionAST D) (s : AthensState D) (x : Name) (c : Nat) :
    (f.bodyState s).namedValues x = some c ↔
      (f.argNames s)[c]? = some x ∧ ∀ j, c < j → (f.argNames s)[j]? ≠ some x := by
  rw [FunctionAST.bodyState, bindParams_namedValues]
  constructor
  · rintro (⟨i, hi, hlast, rfl⟩ | ⟨-, hx⟩)
    · have hzero : (f.declared s).builder.nextCell + i = i := Nat.zero_add i
      rw [hzero]
      exact ⟨hi, hlast⟩
    · cases hx
  · rintro ⟨hc, hlast⟩
    exact .inl ⟨c, hc, hlast, (Nat.zero_add c).symm⟩

theorem ownParameters_iff (f : FunctionAST D) (s : AthensState D) (hnodup : f.proto.args.Nodup) :
    OwnParameters f.proto (f.argNames s) (f.bodyState s) ↔ f.argNames s = f.proto.args := by
  constructor
  · intro h
    refine List.ext_getElem? fun i => ?_
    cases hi : f.proto.args[i]? with
    | none =>
      rw [List.getElem?_eq_none_iff] at hi ⊢
      rw [h.arity]
      exact hi
    | some x => exact ((bodyState_namedValues f s x i).mp ((h.scope x i).mpr hi)).1
  · intro h
    refine ⟨by rw [h], ?_, ?_⟩
    · intro x c
      rw [bodyState_namedValues, h]
      constructor
      · exact And.left
      · intro hc
        refine ⟨hc, fun j hj hj' => ?_⟩
        have hlt := (List.getElem?_eq_some_iff.mp hc).1
        have heq : c = j := (List.getElem?_inj hlt hnodup).mp (hc.trans hj'.symm)
        omega
    · have hcode := bindParams_code 0 f.proto.args (f.declared s)
      have hbody : f.bodyState s = (f.declared s).bindParams 0 f.proto.args := by
        rw [FunctionAST.bodyState, h]
      rw [hbody, bindParams_insertBlock]
      exact hcode

/-- The names of the arguments are those of the prototype unless the module has a
function of the name that was declared with others. -/
theorem argNames_eq_iff (f : FunctionAST D) (s : AthensState D) (hnodup : f.proto.args.Nodup) :
    f.argNames s = f.proto.args ↔
      s.theModule f.proto.name = none ∨ s.theModule f.proto.name = some f.proto.args := by
  have hset : setArgNames 0 [] f.proto.args = f.proto.args :=
    setArgNames_of_nodup 0 hnodup (by simp)
  unfold FunctionAST.argNames
  rw [hset]
  cases s.theModule f.proto.name <;> simp

/-- The state without the function `name`. -/
def AthensState.without (s : AthensState D) (name : Name) : AthensState D :=
  { s with theModule := fun k => if k = name then none else s.theModule k }

theorem bodyState_without (f : FunctionAST D) (s : AthensState D)
    (h : f.argNames s = f.argNames (s.without f.proto.name)) :
    f.bodyState s = f.bodyState (s.without f.proto.name) := by
  have hmodule : ∀ args : List Name, (fun name => if name = f.proto.name then some args else
      s.theModule name) = fun name => if name = f.proto.name then some args else
        (s.without f.proto.name).theModule name := by
    intro args
    funext name
    by_cases hname : name = f.proto.name
    · simp [hname]
    · simp [hname, AthensState.without]
  unfold FunctionAST.bodyState FunctionAST.declared
  rw [← h, hmodule]
  rfl

/-- A definition is compiled in the scope of its own parameters exactly when the
module had no function of its name yet, or one that was declared with the same
parameters; the body is then generated as if nothing had been declared. -/
theorem own_parameters_iff (ops : FloatOps D) (f : FunctionAST D) (s : AthensState D)
    (hnodup : f.proto.args.Nodup) :
    f.codegen ops s = f.finish (f.argNames s) (Athens.codegen ops f.body (f.bodyState s)) ∧
    (OwnParameters f.proto (f.argNames s) (f.bodyState s) ↔
      s.theModule f.proto.name = none ∨ s.theModule f.proto.name = some f.proto.args) ∧
    (OwnParameters f.proto (f.argNames s) (f.bodyState s) →
      f.bodyState s = f.bodyState (s.without f.proto.name)) := by
  refine ⟨f.codegen_body ops s,
    (ownParameters_iff f s hnodup).trans (argNames_eq_iff f s hnodup), ?_⟩
  intro hown
  apply bodyState_without
  have hfresh : f.argNames (s.without f.proto.name) = f.proto.args := by
    refine (argNames_eq_iff f _ hnodup).mpr (.inl ?_)
    simp [AthensState.without]
  rw [hfresh]
  exact (ownParameters_iff f s hnodup).mp hown

/-! ## Behind the runtime -/

/-- A definition, typed at a prompt that was reached over lines that were all
processed successfully, that is read without a report. -/
structure ReadDefinition (lines : List String) (line : String) (s : Session Int)
    (f : FunctionAST Int) (r : Outcome (Session Int) Halt (Turn Int)) : Prop where
  reached : Repl.Run wholeOps (fun _ => true) id 40 (.prompt .start) (.prompt s)
  processed : replay (runtimeDefinitions ++ lines) .start = some (.ok true s)
  read : ∃ input item σ, Stream.ofLines [line] = some input ∧
    (Parser.current (input.context s)).kind = .kwFuncDef ∧
    athensParseItem id 40 (input.context s) = some (item, σ) ∧ σ.diag = [] ∧
    item.function = some f ∧ parseStreamTurn wholeOps (fun _ => true) id 40 input s = some r

def readDefinition (lines : List String) (line : String) :
    Option (Session Int × FunctionAST Int × Outcome (Session Int) Halt (Turn Int)) :=
  (replay (runtimeDefinitions ++ lines) .start).bind fun
    | .ok true s =>
      (Stream.ofLines [line]).bind fun input =>
        (athensParseItem id 40 (input.context s)).bind fun (item, σ) =>
          item.function.bind fun f =>
            if (Parser.current (input.context s)).kind = .kwFuncDef ∧ σ.diag = [] then
              (parseStreamTurn wholeOps (fun _ => true) id 40 input s).map fun r => (s, f, r)
            else none
    | _ => none

theorem readDefinition_some {lines : List String} {line : String} {s : Session Int}
    {f : FunctionAST Int} {r : Outcome (Session Int) Halt (Turn Int)}
    (h : readDefinition lines line = some (s, f, r)) : ReadDefinition lines line s f r := by
  obtain ⟨outcome, hrun, h⟩ := Option.bind_eq_some_iff.mp h
  split at h
  · rename_i s₀
    obtain ⟨input, hinput, h⟩ := Option.bind_eq_some_iff.mp h
    obtain ⟨⟨item, σ⟩, hparse, h⟩ := Option.bind_eq_some_iff.mp h
    obtain ⟨f', hf, h⟩ := Option.bind_eq_some_iff.mp h
    split at h
    · rename_i hread
      obtain ⟨r', hturn, h⟩ := Option.map_eq_some_iff.mp h
      cases h
      refine ⟨replay_run (by rw [hrun]; rfl), hrun, input, item, σ, hinput, hread.1, hparse,
        hread.2, hf, hturn⟩
    · cases h
  · cases h

/-- `def f(x) x` behind `extern f(x)`, where the parameters agree. -/
theorem own_parameters_iff_extern : ∃ s f r,
    ReadDefinition ["extern f(x);"] "def f(x) x;" s f r ∧
    f.codegen wholeOps s.globals = f.finish (f.argNames s.globals)
      (Athens.codegen wholeOps f.body (f.bodyState s.globals)) ∧
    OwnParameters f.proto (f.argNames s.globals) (f.bodyState s.globals) := by
  have h : ((readDefinition ["extern f(x);"] "def f(x) x;").map fun r =>
      decide (r.2.1.proto.args.Nodup ∧
        r.1.globals.theModule r.2.1.proto.name = some r.2.1.proto.args)) = some true := by
    decide +kernel
  obtain ⟨⟨s, f, r⟩, hrun, h⟩ := Option.map_eq_some_iff.mp h
  obtain ⟨hnodup, hmodule⟩ := of_decide_eq_true h
  obtain ⟨heq, hown, -⟩ := own_parameters_iff wholeOps f s.globals hnodup
  exact ⟨s, f, r, readDefinition_some hrun, heq, hown.mpr (.inr hmodule)⟩

/-- A turn that returns false. -/
def Turn.refused : Turn D → Bool
  | .return_ ok => !ok
  | .next _ => false

/-- `def f(x) x` behind `extern f(a)`: in the scope of the body there is an `a` and no
`x`, and the definition fails. -/
theorem extern_names_parameters : ∃ s f r,
    ReadDefinition ["extern f(a);"] "def f(x) x;" s f r ∧ f.proto.args.Nodup ∧
    ¬ OwnParameters f.proto (f.argNames s.globals) (f.bodyState s.globals) ∧
    ∃ s', r = .ok (.return_ false) s' := by
  have h : ((readDefinition ["extern f(a);"] "def f(x) x;").map fun r =>
      decide (r.2.1.proto.args.Nodup ∧ r.1.globals.theModule r.2.1.proto.name = some [text "a"] ∧
        r.2.1.proto.args = [text "x"]) &&
      r.2.2.value?.any Turn.refused) = some true := by
    decide +kernel
  obtain ⟨⟨s, f, r⟩, hrun, h⟩ := Option.map_eq_some_iff.mp h
  rw [Bool.and_eq_true] at h
  obtain ⟨hnodup, hmodule, hargs⟩ := of_decide_eq_true h.1
  refine ⟨s, f, r, readDefinition_some hrun, hnodup, ?_, ?_⟩
  · have hdeclared : s.globals.theModule f.proto.name = some [text "a"] := hmodule
    have hown : f.proto.args = [text "x"] := hargs
    rw [ownParameters_iff f s.globals hnodup, argNames_eq_iff f s.globals hnodup, hdeclared, hown]
    decide
  · obtain ⟨turn, hturn, hrefused⟩ := (Option.any_eq_true _ _).mp h.2
    obtain ⟨s', rfl⟩ := Outcome.ok_of_value hturn
    cases turn with
    | return_ ok =>
      cases ok with
      | false => exact ⟨s', rfl⟩
      | true => cases hrefused
    | next input => cases hrefused

end AroundTheWorld.Athens
