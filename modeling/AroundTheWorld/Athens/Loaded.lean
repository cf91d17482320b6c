import AroundTheWorld.Athens.Handed
import AroundTheWorld.Athens.Linked
import AroundTheWorld.Athens.Session

/-!
# What a session has loaded

Each function that the JIT has been handed was compiled from a definition or from an
expression that the parser returned. A session that has loaded some definitions answers
calls as these do when they call each other. Of two functions of one name the later one is
found: the JIT refuses a second one, but the module of an expression is removed once it has
been evaluated.
-/

namespace AroundTheWorld.Athens

open AroundTheWorld.Base AroundTheWorld.Lex AroundTheWorld.Llvm AroundTheWorld.Parse

variable {D W : Type}

/-- The function that is generated for what is handed on. -/
def Handed.function : Handed D → Option (FunctionAST D)
  | .definition fnAST => some fnAST
  | .extern_ _ => none
  | .expression .null => none
  | .expression expr => some (anonymousFunction expr)

def Stream.function (ofInt : Int → D) (fuel : Nat) (input : Stream D) (s : Session D) :
    Option (FunctionAST D) :=
  (input.handed ofInt fuel s).bind fun x => x.1.function

/-- The function is compiled in the scope of its own parameters, and no `var` of its body
binds a name twice. -/
structure FunctionAST.Plain (f : FunctionAST D) (s : AthensState D) : Prop where
  nodup : f.proto.args.Nodup
  own : s.theModule f.proto.name = none ∨ s.theModule f.proto.name = some f.proto.args
  noRepeat : noRepeat f.body = true

section
variable {ops : FloatOps D} {jit : List (FunctionIR D) → Bool} {ofInt : Int → D} {fuel : Nat}

theorem Handed.handle_function (x : Handed D) : x.handle ops jit =
    match x.function with
    | some f => handleDefinition ops jit f
    | none =>
      match x with
      | .extern_ p => handleExtern p
      | _ => pure false := by
  cases x with
  | definition f => rfl
  | extern_ p => rfl
  | expression expr => cases expr <;> rfl

theorem handleDefinition_ok {f : FunctionAST D} {s s' : Session D} {handled : Bool}
    (h : handleDefinition ops jit f s = .ok handled s') :
    (handled = false ∧ s'.handedOver = s.handedOver) ∨
    handled = true ∧ ∃ fn g, f.codegen ops s.globals = .ok fn g ∧
      s'.handedOver = fn :: s.handedOver := by
  rw [handleDefinition_eq] at h
  cases hcode : f.codegen ops s.globals with
  | ok fn g =>
    rw [hcode] at h
    dsimp only at h
    split at h
    · cases h
      exact .inr ⟨rfl, fn, g, rfl, rfl⟩
    · cases h
  | null g =>
    rw [hcode] at h
    cases h
    exact .inl ⟨rfl, rfl⟩
  | abort why =>
    rw [hcode] at h
    cases h

theorem handleExtern_handedOver {p : PrototypeAST} {s s' : Session D} {handled : Bool}
    (h : handleExtern p s = .ok handled s') : s'.handedOver = s.handedOver := by
  obtain ⟨m, hcodegen, -⟩ := p.codegen_eq s.globals
  simp only [handleExtern, Bind.bind, Gen.bind, generate, hcodegen] at h
  cases h
  rfl

/-- What a handler that returns adds to the functions that the JIT has. -/
theorem Handed.handle_handedOver {x : Handed D} {s s' : Session D} {handled : Bool}
    (h : x.handle ops jit s = .ok handled s') :
    (handled = false ∨ x.function = none) ∧ s'.handedOver = s.handedOver ∨
    ∃ f fn g, handled = true ∧ x.function = some f ∧ f.codegen ops s.globals = .ok fn g ∧
      s'.handedOver = fn :: s.handedOver := by
  rw [x.handle_function] at h
  cases hf : x.function with
  | some f =>
    rw [hf] at h
    rcases handleDefinition_ok h with ⟨hfalse, hsame⟩ | ⟨htrue, fn, g, hcode, hnew⟩
    · exact .inl ⟨.inl hfalse, hsame⟩
    · exact .inr ⟨f, fn, g, htrue, rfl, hcode, hnew⟩
  | none =>
    rw [hf] at h
    cases x with
    | extern_ p => exact .inl ⟨.inr rfl, handleExtern_handedOver h⟩
    | _ =>
      cases h
      exact .inl ⟨.inr rfl, rfl⟩

theorem finishTurn_handedOver {x : Handed D} {σ : ParseState D BinopTable} {s s' : Session D}
    {t : Turn D} (hdiag : σ.diag = []) (h : finishTurn (x.handle ops jit) σ s = .ok t s') :
    (∃ handled, t = .return_ handled) ∧ s'.handedOver = s.handedOver ∨
    (∃ rest, t = .next rest) ∧ (x.function = none ∧ s'.handedOver = s.handedOver ∨
      ∃ f fn g, x.function = some f ∧ f.codegen ops (s.withTable σ.globals).globals = .ok fn g ∧
        s'.handedOver = fn :: s.handedOver) := by
  rw [finishTurn_eq hdiag] at h
  cases hrun : x.handle ops jit (s.withTable σ.globals) with
  | null s₁ =>
    rw [hrun] at h
    cases h
  | abort why =>
    rw [hrun] at h
    cases h
  | ok handled s₁ =>
    rw [hrun] at h
    cases handled with
    | false =>
      cases h
      rcases Handed.handle_handedOver hrun with ⟨-, hsame⟩ | ⟨f, fn, g, htrue, -⟩
      · exact .inl ⟨⟨false, rfl⟩, hsame⟩
      · cases htrue
    | true =>
      cases h
      refine .inr ⟨⟨_, rfl⟩, ?_⟩
      rcases Handed.handle_handedOver hrun with
        ⟨hfalse | hnone, hsame⟩ | ⟨f, fn, g, -, hf, hcode, hnew⟩
      · cases hfalse
      · exact .inl ⟨hnone, hsame⟩
      · exact .inr ⟨f, fn, g, hf, hcode, hnew⟩

/-- A turn that goes on has added what it was handed; one that returns has added nothing. -/
theorem turn_handedOver {input : Stream D} {s s' : Session D} {t : Turn D}
    (h : parseStreamTurn ops jit ofInt fuel input s = some (.ok t s')) :
    (∃ handled, t = .return_ handled) ∧ s'.handedOver = s.handedOver ∨
    (∃ rest, t = .next rest) ∧ (input.function ofInt fuel s = none ∧ s'.handedOver = s.handedOver ∨
      ∃ f fn g table, input.function ofInt fuel s = some f ∧
        f.codegen ops (s.withTable table).globals = .ok fn g ∧
        s'.handedOver = fn :: s.handedOver) := by
  by_cases heof : (Parser.current (input.context s)).kind = .eof
  · simp only [parseStreamTurn, heof] at h
    cases h
    exact .inl ⟨⟨true, rfl⟩, rfl⟩
  by_cases hsemicolon : (Parser.current (input.context s)).kind = .semicolon
  · simp only [parseStreamTurn, hsemicolon] at h
    cases h
    refine .inr ⟨⟨_, rfl⟩, .inl ⟨?_, rfl⟩⟩
    simp only [Stream.function, Stream.handed, hsemicolon, Option.bind_none]
  rcases parseStreamTurn_at h heof hsemicolon with ⟨table, hr⟩ | ⟨x, σ, hx, hdiag, hr⟩
  · cases hr
    exact .inl ⟨⟨false, rfl⟩, rfl⟩
  · have hfunction : input.function ofInt fuel s = x.function := by
      rw [Stream.function, hx]
      rfl
    rw [hfunction]
    refine (finishTurn_handedOver hdiag hr.symm).imp_right (And.imp_right (Or.imp_right ?_))
    rintro ⟨f, fn, g, hf, hcode, hnew⟩
    exact ⟨f, fn, g, σ.globals, hf, hcode, hnew⟩

end

/-! ## Runs that define -/

section
variable (ops : FloatOps D) (jit : List (FunctionIR D) → Bool) (ofInt : Int → D) (fuel : Nat)

/-- What the turn hands on is compiled in its own scope. -/
def Repl.Plain : Repl D → Prop
  | .reading input s => ∀ f, input.function ofInt fuel s = some f → f.Plain s.globals
  | _ => True

abbrev Repl.PlainRun : Repl D → Repl D → Prop :=
  Relation.ReflTransGen fun c c' => c.Plain ofInt fuel ∧ Step ops jit ofInt fuel c c'

/-- A run of this kind gets to the state with these definitions loaded, the last one
first. -/
inductive Repl.Defines : Repl D → List (FunctionAST D) → Prop where
  | start : Defines (.prompt .start) []
  | line {s : Session D} {defs : List (FunctionAST D)} (input : Stream D) :
      Defines (.prompt s) defs → Defines (.reading input s) defs
  | next {input rest : Stream D} {s s' : Session D} {defs : List (FunctionAST D)} :
      Defines (.reading input s) defs → (Repl.reading input s).Plain ofInt fuel →
      parseStreamTurn ops jit ofInt fuel input s = some (.ok (.next rest) s') →
      Defines (.reading rest s') ((input.function ofInt fuel s).toList ++ defs)
  | return_ {input : Stream D} {s s' : Session D} {ok : Bool} {defs : List (FunctionAST D)} :
      Defines (.reading input s) defs →
      parseStreamTurn ops jit ofInt fuel input s = some (.ok (.return_ ok) s') →
      Defines (.prompt s') defs
  | halt {input : Stream D} {s : Session D} {why : Halt} {defs : List (FunctionAST D)} :
      Defines (.reading input s) defs →
      parseStreamTurn ops jit ofInt fuel input s = some (.abort why) → Defines (.halted why) defs

end

section
variable {ops : FloatOps D} {jit : List (FunctionIR D) → Bool} {ofInt : Int → D} {fuel : Nat}

theorem exists_defines {c : Repl D} (hrun : Repl.PlainRun ops jit ofInt fuel (.prompt .start) c) :
    ∃ defs, Repl.Defines ops jit ofInt fuel c defs := by
  induction hrun with
  | refl => exact ⟨[], .start⟩
  | tail _ hstep ih =>
    obtain ⟨defs, hdefs⟩ := ih
    obtain ⟨hplain, hstep⟩ := hstep
    cases hstep with
    | line input s => exact ⟨defs, hdefs.line input⟩
    | next hturn => exact ⟨_, hdefs.next hplain hturn⟩
    | return_ hturn => exact ⟨defs, hdefs.return_ hturn⟩
    | halt hturn => exact ⟨defs, hdefs.halt hturn⟩

theorem FunctionAST.Plain.compiledFrom {f : FunctionAST D} {s g : AthensState D}
    {fn : FunctionIR D} (h : f.Plain s) (hcode : f.codegen ops s = .ok fn g) :
    CompiledFrom ops f fn where
  generated := ⟨s, g, hcode⟩
  params := (FunctionAST.codegen_ok hcode).2.1.trans ((argNames_eq_iff f s h.nodup).mpr h.own)
  noRepeat := h.noRepeat

/-- Every function that the JIT has comes from its own definition. -/
theorem Repl.Defines.compiled {c : Repl D} {defs : List (FunctionAST D)}
    (h : Repl.Defines ops jit ofInt fuel c defs) :
    ∀ s, c.session = some s → List.Forall₂ (CompiledFrom ops) defs s.handedOver := by
  induction h with
  | start =>
    intro s hs
    cases hs
    exact .nil
  | line input _ ih => exact ih
  | @next input rest s s' defs _ hplain hturn ih =>
    intro s₁ hs₁
    cases hs₁
    rcases turn_handedOver hturn with ⟨⟨_, hreturn⟩, -⟩ | ⟨-, ⟨hnone, hsame⟩ | hnew⟩
    · cases hreturn
    · rw [hnone, hsame]
      exact ih s rfl
    · obtain ⟨f, fn, g, table, hf, hcode, hnew⟩ := hnew
      rw [hf, hnew]
      have hf' : f.Plain (s.withTable table).globals :=
        ⟨(hplain f hf).nodup, (hplain f hf).own, (hplain f hf).noRepeat⟩
      exact .cons (hf'.compiledFrom hcode) (ih s rfl)
  | @return_ input s s' ok defs _ hturn ih =>
    intro s₁ hs₁
    cases hs₁
    rcases turn_handedOver hturn with ⟨-, hsame⟩ | ⟨⟨_, hnext⟩, -⟩
    · rw [hsame]
      exact ih s rfl
    · cases hnext
  | halt _ _ _ =>
    intro s hs
    cases hs

end

/-- In every state of a session, what has been loaded answers calls exactly as the
definitions do that it was compiled from. -/
theorem loaded_answers_iff (ops : FloatOps D) (jit : List (FunctionIR D) → Bool) (ofInt : Int → D)
    (fuel : Nat) {c : Repl D} (hrun : Repl.PlainRun ops jit ofInt fuel (.prompt .start) c) :
    (∃ defs, Repl.Defines ops jit ofInt fuel c defs) ∧
    ∀ defs, Repl.Defines ops jit ofInt fuel c defs → ∀ s, c.session = some s →
      ∀ (ext : Callees D Name W) (call : Call D W) (r : D × W),
        (linked ops ext s.handedOver).Answers call r ↔
          ∃ N, meaning (callDefinition ops ext defs) N call = some r :=
  ⟨exists_defines hrun, fun _ hdefs s hs ext call r =>
    linked_answers_iff (hdefs.compiled s hs) ext call r⟩

/-! ## Lines that are loaded -/

section
variable (ops : FloatOps D) (jit : List (FunctionIR D) → Bool) (ofInt : Int → D) (fuel : Nat)

def plainTurn (input : Stream D) (s : Session D) : Bool :=
  (input.function ofInt fuel s).all fun f => decide (f.proto.args.Nodup ∧
    (s.globals.theModule f.proto.name = none ∨
      s.globals.theModule f.proto.name = some f.proto.args) ∧ noRepeat f.body = true)

/-- `parseStream` as long as every turn is plain, with what it defines. -/
def plainStream : Nat → Stream D → Session D → List (FunctionAST D) →
    Option (Session D × List (FunctionAST D))
  | 0, _, _, _ => none
  | turns + 1, input, s, defs =>
    if plainTurn ofInt fuel input s then
      (parseStreamTurn ops jit ofInt fuel input s).bind fun
        | .ok (.next rest) s' =>
          plainStream turns rest s' ((input.function ofInt fuel s).toList ++ defs)
        | .ok (.return_ _) s' => some (s', defs)
        | _ => none
    else none

variable {ops jit ofInt fuel}

theorem plain_of_plainTurn {input : Stream D} {s : Session D}
    (h : plainTurn ofInt fuel input s = true) : (Repl.reading input s).Plain ofInt fuel := by
  intro f hf
  rw [plainTurn, hf] at h
  obtain ⟨hnodup, hown, hrep⟩ := of_decide_eq_true h
  exact ⟨hnodup, hown, hrep⟩

theorem plainStream_defines {turns : Nat} {input : Stream D} {s s' : Session D}
    {defs defs' : List (FunctionAST D)}
    (h : plainStream ops jit ofInt fuel turns input s defs = some (s', defs')) :
    Repl.PlainRun ops jit ofInt fuel (.reading input s) (.prompt s') ∧
      (Repl.Defines ops jit ofInt fuel (.reading input s) defs →
        Repl.Defines ops jit ofInt fuel (.prompt s') defs') := by
  induction turns generalizing input s defs with
  | zero => cases h
  | succ turns ih =>
    unfold plainStream at h
    split at h
    · rename_i hplain
      have hplain := plain_of_plainTurn hplain
      obtain ⟨r, hturn, h⟩ := Option.bind_eq_some_iff.mp h
      split at h
      · obtain ⟨hrun, hdefs⟩ := ih h
        exact ⟨.head ⟨hplain, .next hturn⟩ hrun, fun hd => hdefs (hd.next hplain hturn)⟩
      · cases h
        exact ⟨.single ⟨hplain, .return_ hturn⟩, fun hd => hd.return_ hturn⟩
      · cases h
    · cases h

end

/-- The runtime, the factorial, and a line that calls it. -/
theorem loaded_answers_iff_factorial : ∃ (s : Session Int) (defs : List (FunctionAST Int)),
    Repl.Defines wholeOps (fun _ => true) id 40 (.prompt s) defs ∧
    (linked wholeOps (fun _ _ _ => none) s.handedOver).Answers (text "__anon_expr", [], ())
    (120, ()) := by
  have h : (((Stream.ofLines (runtimeDefinitions ++
      ["def f(n) if n < 2 then 1 else n * f(n - 1);", "f(5);"])).bind fun input =>
        plainStream wholeOps (fun _ => true) id 40 40 input .start []).map fun r =>
      decide ((meaning (callDefinition wholeOps (fun _ _ _ => none) r.2) 8
        (text "__anon_expr", [], ())) = some ((120 : Int), ()))) = some true := by
    decide +kernel
  obtain ⟨⟨s, defs⟩, hload, h⟩ := Option.map_eq_some_iff.mp h
  obtain ⟨input, -, hload⟩ := Option.bind_eq_some_iff.mp hload
  obtain ⟨hrun, hdefs⟩ := plainStream_defines hload
  have hdefs := hdefs (.line input .start)
  have hall := loaded_answers_iff (W := Unit) wholeOps (fun _ => true) id 40
    (.head ⟨trivial, .line input .start⟩ hrun)
  exact ⟨s, defs, hdefs, (hall.2 defs hdefs s rfl _ _ _).mpr ⟨8, of_decide_eq_true h⟩⟩

end AroundTheWorld.Athens
