import AroundTheWorld.Athens.Handed
import AroundTheWorld.Athens.Prologue
import AroundTheWorld.Athens.Session

/-!
# The arity of calls

A call is generated against a declaration: the one that the module has, or one made
from `FunctionProtos`. Both are overwritten by every prototype that is read, whatever
was compiled under its name. In sessions that never give a compiled function another
number of parameters, every call fits the function that was compiled.
-/

namespace AroundTheWorld.Athens

open AroundTheWorld.Base AroundTheWorld.Lex AroundTheWorld.Llvm AroundTheWorld.Parse

variable {D : Type}

/-- The functions of this name that have been compiled take `n` arguments. -/
def Take (compiled : List (FunctionIR D)) (name : Name) (n : Nat) : Prop :=
  ∀ fn ∈ compiled, fn.name = name → fn.args.length = n

/-- Every call passes as many arguments as the compiled functions of its name take. -/
def CallsFit (compiled : List (FunctionIR D)) (code : Code D Name) : Prop :=
  ∀ l dst callee args, Instr.call dst callee args ∈ code l → Take compiled callee args.length

/-- What is known of the functions that have been compiled agrees with them. -/
structure ArityFits (compiled : List (FunctionIR D)) (s : AthensState D) : Prop where
  declared : ∀ name params, s.theModule name = some params → Take compiled name params.length
  registered : ∀ name p, s.functionProtos.find name = some p → Take compiled name p.args.length
  calls : CallsFit compiled s.builder.code

theorem setArgNames_length (n : Nat) (taken args : List Name) :
    (setArgNames n taken args).length = args.length := by
  induction args generalizing n taken with
  | nil => rfl
  | cons arg args ih =>
    rw [setArgNames]
    split <;> simp [ih]

section
variable {compiled : List (FunctionIR D)} {s : AthensState D}

theorem CallsFit.noNewCall {b b' : Builder D Name} (h : CallsFit compiled b.code)
    (hb : b.NoNewCall b') : CallsFit compiled b'.code :=
  fun l dst callee args hi => h l dst callee args (hb l _ hi rfl)

theorem ArityFits.declare (h : ArityFits compiled s) {name : Name} {params : List Name}
    (hparams : Take compiled name params.length) : ArityFits compiled
      { s with theModule := fun k => if k = name then some params else s.theModule k } := by
  refine ⟨?_, h.registered, h.calls⟩
  intro k args hk
  change (if k = name then some params else s.theModule k) = some args at hk
  by_cases hname : k = name
  · rw [if_pos hname] at hk
    cases hk
    rwa [hname]
  · rw [if_neg hname] at hk
    exact h.declared k args hk

theorem ArityFits.register (h : ArityFits compiled s) {p : PrototypeAST}
    (hp : Take compiled p.name p.args.length) :
    ArityFits compiled { s with functionProtos := s.functionProtos.insert p } := by
  refine ⟨h.declared, ?_, h.calls⟩
  intro k q hk
  by_cases hname : k = p.name
  · have hq : q = p := by simpa [ProtoTable.insert, hname, eq_comm] using hk
    rwa [hq, hname]
  · exact h.registered k q (by simpa [ProtoTable.insert, hname] using hk)

theorem PrototypeAST.codegen_arity {p : PrototypeAST} (h : ArityFits compiled s)
    (hp : Take compiled p.name p.args.length) : ∃ s',
      p.codegen s = .ok (setArgNames 0 [] p.args) s' ∧ ArityFits compiled s' := by
  unfold PrototypeAST.codegen
  cases s.theModule p.name with
  | some args => exact ⟨s, rfl, h⟩
  | none => exact ⟨_, rfl, h.declare (by rwa [setArgNames_length])⟩

theorem arityFits_invariant : CodegenInvariant (ArityFits compiled)
    (fun name params => Take compiled name params.length) (fun _ => True) where
  errors := fun _ _ hs => ⟨hs.declared, hs.registered, hs.calls⟩
  namedValues := fun _ _ hs => ⟨hs.declared, hs.registered, hs.calls⟩
  builder := fun _ _ hs hb => ⟨hs.declared, hs.registered, hs.calls.noNewCall hb⟩
  getFunction := by
    intro s name r s' hs hrun
    unfold getFunction at hrun
    cases hmodule : s.theModule name with
    | some args =>
      rw [hmodule] at hrun
      cases hrun
      refine ⟨hs, ?_, fun _ => trivial⟩
      intro params hparams
      cases hparams
      exact hs.declared name args hmodule
    | none =>
      rw [hmodule] at hrun
      cases hproto : s.functionProtos.find name with
      | none =>
        simp only [hproto] at hrun
        cases hrun
        exact ⟨hs, by simp, fun _ => trivial⟩
      | some p =>
        simp only [hproto] at hrun
        have hp : Take compiled p.name p.args.length := by
          rw [s.functionProtos.named name p hproto]
          exact hs.registered name p hproto
        obtain ⟨s₁, hcodegen, hs₁⟩ := p.codegen_arity hs hp
        rw [Gen.bind_of_ok hcodegen] at hrun
        cases hrun
        refine ⟨hs₁, ?_, fun _ => trivial⟩
        intro params hparams
        cases hparams
        rw [setArgNames_length]
        exact hs.registered name p hproto
  call := by
    intro s callee params args hs hknown hlen
    refine ⟨hs.declared, hs.registered, ?_⟩
    intro l dst callee' args' hi
    rcases Builder.mem_createCall s.builder hi with hi | hi
    · exact hs.calls l dst callee' args' hi
    · cases hi
      rwa [← hlen]

theorem CodegenInvariant.bindParams {J : AthensState D → Prop} {Known : Name → List Name → Prop}
    {Missing : Name → Prop} (hJ : CodegenInvariant J Known Missing) (hs : J s) (reg : Nat)
    (args : List Name) : J (s.bindParams reg args) := by
  induction args generalizing reg s with
  | nil => exact hs
  | cons arg args ih =>
    refine ih ?_ (reg + 1)
    have hcall : s.builder.NoNewCall
        (s.builder.createAlloca.2.createStore (.reg reg) s.builder.nextCell) :=
      (Builder.noNewCall_createAlloca s.builder).emit rfl
    exact hJ.namedValues _ _ (hJ.builder _ _ hs hcall)

/-! ## Definitions -/

/-- The number of arguments of `TheFunction`, when no other declaration is in the way. -/
theorem FunctionAST.argNames_length (f : FunctionAST D)
    (h : ∀ params, s.theModule f.proto.name = some params → params.length = f.proto.args.length) :
    (f.argNames s).length = f.proto.args.length := by
  unfold FunctionAST.argNames
  cases hmodule : s.theModule f.proto.name with
  | some params => exact h params hmodule
  | none => exact setArgNames_length _ _ _

theorem bodyState_arity (f : FunctionAST D) (h : ArityFits compiled s)
    (hp : Take compiled f.proto.name f.proto.args.length) : ArityFits compiled (f.bodyState s) := by
  refine arityFits_invariant.bindParams ?_ 0 _
  have hargs : Take compiled f.proto.name (f.argNames s).length := by
    unfold FunctionAST.argNames
    cases hmodule : s.theModule f.proto.name with
    | some params => exact h.declared _ _ hmodule
    | none => rwa [Option.getD_none, setArgNames_length]
  have hdeclared := (h.register hp).declare hargs
  refine ⟨hdeclared.declared, hdeclared.registered, ?_⟩
  intro l dst callee args hi
  cases hi

/-- Whether the body is generated or not, every call in it fits. -/
theorem FunctionAST.codegen_arity (ops : FloatOps D) (f : FunctionAST D) (h : ArityFits compiled s)
    (hp : Take compiled f.proto.name f.proto.args.length) :
    (f.codegen ops s).Within (ArityFits compiled) (fun _ => True) := by
  have hbody := arityFits_invariant.codegen (fun _ _ => trivial) ops f.body
    (fun _ _ => .inr (.inr trivial)) _ (bodyState_arity f h hp)
  rw [f.codegen_body]
  cases hrun : Athens.codegen ops f.body (f.bodyState s) with
  | ok v s₂ => rwa [hrun] at hbody
  | abort why => trivial
  | null s₂ =>
    rw [hrun] at hbody
    refine ⟨?_, hbody.registered, hbody.calls⟩
    intro name params hname
    simp only [AthensState.undefine] at hname
    split at hname
    · cases hname
    · exact hbody.declared name params hname

end

/-! ## Sessions -/

/-- Every call that has been emitted fits the functions that had been compiled before:
those of the body of each compiled function, and those of the code at hand. -/
structure Session.CallsMatch (s : Session D) : Prop where
  current : CallsFit s.handedOver s.globals.builder.code
  bodies : ∀ fn earlier, fn :: earlier <:+ s.handedOver → CallsFit earlier fn.body.code

structure Session.Fits (s : Session D) : Prop where
  globals : ArityFits s.handedOver s.globals
  bodies : ∀ fn earlier, fn :: earlier <:+ s.handedOver → CallsFit earlier fn.body.code

/-- Compiled functions of the name take as many arguments as the prototype says. -/
def Session.Admits (s : Session D) (p : PrototypeAST) : Prop :=
  Take s.handedOver p.name p.args.length

/-- And so does a declaration in the module, which the function would be made from. -/
def Session.AdmitsDefinition (s : Session D) (p : PrototypeAST) : Prop :=
  s.Admits p ∧ ∀ params, s.globals.theModule p.name = some params → params.length = p.args.length

/-- What is handed on does not give a compiled function another number of parameters. -/
def Session.Consistent (s : Session D) : Handed D → Prop
  | .definition fnAST => s.AdmitsDefinition fnAST.proto
  | .extern_ protoAST => s.Admits protoAST
  | .expression expr => s.AdmitsDefinition (anonymousFunction expr).proto

section
variable {ops : FloatOps D} {jit : List (FunctionIR D) → Bool} {ofInt : Int → D} {fuel : Nat}
  {s : Session D}

theorem handleDefinition_fits {f : FunctionAST D} (h : s.Fits) (hf : s.AdmitsDefinition f.proto) :
    (handleDefinition ops jit f s).Within Session.Fits (fun _ => True) := by
  have hcode := f.codegen_arity ops h.globals hf.1
  have htables := f.codegen_tables ops s.globals (fun _ _ => trivial : ∀ why, _ → True)
    (fun _ _ => .inr trivial)
  rw [handleDefinition_eq]
  cases hrun : f.codegen ops s.globals with
  | abort why => trivial
  | null g =>
    rw [hrun] at hcode
    exact ⟨hcode, h.bodies⟩
  | ok fnIR g =>
    simp only [hrun] at hcode htables ⊢
    by_cases hjit : jit (fnIR :: s.handedOver) = true
    · rw [if_pos hjit]
      obtain ⟨hname, hargs, hsame⟩ := FunctionAST.codegen_ok hrun
      have hlen : fnIR.args.length = f.proto.args.length := by
        rw [hargs]
        exact f.argNames_length hf.2
      refine ⟨⟨?_, ?_, ?_⟩, ?_⟩
      · intro name params hnone
        cases hnone
      · intro name q hq fn hfn hfnname
        rcases List.mem_cons.mp hfn with rfl | hfn
        · have hq' : (s.globals.functionProtos.insert f.proto).find name = some q := by
            have hprotos : g.functionProtos = s.globals.functionProtos.insert f.proto :=
              htables.functionProtos
            rw [← hprotos]
            exact hq
          rw [← hfnname, hname] at hq'
          obtain rfl : f.proto = q := by simpa [ProtoTable.insert] using hq'
          exact hlen
        · exact hcode.registered name q hq fn hfn hfnname
      · intro l dst callee args hi
        cases hi
      · intro fn earlier hsuffix
        rcases List.suffix_cons_iff.mp hsuffix with heq | hsuffix
        · cases heq
          rw [hsame]
          exact hcode.calls
        · exact h.bodies fn earlier hsuffix
    · rw [if_neg hjit]
      trivial

theorem handleExtern_fits {p : PrototypeAST} (h : s.Fits) (hp : s.Admits p) :
    (handleExtern p s : Outcome (Session D) Halt Bool).Within Session.Fits (fun _ => True) := by
  obtain ⟨g, hcodegen, hg⟩ := p.codegen_arity h.globals hp
  have hrun : handleExtern p s = .ok true
      { s with globals := { g with functionProtos := g.functionProtos.insert p } } := by
    simp only [handleExtern, Bind.bind, Gen.bind, generate, hcodegen]
    rfl
  rw [hrun]
  exact ⟨hg.register hp, h.bodies⟩

theorem Handed.handle_fits {x : Handed D} (h : s.Fits) (hx : s.Consistent x) :
    (x.handle ops jit s).Within Session.Fits (fun _ => True) := by
  cases x with
  | definition f => exact handleDefinition_fits h hx
  | extern_ p => exact handleExtern_fits h hx
  | expression expr =>
    show (handleTopLevelExpression ops jit expr s).Within _ _
    unfold handleTopLevelExpression
    split
    · exact h
    · exact handleDefinition_fits h hx

theorem Session.Fits.withTable (h : s.Fits) (table : BinopTable) : (s.withTable table).Fits :=
  ⟨⟨h.globals.declared, h.globals.registered, h.globals.calls⟩, h.bodies⟩

/-- The handlers start from the table that the parser has left. -/
theorem finishTurn_fits {x : Handed D} {σ : ParseState D BinopTable} (h : s.Fits)
    (hdiag : σ.diag = []) (hx : s.Consistent x) :
    (finishTurn (x.handle ops jit) σ s).Within Session.Fits (fun _ => True) := by
  have hsame : (s.withTable σ.globals).Consistent x := by
    cases x <;> exact hx
  have hhandle : (x.handle ops jit (s.withTable σ.globals)).Within Session.Fits (fun _ => True) :=
    Handed.handle_fits (h.withTable σ.globals) hsame
  rw [finishTurn_eq hdiag]
  cases hrun : x.handle ops jit (s.withTable σ.globals) with
  | ok handled s' =>
    rw [hrun] at hhandle
    cases handled <;> exact hhandle
  | null s' => rwa [hrun] at hhandle
  | abort why => trivial

/-- What the next turn hands on is consistent with the functions compiled so far. -/
def Stream.Consistent (ofInt : Int → D) (fuel : Nat) (input : Stream D) (s : Session D) : Prop :=
  ∀ x σ, input.handed ofInt fuel s = some (x, σ) → s.Consistent x

theorem turn_fits {input : Stream D} {r : Outcome (Session D) Halt (Turn D)} (h : s.Fits)
    (hinput : input.Consistent ofInt fuel s)
    (hturn : parseStreamTurn ops jit ofInt fuel input s = some r) :
    r.Within Session.Fits (fun _ => True) := by
  rcases parseStreamTurn_cases hturn with ⟨t, rfl⟩ | ⟨table, rfl⟩ | ⟨x, σ, hhanded, hdiag, rfl⟩
  · exact h
  · exact h.withTable table
  · exact finishTurn_fits h hdiag (hinput x σ hhanded)

end

theorem start_fits : (Session.start : Session D).Fits where
  globals := {
    declared := fun _ _ h => by cases h
    registered := fun _ _ h => by cases h
    calls := fun _ _ _ _ h => by cases h }
  bodies := fun fn earlier h => by simp [Session.start] at h

namespace Repl

def Consistent (ofInt : Int → D) (fuel : Nat) : Repl D → Prop
  | .reading input s => input.Consistent ofInt fuel s
  | _ => True

/-- The sessions in which every step is consistent. -/
abbrev ConsistentRun (ops : FloatOps D) (jit : List (FunctionIR D) → Bool) (ofInt : Int → D)
    (fuel : Nat) : Repl D → Repl D → Prop :=
  Relation.ReflTransGen fun c c' => c.Consistent ofInt fuel ∧ Step ops jit ofInt fuel c c'

def Fits : Repl D → Prop
  | .prompt s => s.Fits
  | .reading _ s => s.Fits
  | .halted _ => True

variable {ops : FloatOps D} {jit : List (FunctionIR D) → Bool} {ofInt : Int → D} {fuel : Nat}

theorem step_fits {c c' : Repl D} (hconsistent : c.Consistent ofInt fuel)
    (hstep : Step ops jit ofInt fuel c c') (hc : c.Fits) : c'.Fits := by
  cases hstep with
  | line input s => exact hc
  | next hturn => exact turn_fits hc hconsistent hturn
  | return_ hturn => exact turn_fits hc hconsistent hturn
  | halt _ => trivial

theorem run_fits {c c' : Repl D} (hrun : ConsistentRun ops jit ofInt fuel c c') (hc : c.Fits) :
    c'.Fits := by
  induction hrun with
  | refl => exact hc
  | tail _ hstep ih => exact step_fits hstep.1 hstep.2 ih

end Repl

/-- In every state of a session that never gives a compiled function another number of
parameters, every call that has been emitted passes as many arguments as the compiled
functions of its name take. -/
theorem call_arity_matches (ops : FloatOps D) (jit : List (FunctionIR D) → Bool)
    (ofInt : Int → D) (fuel : Nat) {c : Repl D}
    (hrun : Repl.ConsistentRun ops jit ofInt fuel (.prompt .start) c) :
    ∀ s, c.session = some s → s.CallsMatch := by
  have hc := Repl.run_fits hrun (start_fits : (Session.start : Session D).Fits)
  intro s hs
  have hfits : s.Fits := by
    cases c <;> cases hs <;> exact hc
  exact ⟨hfits.globals.calls, hfits.bodies⟩

/-! ## Behind the runtime -/

instance (compiled : List (FunctionIR D)) (name : Name) (n : Nat) :
    Decidable (Take compiled name n) :=
  inferInstanceAs (Decidable (∀ fn ∈ compiled, fn.name = name → fn.args.length = n))

/-- `Stream.Consistent`, computed. -/
def consistentInput (ofInt : Int → D) (fuel : Nat) (input : Stream D) (s : Session D) : Bool :=
  match input.handed ofInt fuel s with
  | none => true
  | some (x, _) =>
    let admits (p : PrototypeAST) := decide (Take s.handedOver p.name p.args.length)
    let declared (p : PrototypeAST) := (s.globals.theModule p.name).all (·.length == p.args.length)
    match x with
    | .definition f => admits f.proto && declared f.proto
    | .extern_ p => admits p
    | .expression expr =>
      admits (anonymousFunction expr).proto && declared (anonymousFunction expr).proto

/-- `parseStream`, as long as every turn is consistent. -/
def consistentStream (ops : FloatOps D) (jit : List (FunctionIR D) → Bool) (ofInt : Int → D)
    (fuel : Nat) : Nat → Stream D → Session D → Option (Session D)
  | 0, _, _ => none
  | turns + 1, input, s =>
    if consistentInput ofInt fuel input s then
      (parseStreamTurn ops jit ofInt fuel input s).bind fun
        | .ok (.next rest) s' => consistentStream ops jit ofInt fuel turns rest s'
        | .ok (.return_ _) s' => some s'
        | _ => none
    else none

section
variable {ops : FloatOps D} {jit : List (FunctionIR D) → Bool} {ofInt : Int → D} {fuel : Nat}

theorem consistent_of_input {input : Stream D} {s : Session D}
    (h : consistentInput ofInt fuel input s = true) : input.Consistent ofInt fuel s := by
  intro x σ hx
  unfold consistentInput at h
  rw [hx] at h
  cases x with
  | definition f =>
    simp only [Bool.and_eq_true, decide_eq_true_eq] at h
    refine ⟨h.1, fun params hparams => ?_⟩
    simpa [hparams] using h.2
  | extern_ p =>
    show Take s.handedOver p.name p.args.length
    exact of_decide_eq_true h
  | expression expr =>
    simp only [Bool.and_eq_true, decide_eq_true_eq] at h
    refine ⟨h.1, fun params hparams => ?_⟩
    simpa [hparams] using h.2

theorem consistentStream_run {turns : Nat} {input : Stream D} {s s' : Session D}
    (h : consistentStream ops jit ofInt fuel turns input s = some s') :
    Repl.ConsistentRun ops jit ofInt fuel (.reading input s) (.prompt s') := by
  induction turns generalizing input s with
  | zero => cases h
  | succ turns ih =>
    unfold consistentStream at h
    split at h
    · rename_i hinput
      have hconsistent := consistent_of_input hinput
      obtain ⟨r, hturn, h⟩ := Option.bind_eq_some_iff.mp h
      split at h
      · exact .head ⟨hconsistent, .next hturn⟩ (ih h)
      · cases h
        exact .single ⟨hconsistent, .return_ hturn⟩
      · cases h
    · cases h

end

/-- A call with another number of arguments than a compiled function of its name. -/
def Misfit (compiled : List (FunctionIR D)) : Instr D Name → Bool
  | .call _ callee args => compiled.any fun fn => fn.name == callee && fn.args.length != args.length
  | _ => false

theorem not_callsFit {compiled : List (FunctionIR D)} {code : Code D Name} {l : Nat}
    (h : (code l).any (Misfit compiled) = true) : ¬ CallsFit compiled code := by
  intro hfit
  obtain ⟨i, hi, hmisfit⟩ := List.any_eq_true.mp h
  cases i with
  | call dst callee args =>
    obtain ⟨fn, hfn, hother⟩ := List.any_eq_true.mp hmisfit
    rw [Bool.and_eq_true, beq_iff_eq, bne_iff_ne] at hother
    exact hother.2 (hfit l dst callee args hi fn hfn hother.1)
  | _ => cases hmisfit

/-- A call of `name`. -/
def Calls (name : Name) : Instr D Name → Bool
  | .call _ callee _ => callee == name
  | _ => false

/-- A definition, a declaration with the same number of parameters and calls of the
function: a session to which the theorem applies. -/
theorem call_arity_matches_declared : ∃ s : Session Int, s.CallsMatch ∧
    ∃ fn ∈ s.handedOver, fn.name = text "g" ∧
      ∃ dst args, Instr.call dst (text "f") args ∈ fn.body.code 0 := by
  have h : (((Stream.ofLines (runtimeDefinitions ++
        ["def f(x) x; extern f(y); def g(y) f(y + 1); g(2)"])).bind
      fun input => consistentStream wholeOps (fun _ => true) id 40 40 input .start).map fun s =>
        s.handedOver.any fun fn => fn.name == text "g" &&
          (fn.body.code 0).any (Calls (text "f"))) = some true := by
    decide +kernel
  obtain ⟨s, hs, h⟩ := Option.map_eq_some_iff.mp h
  obtain ⟨input, -, hrun⟩ := Option.bind_eq_some_iff.mp hs
  have hall := call_arity_matches wholeOps (fun _ => true) id 40
    (.head ⟨trivial, .line input .start⟩ (consistentStream_run hrun))
  refine ⟨s, hall s rfl, ?_⟩
  obtain ⟨fn, hfn, h⟩ := List.any_eq_true.mp h
  rw [Bool.and_eq_true, beq_iff_eq] at h
  obtain ⟨i, hi, hcall⟩ := List.any_eq_true.mp h.2
  cases i with
  | call dst callee args =>
    have hcallee : callee = text "f" := beq_iff_eq.mp hcall
    exact ⟨fn, hfn, h.1, dst, args, hcallee ▸ hi⟩
  | _ => cases hcall

/-- `def f(x) x`, `extern f(a b)` and then `f(1, 2)`: the function that is made for the
expression calls the compiled `f` with one argument too many. -/
theorem extern_changes_arity : ∃ s : Session Int,
    Repl.Run wholeOps (fun _ => true) id 40 (.prompt .start) (.prompt s) ∧ ¬ s.CallsMatch := by
  have h : ((replay (runtimeDefinitions ++ ["def f(x) x; extern f(a b); f(1, 2)"]) .start).bind
      Outcome.state?).map (fun s =>
        s.handedOver.head?.any fun fn => (fn.body.code 0).any (Misfit s.handedOver.tail)) =
          some true := by
    decide +kernel
  obtain ⟨s, hs, h⟩ := Option.map_eq_some_iff.mp h
  refine ⟨s, replay_run hs, fun hmatch => ?_⟩
  cases hover : s.handedOver with
  | nil =>
    rw [hover] at h
    cases h
  | cons fn earlier =>
    rw [hover] at h
    exact not_callsFit h (hmatch.bodies fn earlier (hover ▸ List.suffix_refl _))

end AroundTheWorld.Athens
