import AroundTheWorld.Agreement.Known
import AroundTheWorld.Agreement.Tested
import AroundTheWorld.Athens.Meant
import AroundTheWorld.Berlin.Accepted

/-!
# Athens and Berlin on functions without loops

Both back ends follow the reference, with tests of their own: an `if` takes a value for
true in Athens when it is ordered and not zero, in Berlin when it is unordered or not zero.
So their functions answer alike, as long as no condition is a NaN.
-/

namespace AroundTheWorld.Agreement

open AroundTheWorld.Base AroundTheWorld.Lex AroundTheWorld.Llvm AroundTheWorld.Mlir
open AroundTheWorld.Athens (AthensState ExprAST FunctionAST FunctionIR Name PrototypeAST
  noRepeat)
open AroundTheWorld.Berlin (Accepted Item ModuleState Returns)

section
variable {D W : Type}

/-- Both functions return the same value, or come to the same call that does not return. In
both cases they have made the same calls before, and these have done the same. -/
def AnswerAlike (ops : IntOps D) (callees : Callees D Name W) (fn : FunctionIR D)
    (blocks : Nat → List (Op D Name)) (m : Machine D Name W) (th : Thread D Name W) : Prop :=
  ∃ m' th', Reaches (Machine.step ops.toFloatOps callees fn.body.code) m m' ∧
    Reaches (Thread.step ops callees blocks) th th' ∧
    m'.world = th'.env.world ∧ m'.calls = th'.env.calls ∧
    (fn.body.At m' ∧ Returns th' (m'.val fn.retVal) ∨
      ∃ what, m'.Calls callees fn.body.code what ∧ th'.Calls callees what.1 what.2)

variable {ops : IntOps D} {callees : Callees D Name W} {f : FunctionAST D} {fn : FunctionIR D}
  {s g : AthensState D} {items : List (Item D)} {before t : ModuleState D} {entry : Nat}

/-- Where the two tests say the same of every condition that is come to, so do the
evaluations. -/
theorem evalFunction_ordered {params : List Name} {body : ExprAST D} {args : List D} {world : W}
    (htested : ∀ x ∈ testedFunction ops.toFloatOps callees (holds ops) params body args world,
      ops.one x ops.zero = ops.une x ops.zero) :
    evalFunction ops.toFloatOps callees (holdsOrdered ops.toFloatOps) params body args world =
      evalFunction ops.toFloatOps callees (holds ops) params body args world :=
  eval_inStep body _ _ htested

/-- A function without loops and without operators of its own, compiled by Athens with its own
parameters and by Berlin, answers alike in both. The machines may start with any memories;
the conditions of `if`s that are come to are no NaNs, for which the two comparisons with zero
differ; and where a `var` binds a name twice, no cell is read that has not been written. -/
theorem functions_agree (hconv : ∀ b : Bool, ops.sitofp (if b then 1 else 0) = ops.uitofp b)
    (callees : Callees D Name W) (hnodup : f.proto.args.Nodup) (hbuiltIn : builtIn f.body = true)
    (hathens : f.codegen ops.toFloatOps s = .ok fn g)
    (hown : s.theModule f.proto.name = none ∨ s.theModule f.proto.name = some f.proto.args)
    (hberlin : Accepted ops.toFloatOps items f before t entry)
    {args : List D} (hlen : args.length = f.proto.args.length) (world : W)
    (htested : ∀ x ∈ testedFunction ops.toFloatOps callees (holds ops) f.proto.args f.body args
      world, ops.one x ops.zero = ops.une x ops.zero)
    (hwritten : noRepeat f.body = true ∨ evalFunction ops.toFloatOps callees (holds ops)
      f.proto.args f.body args world ≠ .unknown)
    {m : Machine D Name W} (hm : Athens.Entered args world m)
    {th : Thread D Name W} (hth : Berlin.Entered t.gen.builder.blocks entry args world th) :
    AnswerAlike ops callees fn t.gen.builder.blocks m th := by
  have hparams : fn.args = f.proto.args :=
    (FunctionAST.codegen_ok hathens).2.1.trans ((Athens.argNames_eq_iff f s hnodup).mpr hown)
  obtain ⟨hresolves, cells, hrun⟩ := FunctionAST.follows hathens hbuiltIn callees
  obtain ⟨cells', hrun'⟩ := hberlin.follows hconv (loopFree_of_builtIn hbuiltIn) callees
  rw [hparams] at hresolves hrun
  have hdefined : evalFunction ops.toFloatOps callees (holds ops) f.proto.args f.body args world ≠
      .unknown := by
    rcases hwritten with hrep | hwritten
    · exact evalFunction_defined hresolves hrep hlen
    · exact hwritten
  have hathens := hrun args world m hlen hm
  have hberlin := hrun' args world th hlen hth
  rw [evalFunction_ordered htested] at hathens
  cases hev : evalFunction ops.toFloatOps callees (holds ops) f.proto.args f.body args world with
  | unknown => exact absurd hev hdefined
  | waits what st =>
    rw [hev] at hathens hberlin
    obtain ⟨m', hreach, -, hwaits⟩ := hathens
    obtain ⟨th', hreach', -, hwaits'⟩ := hberlin
    exact ⟨m', th', hreach, hreach', hwaits.mem.world.trans hwaits'.mem.world.symm,
      hwaits.mem.calls.trans hwaits'.mem.calls.symm, .inr ⟨what, hwaits.call, hwaits'.call⟩⟩
  | done x st =>
    rw [hev] at hathens hberlin
    obtain ⟨m', hreach, hwent⟩ := hathens
    obtain ⟨th', hreach', hreturns, hworld, hcalls⟩ := hberlin
    refine ⟨m', th', hreach, hreach', hwent.stands.mem.world.trans hworld.symm,
      hwent.stands.mem.calls.trans hcalls.symm, .inl ⟨hwent.stands.at_, ?_⟩⟩
    rw [hwent.read]
    exact hreturns

end

/-! ## Answers that are computed -/

section
variable {D W : Type}

/-- The value of a function of Athens in front of its `ret`. -/
def athensValue (fn : FunctionIR D) (m : Machine D Name W) : Option D :=
  if m.block = fn.body.insertBlock ∧ m.index = (fn.body.code fn.body.insertBlock).length then
    some (m.val fn.retVal)
  else none

/-- The value of a function of Berlin in front of its `func.return`. -/
def berlinValue (th : Thread D Name W) : Option D :=
  match th.todo, th.around with
  | .returnOp val :: _, [] => some (th.env.floats val)
  | _, _ => none

variable {ops : IntOps D} {callees : Callees D Name W} {fn : FunctionIR D}
  {blocks : Nat → List (Op D Name)} {m : Machine D Name W} {th : Thread D Name W} {n k : Nat}
  {x y : D}

theorem athensValue_iff : athensValue fn m = some x ↔ fn.body.At m ∧ m.val fn.retVal = x := by
  unfold athensValue
  constructor
  · intro h
    split at h
    · rename_i hend
      exact ⟨⟨hend.1, hend.2⟩, Option.some.inj h⟩
    · cases h
  · rintro ⟨hat, rfl⟩
    exact if_pos ⟨hat.block, hat.index⟩

theorem berlinValue_iff : berlinValue th = some x ↔ Returns th x := by
  unfold berlinValue
  constructor
  · intro h
    split at h
    · rename_i val rest htodo haround
      exact ⟨val, rest, htodo, haround, Option.some.inj h⟩
    · cases h
  · rintro ⟨val, rest, htodo, haround, rfl⟩
    rw [htodo, haround]

theorem halted_of_returns (h : Returns th x) : th.step ops callees blocks = none := by
  obtain ⟨val, rest, htodo, haround, -⟩ := h
  rw [Thread.step, htodo, haround]
  rfl

/-- Functions that return different values do not answer alike. -/
theorem not_answerAlike
    (h : athensValue fn (settle (Machine.step ops.toFloatOps callees fn.body.code) n m) = some x)
    (h' : berlinValue (settle (Thread.step ops callees blocks) k th) = some y) (hne : x ≠ y) :
    ¬ AnswerAlike ops callees fn blocks m th := by
  obtain ⟨hat, hx⟩ := athensValue_iff.mp h
  have hreturns := berlinValue_iff.mp h'
  rintro ⟨m', th', hreach, hreach', -, -, ⟨hat', hval⟩ | ⟨what, hcall, -⟩⟩
  · have hm := (reaches_settle n m).halted_unique hat.halted.1 hreach hat'.halted.1
    have hth := (reaches_settle k th).halted_unique (halted_of_returns hreturns) hreach'
      (halted_of_returns hval)
    rw [hm, hth, hx] at hval
    exact hne (Option.some.inj ((berlinValue_iff.mpr hval).symm.trans h'))
  · have hm := (reaches_settle n m).halted_unique hat.halted.1 hreach hcall.step
    obtain ⟨⟨dst, vals, hfetch, -⟩, -⟩ := hcall
    rw [hm, hat.block, hat.index] at hfetch
    simp at hfetch

theorem getD_of_getElem? {args : List D} {d z : D} {i : Nat} (h : args[i]? = some z) :
    args.getD i d = z := by
  rw [List.getD_eq_getElem?_getD, h]
  rfl

/-- At the beginning of a function of Berlin, with what is left in the memory. -/
def startThread (ops : IntOps D) (blocks : Nat → List (Op D Name)) (mem : Nat → D) (args : List D)
    (world : W) : Thread D Name W :=
  ⟨⟨fun r => args.getD r ops.zero, fun _ => false, fun _ => 0, mem, world, []⟩, blocks 0, []⟩

/-- A function without loops and without operators of its own, which both back ends accept, and
machines on which it does not answer alike. -/
def Differs (ops : IntOps D) (f : FunctionAST D) (s : AthensState D) (args : List D) : Prop :=
  (f.proto.args.Nodup ∧ builtIn f.body = true ∧ args.length = f.proto.args.length) ∧
  ∃ fn g before t entry, f.codegen ops.toFloatOps s = .ok fn g ∧
    Accepted ops.toFloatOps [] f before t entry ∧
    ∃ (m : Machine D Name Unit) (th : Thread D Name Unit), Athens.Entered args () m ∧
      Berlin.Entered t.gen.builder.blocks entry args () th ∧
      ¬ AnswerAlike ops (fun _ _ _ => none) fn t.gen.builder.blocks m th

theorem entered_startThread (blocks : Nat → List (Op D Name)) (mem : Nat → D) (args : List D)
    (world : W) : Berlin.Entered blocks 0 args world (startThread ops blocks mem args world) :=
  ⟨rfl, rfl, fun _ _ h => getD_of_getElem? h, rfl, rfl⟩

theorem entered_startMachine (mem : Nat → D) (args : List D) (world : W) :
    Athens.Entered args world { Athens.startMachine ops.toFloatOps args world with mem } :=
  ⟨rfl, rfl, fun _ _ h => getD_of_getElem? h, rfl, rfl⟩

theorem accepted_alone {f : FunctionAST D} {t : ModuleState D}
    (h : (Berlin.genFunction ops.toFloatOps f {}).toOption = some t)
    (ht : 0 ∈ t.topLevel ∧ t.entryOf 0 = some 0) :
    Accepted ops.toFloatOps [] f {} t 0 := by
  cases hrun : Berlin.genFunction ops.toFloatOps f {} with
  | error why =>
    rw [hrun] at h
    cases h
  | ok t' =>
    rw [hrun] at h
    cases h
    exact ⟨rfl, hrun, ht.1, ht.2⟩

theorem differs_of_values {f : FunctionAST D} {s : AthensState D} {args : List D} (n : Nat)
    (x y : D) (mem mem' : Nat → D)
    (hf : f.proto.args.Nodup ∧ builtIn f.body = true ∧ args.length = f.proto.args.length)
    (h : (f.codegen ops.toFloatOps s).value?.bind (fun fn => athensValue fn
      (settle (Machine.step ops.toFloatOps (fun _ _ _ => none) fn.body.code) n
        { Athens.startMachine ops.toFloatOps args () with mem })) = some x)
    (h' : (Berlin.genFunction ops.toFloatOps f {}).toOption.bind (fun t =>
      if 0 ∈ t.topLevel ∧ t.entryOf 0 = some 0 then berlinValue
        (settle (Thread.step ops (fun _ _ _ => none) t.gen.builder.blocks) n
          (startThread ops t.gen.builder.blocks mem' args ()))
      else none) = some y)
    (hne : x ≠ y) : Differs ops f s args := by
  obtain ⟨fn, hfn, hx⟩ := Option.bind_eq_some_iff.mp h
  obtain ⟨g, hfn⟩ := Outcome.ok_of_value hfn
  obtain ⟨t, ht, hy⟩ := Option.bind_eq_some_iff.mp h'
  split at hy
  case isFalse => cases hy
  rename_i hstays
  exact ⟨hf, fn, g, {}, t, 0, hfn, accepted_alone ht hstays, _, _,
    entered_startMachine mem args (), entered_startThread _ mem' args (), not_answerAlike hx hy hne⟩

end

/-! ## Whole numbers and a NaN -/

/-- Whole numbers, and a NaN that is unordered with everything, in place of doubles. -/
def nanOps : IntOps (Option Int) where
  add x y := x.bind fun x => y.map (x + ·)
  sub x y := x.bind fun x => y.map (x - ·)
  mul x y := x.bind fun x => y.map (x * ·)
  ult x y := (x.bind fun x => y.map fun y => decide (x < y)).getD true
  one x y := (x.bind fun x => y.map fun y => decide (x ≠ y)).getD false
  une x y := (x.bind fun x => y.map fun y => decide (x ≠ y)).getD true
  zero := some 0
  unit := some 1
  fptosi x := x.getD 0
  sitofp n := some n
  toUnsigned x := (x.getD 0).toNat

/-- The comparisons with zero say the same of everything that is not a NaN. -/
theorem nanOps_one_eq_une {x : Option Int} :
    nanOps.one x nanOps.zero = nanOps.une x nanOps.zero ↔ x ≠ none := by
  cases x <;> simp [nanOps]

/-- `def f(x) if x < 3 then (var y = x in y = y + 1) else g(x)`. -/
def stepOrAsk : FunctionAST (Option Int) where
  proto := { name := text "f", args := [text "x"] }
  body := .ifExpr (.binaryExpr (byte '<') (.variableExpr (text "x")) (.numberExpr (some 3)))
    (.varExpr [(text "y", .variableExpr (text "x"))]
      (.binaryExpr (byte '=') (.variableExpr (text "y"))
        (.binaryExpr (byte '+') (.variableExpr (text "y")) (.numberExpr (some 1)))))
    (.callExpr (text "g") [.variableExpr (text "x")])

/-- In Athens, a function `g` of one argument. -/
def withG : AthensState (Option Int) where
  functionProtos := .insert .empty { name := text "g", args := [text "x"] }

/-- A function that is called returns its argument, and counts the calls. -/
def counting : Callees (Option Int) Name Nat := fun _ args n => some (args.headD none, n + 1)

theorem functions_agree_stepOrAsk : ∃ fn g before t,
    stepOrAsk.codegen nanOps.toFloatOps withG = .ok fn g ∧
    Accepted nanOps.toFloatOps [] stepOrAsk before t 0 ∧
    AnswerAlike nanOps counting fn t.gen.builder.blocks
      { Athens.startMachine nanOps.toFloatOps [some 5] 0 with mem := fun _ => none }
      (startThread nanOps t.gen.builder.blocks (fun _ => some 0) [some 5] 0) := by
  have hathens : ((stepOrAsk.codegen nanOps.toFloatOps withG).value?.map (·.name)) =
      some (text "f") := by decide +kernel
  have hberlin : ((Berlin.genFunction nanOps.toFloatOps stepOrAsk {}).toOption.map fun t =>
      decide (0 ∈ t.topLevel ∧ t.entryOf 0 = some 0)) = some true := by decide +kernel
  obtain ⟨fn, hfn, -⟩ := Option.map_eq_some_iff.mp hathens
  obtain ⟨g, hfn⟩ := Outcome.ok_of_value hfn
  obtain ⟨t, ht, hstays⟩ := Option.map_eq_some_iff.mp hberlin
  have haccepted := accepted_alone ht (of_decide_eq_true hstays)
  have hnumbers : ∀ x ∈ testedFunction nanOps.toFloatOps counting (holds nanOps)
      stepOrAsk.proto.args stepOrAsk.body [some 5] 0, x ≠ none := by decide +kernel
  refine ⟨fn, g, {}, t, hfn, haccepted, ?_⟩
  exact functions_agree (by decide) counting (by decide) (by decide) hfn (.inl rfl) haccepted rfl 0
    (fun x hx => nanOps_one_eq_une.mpr (hnumbers x hx)) (.inl (by decide))
    (entered_startMachine _ _ _) (entered_startThread _ _ _ _)

/-- `def f(y) if y then 1 else 2`. -/
def branching : FunctionAST (Option Int) where
  proto := { name := text "f", args := [text "y"] }
  body := .ifExpr (.variableExpr (text "y")) (.numberExpr (some 1)) (.numberExpr (some 2))

/-- `extern f(a b)`. -/
def declared : PrototypeAST := { name := text "f", args := [text "a", text "b"] }

/-- `def f(b a) a - b`. -/
def subtracting : FunctionAST (Option Int) where
  proto := { name := text "f", args := [text "b", text "a"] }
  body := .binaryExpr (byte '-') (.variableExpr (text "a")) (.variableExpr (text "b"))

/-- `def f(x) if x then (var x = 1, x = 2 in x) else x`. -/
def leaking : FunctionAST (Option Int) where
  proto := { name := text "f", args := [text "x"] }
  body := .ifExpr (.variableExpr (text "x"))
    (.varExpr [(text "x", .numberExpr (some 1)), (text "x", .numberExpr (some 2))]
      (.variableExpr (text "x")))
    (.variableExpr (text "x"))

/-- Athens takes the `else` of `branching` for a NaN, Berlin the `then`. Behind `extern f(a b)`
the parameters of `subtracting` are swapped in Athens. With 0, `leaking` reads the cell of the
first `x` of a list that has not been run. -/
theorem functions_differ : Differs nanOps branching {} [none] ∧
    (∃ names s, declared.codegen {} = .ok names s ∧ Differs nanOps subtracting s [some 5, some 3]) ∧
    Differs nanOps leaking {} [some 0] := by
  refine ⟨?_, ⟨_, _, rfl, ?_⟩, ?_⟩
  · exact differs_of_values 20 (some 2) (some 1) (fun _ => some 0) (fun _ => some 0)
      (by decide) (by decide +kernel) (by decide +kernel) (by decide)
  · exact differs_of_values 20 (some 2) (some (-2)) (fun _ => some 0) (fun _ => some 0)
      (by decide) (by decide +kernel) (by decide +kernel) (by decide)
  · exact differs_of_values 20 (some 7) (some 0) (fun _ => some 7) (fun _ => some 0)
      (by decide) (by decide +kernel) (by decide +kernel) (by decide)

end AroundTheWorld.Agreement
