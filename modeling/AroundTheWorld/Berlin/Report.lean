import AroundTheWorld.Athens.Runtime
import AroundTheWorld.Berlin.Failure
import AroundTheWorld.Berlin.Structure

/-!
# Berlin's reports of failures

`genFunction` erases a function whose body is null and returns nothing, the builder
goes on inside the erased function, and `ParseFile` does not learn of it. Such a run
ends well, or creates an operation in what has been erased, unless nothing follows
but a syntax error, or the declarations in front are rejected on their own.
-/

namespace AroundTheWorld.Berlin

open AroundTheWorld.Base AroundTheWorld.Lex AroundTheWorld.Mlir
open AroundTheWorld.Athens (ExprAST FunctionAST PrototypeAST Name)
open AroundTheWorld.Llvm (FloatOps wholeOps)

variable {D : Type} (ops : FloatOps D)

/-- `genFunction` comes to the body, and does not generate it. -/
def BodyFails (f : FunctionAST D) (s : ModuleState D) : Prop :=
  ∃ func s₁ s₂, s.createFunc f.proto = .ok (func, s₁) ∧ s₁.pushBack func = .ok s₂ ∧
    (genEntry ops f (s₂.addEntryBlock func f.proto.args.length).1
      (s₂.addEntryBlock func f.proto.args.length).2.1
      (s₂.addEntryBlock func f.proto.args.length).2.2.gen).state? = none

/-- A run over the items comes to a body that fails. -/
def RunFails (items : List (Item D)) : Prop :=
  ∃ before f after s, items = before ++ .function f :: after ∧ genItems ops before {} = .ok s ∧
    BodyFails ops f s

/-- The run has not ended in success, and has not created an operation in an erased one. -/
def Ending.Reports (ending : Ending) : Prop :=
  ending ≠ .returned 0 ∧ ending ≠ .crashed (.aborted .insertIntoErased)

/-- No operation follows a loop that is erased in the first definition, and if this
one fails, it is the last item, in front of a syntax error or behind two declarations
of one name. -/
def Source.FailsLast (source : Source D) : Prop :=
  ∀ (protos : List PrototypeAST) f rest, source.items = protos.map Item.prototype ++
    .function f :: rest →
    fate f ≠ .strayed ∧ (fate f = .failed → rest = [] ∧
      ((∃ line, source.ending = .rejected line) ∨ ¬ (protos.map (·.name)).Nodup))

variable {ops}

/-! ## The first definition -/

theorem items_cases (items : List (Item D)) :
    (∃ protos : List PrototypeAST, items = protos.map Item.prototype) ∨
    ∃ (protos : List PrototypeAST) (f : FunctionAST D) (rest : List (Item D)),
      items = protos.map Item.prototype ++ .function f :: rest := by
  induction items with
  | nil => exact .inl ⟨[], rfl⟩
  | cons item items ih =>
    cases item with
    | function f => exact .inr ⟨[], f, items, rfl⟩
    | prototype p =>
      rcases ih with ⟨protos, rfl⟩ | ⟨protos, f, rest, rfl⟩
      · exact .inl ⟨p :: protos, rfl⟩
      · exact .inr ⟨p :: protos, f, rest, rfl⟩

theorem first_unique {protos protos' : List PrototypeAST} {f f' : FunctionAST D}
    {rest rest' : List (Item D)} (h : protos.map Item.prototype ++ .function f :: rest =
      protos'.map Item.prototype ++ .function f' :: rest') : protos = protos' ∧ f = f' ∧
        rest = rest' := by
  induction protos generalizing protos' with
  | nil =>
    cases protos' with
    | nil =>
      cases h
      exact ⟨rfl, rfl, rfl⟩
    | cons p protos' => cases h
  | cons p protos ih =>
    cases protos' with
    | nil => cases h
    | cons p' protos' =>
      injection h with hhead htail
      cases hhead
      obtain ⟨rfl, rfl, rfl⟩ := ih htail
      exact ⟨rfl, rfl, rfl⟩

/-- The body of the first definition, by its fate. -/
theorem runEntry_fate (ops : FloatOps D) {f : FunctionAST D} {s : ModuleState D}
    (hgen : s.gen = {}) : (fate f = .generated ∧ ∃ gen, runEntry ops f s = .ok () gen) ∨
    (fate f = .failed ∧ ∃ gen, runEntry ops f s = .null gen) ∨
    (fate f = .strayed ∧ runEntry ops f s = .abort .insertIntoErased) ∨
    fate f = .dereferenced ∧ runEntry ops f s = .abort .nullDereference := by
  have hscope : (s.started f).gen.scope = ⟨fun _ => false, false⟩ := by
    unfold ModuleState.started
    rw [hgen]
    rfl
  have hargs : (List.range' s.gen.builder.nextValue f.proto.args.length).length =
      f.proto.args.length := List.length_range'
  have hseen := genEntry_seen ops f s.gen.builder.nextBlock hargs (s.started f).gen
  rw [hscope] at hseen
  unfold fate runEntry
  generalize genEntry ops f _ _ (s.started f).gen = r, scanEntry f _ = r' at hseen ⊢
  cases hseen with
  | ok _ => exact .inl ⟨rfl, _, rfl⟩
  | null => exact .inr (.inl ⟨rfl, _, rfl⟩)
  | @abort why =>
    cases why with
    | nullDereference => exact .inr (.inr (.inr ⟨rfl, rfl⟩))
    | insertIntoErased => exact .inr (.inr (.inl ⟨rfl, rfl⟩))

theorem isFunction_of_prototypes (protos : List PrototypeAST) :
    ∀ item ∈ protos.map (Item.prototype (D := D)), item.isFunction = false := by
  intro item hitem
  obtain ⟨p, _, rfl⟩ := List.mem_map.mp hitem
  rfl

/-- The state in front of the first definition. -/
theorem genItems_front (ops : FloatOps D) (protos : List PrototypeAST) :
    ∃ s, genItems ops (protos.map Item.prototype) {} = .ok s ∧
      s.Lists (protos.map Item.prototype) ∧ s.gen = {} := by
  have hstart : ({} : ModuleState D).Lists [] := ⟨rfl, .nil⟩
  exact genItems_prototypes ops (isFunction_of_prototypes protos) hstart rfl

theorem bodyFails_iff {f : FunctionAST D} {s : ModuleState D} (hgen : s.gen = {}) :
    BodyFails ops f s ↔ (runEntry ops f s).state? = none := by
  have hunset : s.gen.builder.insertPoint = .unset := by rw [hgen]
  obtain ⟨s', hcreate, hpush⟩ := ModuleState.createFunc_unset hunset f.proto
  constructor
  · intro ⟨func, s₁, s₂, hcreate', hpush', hnone⟩
    rw [hcreate] at hcreate'
    cases hcreate'
    rw [hpush] at hpush'
    cases hpush'
    rw [ModuleState.addEntryBlock_declared] at hnone
    exact hnone
  · intro hnone
    refine ⟨s.funcs.length, s', s.declared f.proto, hcreate, hpush, ?_⟩
    rw [ModuleState.addEntryBlock_declared]
    exact hnone

/-- Behind a definition that has been generated no body is generated at all. -/
theorem not_bodyFails_atEnd {f : FunctionAST D} {s : ModuleState D} {q : Nat}
    (h : s.gen.builder.insertPoint = .atEnd q) : ¬ BodyFails ops f s := by
  intro ⟨func, s₁, s₂, hcreate, hpush, _⟩
  obtain ⟨s', hcreate', hpush'⟩ := ModuleState.createFunc_atEnd h f.proto
  rw [hcreate'] at hcreate
  cases hcreate
  cases hpush'.symm.trans hpush

theorem runEntry_insertPoint {f : FunctionAST D} {s : ModuleState D} {gen : BerlinState D}
    (h : runEntry ops f s = .ok () gen) :
    gen.builder.insertPoint = .atEnd s.gen.builder.nextBlock :=
  (show NestedIn (fun _ => none) _ _ _ from genEntry_nested h).insert

/-- A body fails in the run exactly when the first one does. -/
theorem runFails_iff (protos : List PrototypeAST) {f : FunctionAST D} {rest : List (Item D)}
    {s : ModuleState D} (hs : genItems ops (protos.map Item.prototype) {} = .ok s)
    (hgen : s.gen = {}) :
    RunFails ops (protos.map .prototype ++ .function f :: rest) ↔
    (runEntry ops f s).state? = none := by
  constructor
  · intro ⟨before, g, after, s', heq, hbefore, hfails⟩
    rcases items_cases before with ⟨protos', rfl⟩ | ⟨protos', f', rest', rfl⟩
    · obtain ⟨rfl, rfl, rfl⟩ := first_unique heq
      rw [hs] at hbefore
      cases hbefore
      exact (bodyFails_iff hgen).mp hfails
    · rw [List.append_assoc, List.cons_append] at heq
      obtain ⟨rfl, rfl, rfl⟩ := first_unique heq
      cases hentry : runEntry ops f s with
      | ok u gen =>
        have hunset : s.gen.builder.insertPoint = .unset := by rw [hgen]
        rw [genItems_append, hs] at hbefore
        change (genFunction ops f s >>= genItems ops rest') = _ at hbefore
        rw [genFunction_unset hunset, hentry] at hbefore
        change genItems ops rest' { s.started f with gen } = _ at hbefore
        have hpoint := runEntry_insertPoint hentry
        cases rest' with
        | nil =>
          cases hbefore
          exact absurd hfails (not_bodyFails_atEnd hpoint)
        | cons item rest' =>
          change (genItem ops item { s.started f with gen } >>= _) = _ at hbefore
          rw [genItem_atEnd (by exact hpoint)] at hbefore
          cases hbefore
      | null gen => rfl
      | abort why => rfl
  · intro hnone
    exact ⟨_, f, rest, s, rfl, hs, (bodyFails_iff hgen).mpr hnone⟩

/-! ## The module behind a failure -/

theorem declarations_of_lists {protos : List PrototypeAST} {funcs : List FuncOp}
    (h : List.Forall₂ FuncOp.IsFor funcs (protos.map (Item.prototype (D := D)))) :
    (∀ op ∈ funcs, op.entry = none) ∧ funcs.map (·.name) = protos.map (·.name) := by
  induction protos generalizing funcs with
  | nil =>
    cases h
    exact ⟨by simp, rfl⟩
  | cons p protos ih =>
    cases h with
    | cons hop hrest =>
      obtain ⟨hentries, hnames⟩ := ih hrest
      obtain ⟨hname, _, _, hentry⟩ := hop
      constructor
      · refine List.forall_mem_cons.mpr ⟨?_, hentries⟩
        simpa [Item.isFunction] using hentry
      · rw [List.map_cons, List.map_cons, hnames, hname]
        rfl

/-- An erased function leaves the declarations in front of it. -/
theorem topLevelOps_eraseFunc {items : List (Item D)} {s : ModuleState D} (h : s.Lists items)
    (f : FunctionAST D) (gen : BerlinState D) :
    (ModuleState.eraseFunc s.funcs.length { s.started f with gen }).topLevelOps = s.funcs := by
  have hleft : (s.topLevel ++ [s.funcs.length]).filter (· ≠ s.funcs.length) = s.topLevel := by
    rw [h.topLevel, List.filter_append, List.filter_eq_self.mpr]
    · simp
    · intro i hi
      have hlt := List.mem_range.mp hi
      simp only [ne_eq, decide_not, Bool.not_eq_eq_eq_not, Bool.not_true, decide_eq_false_iff_not]
      omega
  have htop : (ModuleState.eraseFunc s.funcs.length { s.started f with gen }).topLevel =
      s.topLevel := hleft
  have hfuncs : (ModuleState.eraseFunc s.funcs.length { s.started f with gen }).funcs =
      s.funcs ++ [⟨f.proto.name, f.proto.args.length, .erased, some s.gen.builder.nextBlock⟩] :=
    modify_last ..
  unfold ModuleState.topLevelOps
  rw [htop, hfuncs, h.topLevel]
  have hfront : ∀ op : FuncOp, (List.range s.funcs.length).filterMap ((s.funcs ++ [op])[·]?) =
      (List.range s.funcs.length).filterMap (s.funcs[·]?) := by
    intro op
    apply List.filterMap_congr
    intro i hi
    exact List.getElem?_append_left (List.mem_range.mp hi)
  rw [hfront, filterMap_range]

/-- The reports of a run, by the fate of the first definition. -/
theorem source_reports_iff {verify : ModuleState D → Bool}
    (hverify : ∀ s : ModuleState D, (∀ op ∈ s.topLevelOps, op.entry = none) →
      (verify s = true ↔ (s.topLevelOps.map (·.name)).Nodup))
    {source : Source D} {ending : Ending}
    (hrun : (source.run ops {}).map (finishMain verify) = some ending) :
    (RunFails ops source.items → ending.Reports) ↔ source.FailsLast := by
  obtain ⟨items, sourceEnd⟩ := source
  rcases items_cases items with ⟨protos, rfl⟩ | ⟨protos, f, rest, rfl⟩
  · constructor
    · intro _ protos' f rest heq
      have hmem : Item.function f ∈ protos.map Item.prototype := by
        rw [show protos.map Item.prototype = _ from heq]
        simp
      cases isFunction_of_prototypes protos _ hmem
    · intro _ ⟨before, f, after, s, heq, _⟩
      have hmem : Item.function f ∈ protos.map Item.prototype := by
        rw [show protos.map Item.prototype = _ from heq]
        simp
      cases isFunction_of_prototypes protos _ hmem
  · obtain ⟨s, hs, hlists, hgen⟩ := genItems_front ops protos
    have hunset : s.gen.builder.insertPoint = .unset := by rw [hgen]
    rw [runFails_iff protos hs hgen]
    have hfun : genItems ops (protos.map Item.prototype ++ .function f :: rest) {} =
        genFunction ops f s >>= genItems ops rest := by
      rw [genItems_append, hs]
      rfl
    have hlast : Source.FailsLast ⟨protos.map Item.prototype ++ .function f :: rest, sourceEnd⟩ ↔
        fate f ≠ .strayed ∧ (fate f = .failed → rest = [] ∧
          ((∃ line, sourceEnd = .rejected line) ∨ ¬ (protos.map (·.name)).Nodup)) := by
      constructor
      · exact fun h => h protos f rest rfl
      · intro h protos' f' rest' heq
        obtain ⟨rfl, rfl, rfl⟩ := first_unique heq
        exact h
    rw [hlast]
    unfold Source.run at hrun
    rw [hfun, genFunction_unset hunset] at hrun
    rcases runEntry_fate ops (f := f) hgen with ⟨hfate, gen, hentry⟩ | ⟨hfate, gen, hentry⟩ |
      ⟨hfate, hentry⟩ | ⟨hfate, hentry⟩
    · simp [hfate, hentry, Outcome.state?]
    · rw [hentry] at hrun ⊢
      change ((sourceEnd.after (genItems ops rest (ModuleState.eraseFunc s.funcs.length
        { s.started f with gen }))).map (finishMain verify)) = _ at hrun
      cases rest with
      | cons item rest =>
        change ((sourceEnd.after (genItem ops item _ >>= _)).map (finishMain verify)) = _ at hrun
        rw [genItem_erased rfl] at hrun
        cases hrun
        simp [hfate, Ending.Reports, Outcome.state?, finishMain]
      | nil =>
        have hops := topLevelOps_eraseFunc hlists f gen
        obtain ⟨hentries, hnames⟩ := declarations_of_lists hlists.funcs
        have hverdict := hverify (ModuleState.eraseFunc s.funcs.length { s.started f with gen })
          (by rw [hops]; exact hentries)
        rw [hops, hnames] at hverdict
        cases sourceEnd with
        | outOfBounds => cases hrun
        | rejected line =>
          cases hrun
          simp [hfate, Ending.Reports, Outcome.state?, finishMain]
        | eof =>
          cases hrun
          by_cases haccepts :
            verify (ModuleState.eraseFunc s.funcs.length { s.started f with gen }) = true
          · have hnodup := hverdict.mp haccepts
            simp [hfate, Ending.Reports, Outcome.state?, finishMain, haccepts, hnodup]
          · have hnodup : ¬ (protos.map (·.name)).Nodup := fun h => haccepts (hverdict.mpr h)
            simp [hfate, Ending.Reports, Outcome.state?, finishMain, haccepts, hnodup]
    · rw [hentry] at hrun ⊢
      cases hrun
      simp [hfate, Ending.Reports, Outcome.state?, finishMain]
    · rw [hentry] at hrun ⊢
      cases hrun
      simp [hfate, Ending.Reports, Outcome.state?, finishMain]

/-- Berlin reports the definition that it cannot compile exactly when it is the last
item, no operation follows a loop that is erased in it, and the run is rejected for
another reason. -/
theorem failures_reported_iff (ops : FloatOps D) (ofInt : Int → D) (fuel turns : Nat)
    {verify : ModuleState D → Bool}
    (hverify : ∀ s : ModuleState D, (∀ op ∈ s.topLevelOps, op.entry = none) →
      (verify s = true ↔ (s.topLevelOps.map (·.name)).Nodup))
    {tokens : List (Token D)} {eofLoc : SourceLoc} {ending : Ending}
    (hrun : runMain ops ofInt fuel verify turns tokens eofLoc = some ending) :
    (RunFails ops (readSource ofInt fuel turns (openFile tokens eofLoc)).items → ending.Reports) ↔
      (readSource ofInt fuel turns (openFile tokens eofLoc)).FailsLast := by
  unfold runMain at hrun
  rw [parseFile_eq] at hrun
  exact source_reports_iff hverify hrun

/-- A verifier that tests what it has to for declarations. -/
def namesDistinct (s : ModuleState Int) : Bool := (s.topLevelOps.map (·.name)).Nodup

theorem failures_reported_repeated : ∃ input : Athens.Stream Int,
    Athens.Stream.ofLines ["extern f(x); extern f(x); def g() y"] = some input ∧
    (readSource id 40 40 (openFile input.tokens input.eofLoc)).FailsLast := by
  have h : (Athens.Stream.ofLines ["extern f(x); extern f(x); def g() y"]).map (fun input =>
      decide (runMain wholeOps id 40 namesDistinct 40 input.tokens input.eofLoc =
        some (.returned 1))) = some true := by
    decide +kernel
  obtain ⟨input, hinput, h⟩ := Option.map_eq_some_iff.mp h
  refine ⟨input, hinput, ?_⟩
  have hiff := failures_reported_iff wholeOps id 40 40 (fun s _ => by simp [namesDistinct])
    (of_decide_eq_true h)
  exact hiff.mp fun _ => ⟨by decide, by decide⟩

/-- The only item of a file, with the fate of its body. -/
def onlyFate (input : Athens.Stream Int) : Option Fate :=
  match (readSource id 40 40 (openFile input.tokens input.eofLoc)).items with
  | [.function f] => some (fate f)
  | _ => none

theorem runFails_of_onlyFate {input : Athens.Stream Int} {why : Fate}
    (h : onlyFate input = some why) (hwhy : why ≠ .generated) :
    RunFails wholeOps (readSource id 40 40 (openFile input.tokens input.eofLoc)).items := by
  unfold onlyFate at h
  split at h
  · rename_i f hitems
    rw [hitems]
    cases h
    apply (runFails_iff [] rfl rfl).mpr
    rcases runEntry_fate wholeOps (f := f) (s := {}) rfl with ⟨hfate, _⟩ | ⟨_, gen, hentry⟩ |
      ⟨_, hentry⟩ | ⟨_, hentry⟩
    · exact absurd hfate hwhy
    all_goals
      rw [hentry]
      rfl
  · cases h

/-- `def g() y` fails, and the run returns 0; in the second file the 1 is created
inside the erased loop. -/
theorem unreported_failure : ∃ input input' : Athens.Stream Int,
    Athens.Stream.ofLines ["def g() y"] = some input ∧
    RunFails wholeOps (readSource id 40 40 (openFile input.tokens input.eofLoc)).items ∧
    runMain wholeOps id 40 namesDistinct 40 input.tokens input.eofLoc = some (.returned 0) ∧
    Athens.Stream.ofLines ["def g() (for i = 0, 1 in y) + 1"] = some input' ∧
    RunFails wholeOps (readSource id 40 40 (openFile input'.tokens input'.eofLoc)).items ∧
    runMain wholeOps id 40 namesDistinct 40 input'.tokens input'.eofLoc =
      some (.crashed (.aborted .insertIntoErased)) := by
  have h : (Athens.Stream.ofLines ["def g() y"]).map (fun input =>
      decide (onlyFate input = some .failed) &&
      decide (runMain wholeOps id 40 namesDistinct 40 input.tokens input.eofLoc =
        some (.returned 0))) = some true := by
    decide +kernel
  have h' : (Athens.Stream.ofLines ["def g() (for i = 0, 1 in y) + 1"]).map (fun input =>
      decide (onlyFate input = some .strayed) &&
      decide (runMain wholeOps id 40 namesDistinct 40 input.tokens input.eofLoc =
        some (.crashed (.aborted .insertIntoErased)))) = some true := by
    decide +kernel
  obtain ⟨input, hinput, h⟩ := Option.map_eq_some_iff.mp h
  obtain ⟨input', hinput', h'⟩ := Option.map_eq_some_iff.mp h'
  simp only [Bool.and_eq_true, decide_eq_true_eq] at h h'
  exact ⟨input, input', hinput, runFails_of_onlyFate h.1 (by decide), h.2, hinput',
    runFails_of_onlyFate h'.1 (by decide), h'.2⟩

end AroundTheWorld.Berlin
