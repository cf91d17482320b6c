import AroundTheWorld.Athens.ActiveOperators
import AroundTheWorld.Athens.Definition

/-!
# Active operators over a session

`parsePrototype` makes an operator active before the rest of its prototype and
its body are read. If one of these cannot be read, the operator stays without a
function. As long as that does not happen, every active operator has code behind
it, in every state of every session.
-/

namespace AroundTheWorld.Athens

open AroundTheWorld.Base AroundTheWorld.Lex AroundTheWorld.Llvm AroundTheWorld.Parse
open AthensGrammarPack (PrototypeHead)

variable {D : Type}

/-! ## The invariant -/

/-- Every active operator has code behind it. What the module declares has a
prototype, so that a new module does not lose it. -/
structure AthensState.Backed (s : AthensState D) : Prop where
  registered : ∀ name, s.theModule name ≠ none → s.functionProtos.find name ≠ none
  operators : ∀ op, s.binopPrecedence.Active op → s.Backs op

namespace AthensState.Backed

variable {s s₀ : AthensState D}

theorem find_of_obtains (h : s.Backed) {name : Name} (hname : s.Obtains name) :
    s.functionProtos.find name ≠ none :=
  hname.elim (h.registered name) id

/-- With other declarations, each of which has a prototype. -/
theorem withModule (h : s.Backed) {m : Module}
    (hm : ∀ name, m name ≠ none → s.functionProtos.find name ≠ none) :
    ({ s with theModule := m } : AthensState D).Backed := by
  constructor
  · exact hm
  · intro op hop
    exact (h.operators op hop).imp_right fun hfound => .inr (h.find_of_obtains hfound)

theorem of_stable (h : s₀.Backed) (hs : Stable s₀ s) : s.Backed := by
  constructor
  · intro name hname
    rw [hs.functionProtos]
    exact h.find_of_obtains (hs.declared name hname)
  · intro op hop
    rw [hs.binopPrecedence] at hop
    exact hs.backs (h.operators op hop)

/-- Erasing a function and its operator. -/
theorem undefine (h : s.Backed) (p : PrototypeAST) : (s.undefine p).Backed := by
  have hcleared : ({ s with theModule := fun k => if k = p.name then none else s.theModule k } :
      AthensState D).Backed := by
    refine h.withModule fun name hname => h.registered name ?_
    by_cases hk : name = p.name <;> simp_all
  constructor
  · exact hcleared.registered
  · intro op hop
    refine hcleared.operators op ?_
    change p.operatorTable s.binopPrecedence none op ≠ none at hop
    unfold PrototypeAST.operatorTable at hop
    split at hop
    · simp only [BinopTable.set] at hop
      split at hop
      · exact absurd rfl hop
      · exact hop
    · exact hop

/-- The table of a definition, with a function of the operator's name. -/
theorem define (h : s.Backed) {p : PrototypeAST}
    (hname : p.isBinaryOp = true → p.name = text "binary" ++ [p.getOperatorName]) :
    (s.define p).Backed := by
  have hfind : ∀ name, s.functionProtos.find name ≠ none ∨ name = p.name →
      (s.functionProtos.insert p).find name ≠ none := by
    intro name hname
    by_cases hk : name = p.name
    · simp [ProtoTable.insert, hk]
    · simpa [ProtoTable.insert, hk] using hname
  constructor
  · intro name hdeclared
    exact hfind name (.inl (h.registered name hdeclared))
  · intro op hop
    change p.operatorTable s.binopPrecedence _ op ≠ none at hop
    unfold PrototypeAST.operatorTable at hop
    split at hop
    · rename_i hbinary
      simp only [BinopTable.set] at hop
      split at hop
      · rename_i hk
        exact .inr (.inr (hfind _ (.inr (by rw [hk, hname hbinary]))))
      · exact (h.operators op hop).imp_right fun hfound =>
          .inr (hfind _ (.inl (h.find_of_obtains hfound)))
    · exact (h.operators op hop).imp_right fun hfound =>
        .inr (hfind _ (.inl (h.find_of_obtains hfound)))

end AthensState.Backed

theorem start_backed : (Session.start : Session D).globals.Backed := by
  constructor
  · intro name hname
    exact absurd rfl hname
  · intro op hop
    left
    by_contra hne
    simp only [handledOps, List.mem_cons, List.not_mem_nil, or_false, not_or] at hne
    apply hop
    simp [Session.start, standardBinaryOperators, BinopTable.set, hne]

/-! ## The handlers of the driver -/

/-- What a step of the driver owes to the session. -/
def Outcome.KeepsBacked {α : Type} (r : Outcome (Session D) Halt α) : Prop :=
  r.Within (fun s => s.globals.Backed) (· ≠ .aborted .binaryOperatorNotFound)

section
variable {ops : FloatOps D} {jit : List (FunctionIR D) → Bool} {ofInt : Int → D} {fuel : Nat}

/-- A definition whose operators are active once its own has been installed. -/
theorem handleDefinition_backed {f : FunctionAST D} {s : Session D}
    (hs : (s.globals.define f.proto).Backed)
    (hbody : UsesActive (s.globals.define f.proto).binopPrecedence f.body) :
    Outcome.KeepsBacked (handleDefinition ops jit f s) := by
  have htables := f.codegen_tables ops s.globals
    (fun _ h => h : ∀ why, why ≠ Abort.binaryOperatorNotFound → _)
    (fun op hop => .inl (hs.operators op (hbody op hop)))
  rw [handleDefinition_eq]
  cases hrun : f.codegen ops s.globals with
  | ok fnIR g =>
    simp only [hrun] at htables ⊢
    by_cases hjit : jit (fnIR :: s.handedOver) = true
    · simp only [if_pos hjit]
      have hcleared := (hs.of_stable htables).withModule (m := fun _ => none)
        (fun _ h => absurd rfl h)
      exact ⟨hcleared.registered, hcleared.operators⟩
    · simp only [if_neg hjit]
      intro h
      cases h
  | null g =>
    simp only [hrun] at htables ⊢
    obtain ⟨s₂, hs₂, rfl⟩ := htables
    exact (hs.of_stable hs₂).undefine f.proto
  | abort why =>
    simp only [hrun] at htables ⊢
    intro h
    cases h
    exact htables rfl

/-- A declaration is recorded like a definition, without a body. -/
theorem handleExtern_backed {p : PrototypeAST} {s : Session D}
    (hs : (s.globals.define p).Backed)
    (htable : (s.globals.define p).binopPrecedence = s.globals.binopPrecedence) :
    Outcome.KeepsBacked (handleExtern p s : Outcome (Session D) Halt Bool) := by
  obtain ⟨m, hcodegen, hm⟩ := p.codegen_eq s.globals
  have hrun : handleExtern p s = .ok true
      { s with globals := { s.globals with
          theModule := m, functionProtos := s.globals.functionProtos.insert p } } := by
    simp only [handleExtern, Bind.bind, Gen.bind, generate, hcodegen]
    rfl
  rw [hrun]
  have hdeclared : ∀ name, m name ≠ none →
      (s.globals.functionProtos.insert p).find name ≠ none := by
    intro name hname
    rcases (hm name).mp hname with hname | rfl
    · exact hs.registered name hname
    · simp [ProtoTable.insert]
  have hwith := hs.withModule hdeclared
  refine ⟨hwith.registered, fun op hop => ?_⟩
  refine hwith.operators op ?_
  change (s.globals.define p).binopPrecedence op ≠ none
  rw [htable]
  exact hop

/-! ## One turn -/

theorem finishTurn_backed {handle : SessionGen D Bool} {σ : ParseState D BinopTable}
    {s : Session D} (hdiag : σ.diag = [])
    (h : Outcome.KeepsBacked (handle (s.withTable σ.globals))) :
    Outcome.KeepsBacked (finishTurn handle σ s) := by
  rw [finishTurn_eq hdiag]
  cases hrun : handle (s.withTable σ.globals) with
  | ok handled s' =>
    rw [hrun] at h
    cases handled <;> exact h
  | null s' => rwa [hrun] at h
  | abort why => rwa [hrun] at h

/-- The current token starts an item. -/
def Stream.AtItem (input : Stream D) (s : Session D) : Prop :=
  (Parser.current (input.context s)).kind = .kwFuncDef ∨
    (Parser.current (input.context s)).kind = .kwExtern

/-- The item at the start of the stream is read to its end: nothing is reported
and there is a definition or a declaration. -/
def Stream.ReadsItem (ofInt : Int → D) (fuel : Nat) (input : Stream D) (s : Session D) : Prop :=
  ∃ item σ, athensParseItem ofInt fuel (input.context s) = some (item, σ) ∧ σ.diag = [] ∧
    item.proto ≠ none

/-- An item that installs an operator without code behind it is read to its end. -/
def Stream.Careful (ofInt : Int → D) (fuel : Nat) (input : Stream D) (s : Session D) : Prop :=
  input.AtItem s → ∀ head, headOf (input.context s) = some head → head.kind = 2 →
    s.globals.Backs (head.name.getLastD 0) ∨ input.ReadsItem ofInt fuel s

/-- The name of a binary head ends in its operator. -/
theorem headOf_name {σ : ParseState D BinopTable} {head : PrototypeHead}
    (h : headOf σ = some head) (hkind : head.kind = 2) :
    head.name = text "binary" ++ [head.name.getLastD 0] := by
  unfold headOf at h
  obtain ⟨⟨h', σ₁⟩, hrun, heq⟩ := Option.bind_eq_some_iff.mp h
  simp only at heq
  subst heq
  obtain ⟨-, c, r, -, ⟨-, head', heq, hspells⟩ | ⟨-, hnone⟩⟩ := parsePrototypeHead_reads hrun
  · obtain rfl := Option.some.inj heq
    cases hspells with
    | function _ => cases hkind
    | unary _ _ _ => cases hkind
    | binary _ _ _ _ => simp [List.getLastD_eq_getLast?]
  · cases hnone

/-- The state behind a head is backed exactly when its operator was, or when
there is none. -/
theorem withTable_backed_iff {s : Session D} (hs : s.globals.Backed) (h : Option PrototypeHead) :
    (s.withTable (tableAfter h s.globals.binopPrecedence)).globals.Backed ↔
      ∀ head, h = some head → head.kind = 2 → s.globals.Backs (head.name.getLastD 0) := by
  constructor
  · rintro hback head rfl hkind
    refine hback.operators (head.name.getLastD 0) ?_
    simp [Session.withTable, tableAfter, hkind, BinopTable.set, BinopTable.Active]
  · intro hback
    refine ⟨hs.registered, fun op hop => ?_⟩
    cases h with
    | none => exact hs.operators op hop
    | some head =>
      change tableAfter (some head) s.globals.binopPrecedence op ≠ none at hop
      simp only [tableAfter] at hop
      split at hop
      · rename_i hkind
        simp only [BinopTable.set] at hop
        split at hop
        · rename_i hk
          exact hk ▸ hback head rfl hkind
        · exact hs.operators op hop
      · exact hs.operators op hop

/-- A definition installs once more what its head has installed. -/
theorem define_withTable {s : Session D} {σ : ParseState D BinopTable} {p : PrototypeAST}
    {head : PrototypeHead} (hhas : p.HasHead head)
    (htable : σ.globals = tableAfter (some head) s.globals.binopPrecedence) :
    (s.withTable σ.globals).globals.define p = s.globals.define p ∧
      (s.globals.define p).binopPrecedence = σ.globals := by
  have hσ : σ.globals =
      p.operatorTable s.globals.binopPrecedence (some p.getBinaryPrecedence) := by
    rw [hhas.operatorTable, htable]
  constructor
  · simp only [AthensState.define, Session.withTable, hσ, p.operatorTable_operatorTable]
  · exact hσ.symm

/-- An item that is read to its end. -/
theorem readItem_backed {input : Stream D} {s : Session D} {item : AthensParsedItem D}
    {σ : ParseState D BinopTable} {p : PrototypeAST} (hs : s.globals.Backed)
    (hitem : input.AtItem s)
    (hparse : athensParseItem ofInt fuel (input.context s) = some (item, σ))
    (hdiag : σ.diag = []) (hp : item.proto = some p) :
    Outcome.KeepsBacked (finishTurn (handleItem ops jit item) σ s) := by
  obtain ⟨htable, hhead⟩ := parseItem_table hitem hparse
  obtain ⟨head, hhead, hhas⟩ := hhead hdiag p hp
  rw [hhead] at htable
  obtain ⟨hdefine, htableσ⟩ := define_withTable hhas htable
  have hback : (s.globals.define p).Backed := by
    apply hs.define
    intro hbinary
    rw [hhas.isBinaryOp, decide_eq_true_eq] at hbinary
    rw [PrototypeAST.getOperatorName, hhas.name]
    exact headOf_name hhead hbinary
  refine finishTurn_backed hdiag ?_
  unfold handleItem
  cases hf : item.function with
  | some f =>
    obtain rfl : f.proto = p := by simpa [AthensParsedItem.proto, hf] using hp
    have huses := parseItem_active hitem hparse hf
    apply handleDefinition_backed
    · rwa [hdefine]
    · rwa [hdefine, htableσ]
  | none =>
    have hproto : item.prototype = some p := by simpa [AthensParsedItem.proto, hf] using hp
    simp only [hproto]
    apply handleExtern_backed
    · rwa [hdefine]
    · rw [hdefine, htableσ]
      rfl

/-- An item that is not read to its end only leaves its table behind. -/
theorem unreadItem_turn {s : Session D} {item : AthensParsedItem D}
    {σ : ParseState D BinopTable} (hread : ¬(σ.diag = [] ∧ item.proto ≠ none)) :
    finishTurn (handleItem ops jit item) σ s = .ok (.return_ false) (s.withTable σ.globals) := by
  by_cases hdiag : σ.diag = []
  · have hp : item.proto = none := by
      by_contra hp
      exact hread ⟨hdiag, hp⟩
    simp only [AthensParsedItem.proto, Option.or_eq_none_iff, Option.map_eq_none_iff] at hp
    rw [finishTurn_eq hdiag]
    unfold handleItem
    rw [hp.1, hp.2]
    rfl
  · exact finishTurn_reported hdiag

/-- Behind an item the session is backed exactly when the turn was careful. -/
theorem itemTurn_backed_iff {input : Stream D} {s : Session D} {item : AthensParsedItem D}
    {σ : ParseState D BinopTable} (hs : s.globals.Backed) (hitem : input.AtItem s)
    (hparse : athensParseItem ofInt fuel (input.context s) = some (item, σ)) :
    Outcome.KeepsBacked (finishTurn (handleItem ops jit item) σ s) ↔
      input.Careful ofInt fuel s := by
  by_cases hread : σ.diag = [] ∧ item.proto ≠ none
  · obtain ⟨p, hp⟩ := Option.ne_none_iff_exists'.mp hread.2
    exact ⟨fun _ _ _ _ _ => .inr ⟨item, σ, hparse, hread⟩,
      fun _ => readItem_backed hs hitem hparse hread.1 hp⟩
  · have hunread : ¬ input.ReadsItem ofInt fuel s := by
      rintro ⟨item', σ', hparse', hread'⟩
      rw [hparse] at hparse'
      cases hparse'
      exact hread hread'
    rw [unreadItem_turn hread, (parseItem_table hitem hparse).1]
    change (s.withTable
      (tableAfter (headOf (input.context s)) s.globals.binopPrecedence)).globals.Backed
      ↔ _
    rw [withTable_backed_iff hs]
    simp [Stream.Careful, hitem, hunread]

/-- An expression only uses operators that are active, and so have functions. -/
theorem expressionTurn_backed {input : Stream D} {s : Session D} {expr : ExprAST D}
    {σ : ParseState D BinopTable} (hs : s.globals.Backed)
    (hparse : (athensEngine ofInt fuel).parseExpression 0 (input.context s) = some (expr, σ)) :
    Outcome.KeepsBacked (finishTurn (handleTopLevelExpression ops jit expr) σ s) := by
  obtain ⟨hg, huses⟩ := athensEngine_returns ofInt s.globals.binopPrecedence fuel 0 (by decide)
    rfl hparse
  have hsame : s.withTable σ.globals = s := by
    rw [hg]
    rfl
  by_cases hdiag : σ.diag = []
  · refine finishTurn_backed hdiag ?_
    rw [hsame]
    unfold handleTopLevelExpression
    split
    · exact hs
    · exact handleDefinition_backed (hs.define (by intro h; cases h)) huses
  · rw [finishTurn_reported hdiag, hsame]
    exact hs

/-- One turn of the loop of `ParseStream`. -/
theorem turn_backed_iff {input : Stream D} {s : Session D}
    {r : Outcome (Session D) Halt (Turn D)} (hs : s.globals.Backed)
    (hturn : parseStreamTurn ops jit ofInt fuel input s = some r) :
    Outcome.KeepsBacked r ↔ input.Careful ofInt fuel s := by
  by_cases hitem : input.AtItem s
  · have hparse : ∃ item σ, athensParseItem ofInt fuel (input.context s) = some (item, σ) := by
      cases hp : athensParseItem ofInt fuel (input.context s) with
      | some a => exact ⟨a.1, a.2, rfl⟩
      | none =>
        unfold parseStreamTurn at hturn
        rcases hitem with hkind | hkind <;> simp only [hkind, hp] at hturn <;> cases hturn
    obtain ⟨item, σ, hparse⟩ := hparse
    rw [parseStreamTurn_item hitem hparse] at hturn
    cases hturn
    exact itemTurn_backed_iff hs hitem hparse
  · refine iff_of_true ?_ (fun h => absurd h hitem)
    unfold parseStreamTurn at hturn
    split at hturn
    · cases hturn
      exact hs
    · cases hturn
      exact hs
    · rename_i hkind
      exact absurd (.inl hkind) hitem
    · rename_i hkind
      exact absurd (.inr hkind) hitem
    · obtain ⟨⟨expr, σ⟩, hparse, rfl⟩ := Option.map_eq_some_iff.mp hturn
      exact expressionTurn_backed hs hparse

end

/-! ## Sessions -/

namespace Repl

/-- The session of a process that is still there. -/
def session : Repl D → Option (Session D)
  | .prompt s => some s
  | .reading _ s => some s
  | .halted _ => none

def Careful (ofInt : Int → D) (fuel : Nat) : Repl D → Prop
  | .reading input s => input.Careful ofInt fuel s
  | _ => True

/-- The sessions in which every step is careful. -/
abbrev CarefulRun (ops : FloatOps D) (jit : List (FunctionIR D) → Bool) (ofInt : Int → D)
    (fuel : Nat) : Repl D → Repl D → Prop :=
  Relation.ReflTransGen fun c c' => c.Careful ofInt fuel ∧ Step ops jit ofInt fuel c c'

def Backed : Repl D → Prop
  | .prompt s => s.globals.Backed
  | .reading _ s => s.globals.Backed
  | .halted why => why ≠ .aborted .binaryOperatorNotFound

variable {ops : FloatOps D} {jit : List (FunctionIR D) → Bool} {ofInt : Int → D} {fuel : Nat}

theorem step_backed {c c' : Repl D} (hcareful : c.Careful ofInt fuel)
    (hstep : Step ops jit ofInt fuel c c') (hc : c.Backed) : c'.Backed := by
  cases hstep with
  | line input s => exact hc
  | next hturn => exact (turn_backed_iff hc hturn).mpr hcareful
  | return_ hturn => exact (turn_backed_iff hc hturn).mpr hcareful
  | halt hturn => exact (turn_backed_iff hc hturn).mpr hcareful

theorem run_backed {c c' : Repl D} (hrun : CarefulRun ops jit ofInt fuel c c') (hc : c.Backed) :
    c'.Backed := by
  induction hrun with
  | refl => exact hc
  | tail _ hstep ih => exact step_backed hstep.1 hstep.2 ih

end Repl

/-- In every state of a session whose items are read to their end when they
install an operator, the active operators have code behind them, and no
expression fails for want of an operator. -/
theorem active_operators_have_code (ops : FloatOps D) (jit : List (FunctionIR D) → Bool)
    (ofInt : Int → D) (fuel : Nat) {c : Repl D}
    (hrun : Repl.CarefulRun ops jit ofInt fuel (.prompt .start) c) :
    (∀ s, c.session = some s → ∀ op, s.globals.binopPrecedence op ≠ none →
      op ∈ handledOps ∨
        ∃ params g, getFunction (text "binary" ++ [op]) s.globals = .ok (some params) g) ∧
    c ≠ .halted (.aborted .binaryOperatorNotFound) := by
  have hc := Repl.run_backed hrun (start_backed : (Session.start : Session D).globals.Backed)
  constructor
  · intro s hs op hop
    have hbacked : s.globals.Backed := by
      cases c <;> cases hs <;> exact hc
    refine (hbacked.operators op hop).imp_right fun hfound => ?_
    obtain ⟨r, m, hget, hr, -⟩ := getFunction_eq (text "binary" ++ [op]) s.globals
    obtain ⟨params, rfl⟩ := Option.ne_none_iff_exists'.mp (hr.mpr hfound)
    exact ⟨params, _, hget⟩
  · rintro rfl
    exact hc rfl

/-! ## Behind the runtime -/

section
variable (ops : FloatOps D) (jit : List (FunctionIR D) → Bool) (ofInt : Int → D) (fuel : Nat)

/-- An item at the start of the stream is read to its end. -/
def readsItem (input : Stream D) (s : Session D) : Bool :=
  match (Parser.current (input.context s)).kind with
  | .kwFuncDef | .kwExtern =>
    match athensParseItem ofInt fuel (input.context s) with
    | some (item, σ) => σ.diag.isEmpty && item.proto.isSome
    | none => false
  | _ => true

/-- `parseStream`, as long as every item is read to its end. -/
def carefulStream : Nat → Stream D → Session D → Option (Session D)
  | 0, _, _ => none
  | turns + 1, input, s =>
    if readsItem ofInt fuel input s then
      (parseStreamTurn ops jit ofInt fuel input s).bind fun
        | .ok (.next rest) s' => carefulStream turns rest s'
        | .ok (.return_ _) s' => some s'
        | _ => none
    else none

variable {ops jit ofInt fuel}

theorem careful_of_readsItem {input : Stream D} {s : Session D}
    (h : readsItem ofInt fuel input s = true) : input.Careful ofInt fuel s := by
  intro hitem head _ _
  right
  unfold readsItem at h
  have hread : (match athensParseItem ofInt fuel (input.context s) with
      | some (item, σ) => σ.diag.isEmpty && item.proto.isSome
      | none => false) = true := by
    rcases hitem with hkind | hkind <;> simpa only [hkind] using h
  split at hread
  · rename_i item σ hparse
    rw [Bool.and_eq_true, List.isEmpty_iff] at hread
    exact ⟨item, σ, hparse, hread.1, Option.isSome_iff_ne_none.mp hread.2⟩
  · cases hread

theorem carefulStream_run {turns : Nat} {input : Stream D} {s s' : Session D}
    (h : carefulStream ops jit ofInt fuel turns input s = some s') :
    Repl.CarefulRun ops jit ofInt fuel (.reading input s) (.prompt s') := by
  induction turns generalizing input s with
  | zero => cases h
  | succ turns ih =>
    unfold carefulStream at h
    split at h
    · rename_i hread
      have hcareful := careful_of_readsItem hread
      obtain ⟨r, hturn, h⟩ := Option.bind_eq_some_iff.mp h
      split at h
      · exact .head ⟨hcareful, .next hturn⟩ (ih h)
      · cases h
        exact .single ⟨hcareful, .return_ hturn⟩
      · cases h
    · cases h

end

/-- The runtime, a new operator and its use: a session to which the theorem applies. -/
theorem active_operators_have_code_defined : ∃ s : Session Int,
    s.globals.binopPrecedence (byte '%') = some 30 ∧
    ∀ op, s.globals.binopPrecedence op ≠ none → op ∈ handledOps ∨
      ∃ params g, getFunction (text "binary" ++ [op]) s.globals = .ok (some params) g := by
  have h : (((Stream.ofLines (runtimeDefinitions ++ ["def binary % (a b) a - b; 7 % 2"])).bind
      fun input => carefulStream wholeOps (fun _ => true) id 40 40 input .start).map fun s =>
        decide (s.globals.binopPrecedence (byte '%') = some 30)) = some true := by
    decide +kernel
  obtain ⟨s, hs, h⟩ := Option.map_eq_some_iff.mp h
  obtain ⟨input, -, hrun⟩ := Option.bind_eq_some_iff.mp hs
  have hall := active_operators_have_code wholeOps (fun _ => true) id 40
    (.head ⟨trivial, .line input .start⟩ (carefulStream_run hrun))
  exact ⟨s, of_decide_eq_true h, hall.1 s rfl⟩

/-- The line `def binary @ 5 x` is refused and leaves `@` active without a
function; the line `1 @ 2` then fails the assertion. -/
theorem refused_operator_stays_active : ∃ (s s' : Session Int) (input : Stream Int),
    afterRuntime = some s ∧
    Repl.Run wholeOps (fun _ => true) id 40 (.prompt .start) (.prompt s) ∧
    (replay ["def binary @ 5 x"] s).bind Outcome.state? = some s' ∧
    Repl.Run wholeOps (fun _ => true) id 40 (.prompt s) (.prompt s') ∧
    s'.globals.binopPrecedence (byte '@') = some 5 ∧
    (∃ g, getFunction (text "binary@") s'.globals = .ok none g) ∧
    Stream.ofLines ["1 @ 2"] = some input ∧
    Repl.Run wholeOps (fun _ => true) id 40 (.reading input s')
      (.halted (.aborted .binaryOperatorNotFound)) := by
  have h : (afterRuntime.bind fun s =>
      ((replay ["def binary @ 5 x"] s).bind Outcome.state?).bind fun s' =>
        (Stream.ofLines ["1 @ 2"]).bind fun input =>
          (parseStreamTurn wholeOps (fun _ => true) id 40 input s').map fun r =>
            decide (s'.globals.binopPrecedence (byte '@') = some 5) &&
            (s'.globals.theModule (text "binary@")).isNone &&
            (s'.globals.functionProtos.find (text "binary@")).isNone &&
            (match r with
              | .abort why => decide (why = .aborted .binaryOperatorNotFound)
              | _ => false)) = some true := by
    decide +kernel
  obtain ⟨s, hs, h⟩ := Option.bind_eq_some_iff.mp h
  obtain ⟨s', hs', h⟩ := Option.bind_eq_some_iff.mp h
  obtain ⟨input, hinput, h⟩ := Option.bind_eq_some_iff.mp h
  obtain ⟨r, hturn, h⟩ := Option.map_eq_some_iff.mp h
  simp only [Bool.and_eq_true, decide_eq_true_eq, Option.isNone_iff_eq_none] at h
  obtain ⟨⟨⟨hactive, hmodule⟩, hproto⟩, hr⟩ := h
  refine ⟨s, s', input, hs, replay_run hs, hs', replay_run hs', hactive, ?_, hinput, ?_⟩
  · refine ⟨s'.globals, ?_⟩
    unfold getFunction
    rw [hmodule, hproto]
  · split at hr
    · rename_i why
      rw [of_decide_eq_true hr] at hturn
      exact .single (.halt hturn)
    · cases hr

end AroundTheWorld.Athens
