import Mathlib.Algebra.Ring.Int.Defs
import AroundTheWorld.Agreement.Known
import AroundTheWorld.Berlin.Meant
import AroundTheWorld.Cairo.Meant

/-!
# Cairo and Berlin on expressions without loops

Both back ends follow the reference, each in cells of its own. So the code of the one and
the operations of the other, run from memories that agree, end with the same value after
the same calls, or wait for the same call.
-/

namespace AroundTheWorld.Agreement

open AroundTheWorld.Base AroundTheWorld.Lex AroundTheWorld.Llvm AroundTheWorld.Mlir
open AroundTheWorld.Athens (ExprAST Name noRepeat)
open AroundTheWorld.Cairo (CairoState Owned Machine Device isBuiltinCall)
open AroundTheWorld.Berlin (BerlinState)

/-! ## Two generators in one scope -/

/-- The slots of Cairo and the `memref`s of Berlin that belong together, and tables that
have the same names in them. -/
structure Corresponding {D : Type} (cells : List (Owned × Nat)) (s : CairoState D)
    (t : BerlinState D) : Prop where
  slots : (cells.map Prod.fst).Nodup
  memrefs : (cells.map Prod.snd).Nodup
  allocated : ∀ p ∈ cells, (p.1.function = s.builder.function → p.1.index < s.builder.nextCell) ∧
    p.2 < t.builder.nextValue
  names : ∀ name, s.namedValues name = none ∧ t.namedValues name = none ∨
    ∃ p ∈ cells, s.namedValues name = some p.1 ∧ t.namedValues name = some p.2

section
variable {D W : Type} {cells : List (Owned × Nat)} {s : CairoState D} {t : BerlinState D}

/-- One scope for both. -/
theorem Corresponding.scope (h : Corresponding cells s t) (hs : s.builder.Wf) (ht : t.builder.Wf) :
    ∃ sc : NameScope, sc.next = cells.length ∧ s.Placed sc (cells.map Prod.fst) ∧
      t.Placed sc (cells.map Prod.snd) := by
  have hcell : ∀ name, ∃ o : Option Nat, (∀ c, o = some c → c < cells.length) ∧
      s.namedValues name = o.bind ((cells.map Prod.fst)[·]?) ∧
      t.namedValues name = o.bind ((cells.map Prod.snd)[·]?) := by
    intro name
    rcases h.names name with ⟨hnone, hnone'⟩ | ⟨p, hp, hslot, hmemref⟩
    · exact ⟨none, by simp, hnone, hnone'⟩
    · obtain ⟨c, hlt, hget⟩ := List.mem_iff_getElem.mp hp
      refine ⟨some c, ?_, ?_, ?_⟩
      · intro c' hc'
        cases hc'
        exact hlt
      · simp [hslot, hlt, hget]
      · simp [hmemref, hlt, hget]
  choose table hinside hslots hmemrefs using hcell
  refine ⟨⟨table, cells.length⟩, rfl, ⟨hs, ⟨?_, h.slots, hinside, hslots⟩, ?_⟩,
    ⟨ht, ⟨?_, h.memrefs, hinside, hmemrefs⟩, ?_⟩⟩
  · exact List.length_map _
  · intro k hk
    obtain ⟨p, hp, rfl⟩ := List.mem_map.mp hk
    exact (h.allocated p hp).1
  · exact List.length_map _
  · intro k hk
    obtain ⟨p, hp, rfl⟩ := List.mem_map.mp hk
    exact (h.allocated p hp).2

/-- Generators that are placed in one scope correspond. -/
theorem Corresponding.of_placed {sc : NameScope} {slots : List Owned} {memrefs : List Nat}
    (hs : s.Placed sc slots) (ht : t.Placed sc memrefs) :
    Corresponding (slots.zip memrefs) s t := by
  have hlength : slots.length = memrefs.length := hs.scope.length.trans ht.scope.length.symm
  have hslots : (slots.zip memrefs).map Prod.fst = slots :=
    List.map_fst_zip (Nat.le_of_eq hlength)
  have hmemrefs : (slots.zip memrefs).map Prod.snd = memrefs :=
    List.map_snd_zip (Nat.le_of_eq hlength.symm)
  refine ⟨?_, ?_, ?_, ?_⟩
  · rw [hslots]
    exact hs.scope.distinct
  · rw [hmemrefs]
    exact ht.scope.distinct
  · intro p hp
    obtain ⟨hslot, hmemref⟩ := List.of_mem_zip (show (p.1, p.2) ∈ _ from hp)
    exact ⟨hs.old _ hslot, ht.old _ hmemref⟩
  · intro name
    rw [hs.scope.names, ht.scope.names]
    cases hc : sc.table name with
    | none => exact .inl ⟨rfl, rfl⟩
    | some c =>
      have hlt := hs.scope.inside name c hc
      have hlt' : c < slots.length := hs.scope.length ▸ hlt
      have hlt'' : c < memrefs.length := ht.scope.length ▸ hlt
      refine .inr ⟨(slots[c], memrefs[c]), ?_, ?_, ?_⟩
      · have hget : (slots.zip memrefs)[c]? = some (slots[c], memrefs[c]) :=
          List.getElem?_zip_eq_some.mpr ⟨by simp [hlt'], by simp [hlt'']⟩
        exact List.mem_of_getElem? hget
      · simp [hlt']
      · simp [hlt'']

end

/-! ## Two machines in one state -/

section
variable {D W : Type}

/-- The machines have the same values in corresponding cells, and have made the same calls. -/
structure SameMemory (cells : List (Owned × Nat)) (m : Machine D W) (th : Thread D Name W) :
    Prop where
  cells : ∀ p ∈ cells, m.mem p.1 = th.env.cells p.2
  world : m.world = th.env.world
  calls : m.calls = th.env.calls

/-- What is known of the cells in the beginning: the values in those that are `known`, and
nothing of the others. -/
def knownOf (ops : FloatOps D) (cells known : List (Owned × Nat)) (m : Machine D W) :
    State D W where
  mem c := cells[c]?.elim (some ops.zero) fun p => if p ∈ known then some (m.mem p.1) else none
  world := m.world
  calls := m.calls

variable {ops : FloatOps D} {cells known : List (Owned × Nat)} {m : Machine D W}
  {th : Thread D Name W}

theorem knownOf_mem {c : Nat} {p : Owned × Nat} (hc : cells[c]? = some p) :
    (knownOf ops cells known m).mem c = if p ∈ known then some (m.mem p.1) else none := by
  show cells[c]?.elim _ _ = _
  rw [hc]
  rfl

theorem knownOf_matches (m : Machine D W) :
    (knownOf ops cells known m).Matches (cells.map Prod.fst) m.mem m.world m.calls := by
  refine ⟨fun c k x hk hx => ?_, rfl, rfl⟩
  rw [List.getElem?_map] at hk
  obtain ⟨p, hp, rfl⟩ := Option.map_eq_some_iff.mp hk
  rw [knownOf_mem hp] at hx
  split at hx
  · exact Option.some.inj hx
  · cases hx

theorem SameMemory.known_matches (h : SameMemory known m th) :
    (knownOf ops cells known m).Matches (cells.map Prod.snd) th.env.cells th.env.world
      th.env.calls := by
  refine ⟨fun c k x hk hx => ?_, h.world.symm, h.calls.symm⟩
  rw [List.getElem?_map] at hk
  obtain ⟨p, hp, rfl⟩ := Option.map_eq_some_iff.mp hk
  rw [knownOf_mem hp] at hx
  split at hx
  · rename_i hmem
    rw [← h.cells p hmem]
    exact Option.some.inj hx
  · cases hx

/-- Machines that match a state in which as much is known have the same memory again. -/
theorem SameMemory.of_matches {st : State D W} (hknown : (knownOf ops cells known m).Known st)
    (hsub : known ⊆ cells) {m' : Machine D W} {th' : Thread D Name W}
    (hm : st.Matches (cells.map Prod.fst) m'.mem m'.world m'.calls)
    (hth : st.Matches (cells.map Prod.snd) th'.env.cells th'.env.world th'.env.calls) :
    SameMemory known m' th' := by
  refine ⟨fun p hp => ?_, hm.world.trans hth.world.symm, hm.calls.trans hth.calls.symm⟩
  obtain ⟨c, hc⟩ := List.mem_iff_getElem?.mp (hsub hp)
  have hsome : ((knownOf ops cells known m).mem c).isSome := by
    rw [knownOf_mem hc, if_pos hp]
    rfl
  obtain ⟨x, hx⟩ := Option.isSome_iff_exists.mp (hknown c hsome)
  rw [hm.mem c p.1 x (by simp [hc]) hx, hth.mem c p.2 x (by simp [hc]) hx]

/-- Enough is known for an expression: the cells of its scope, or all of them. -/
theorem knownOf_ready {old : List (Owned × Nat)} {restored : Bool} {sc : NameScope}
    (hold : old <+: cells) (hnext : sc.next = old.length)
    (hinside : ∀ name c, sc.table name = some c → c < sc.next)
    (hknown : (if restored then old else cells) ⊆ known) :
    Ready restored sc (knownOf ops cells known m) := by
  cases restored with
  | true =>
    intro name c hc
    have hlt : c < old.length := hnext ▸ hinside name c hc
    have hget : cells[c]? = some old[c] :=
      getElem?_of_le hold (List.getElem?_eq_getElem hlt)
    rw [knownOf_mem hget, if_pos (hknown (List.getElem_mem hlt))]
    rfl
  | false =>
    intro c
    cases hc : cells[c]? with
    | none =>
      show (Option.elim cells[c]? (some ops.zero) _).isSome = true
      rw [hc]
      rfl
    | some p =>
      rw [knownOf_mem hc, if_pos (hknown (List.mem_of_getElem? hc))]
      rfl

/-! ## Agreement -/

/-- The machines run to the end of what has been generated and have the same value there, or
to the same call that does not come back. In both cases they have made the same calls before,
and agree on the memory that is `known`. -/
def RunAlike (ops : IntOps D) (device : Device D W) (known : List (Owned × Nat))
    (code : Nat → List (Cairo.Instr D)) (blocks : Nat → List (Op D Name)) (s' : CairoState D)
    (t' : BerlinState D) (v : Operand D) (w : Nat) (m : Machine D W) (th : Thread D Name W) :
    Prop :=
  ∃ m' th', Reaches (Machine.step ops device code) m m' ∧
    Reaches (Thread.step ops device.call blocks) th th' ∧ SameMemory known m' th' ∧
    (s'.builder.At m' ∧ t'.builder.At blocks th' ∧ th'.around = th.around ∧
        m'.val v = th'.env.floats w ∨
      ∃ what, m'.Calls device code what ∧ th'.Calls device.call what.1 what.2)

/-- Two back ends that follow one evaluation, which has a meaning. -/
theorem runAlike_of_follows {ops : IntOps D} {device : Device D W}
    {code : Nat → List (Cairo.Instr D)} {blocks : Nat → List (Op D Name)} {s s' : CairoState D}
    {t t' : BerlinState D} {v : Operand D} {w : Nat} {st : State D W} {ev : Value D W D}
    (hst : st = knownOf ops.toFloatOps cells known m) (hsub : known ⊆ cells)
    (hdefined : Defined st ev fun _ => True)
    (hm : Follows (Machine.step ops device code)
      ((Cairo.cairo ops device).Waits (cells.map Prod.fst) code) m ev
      ((Cairo.cairo ops device).Went s.builder s'.builder (cells.map Prod.fst) code m fun m =>
        m.val v))
    (hth : Follows (Thread.step ops device.call blocks)
      ((Berlin.berlin ops device.call).Waits (cells.map Prod.snd) blocks) th ev
      ((Berlin.berlin ops device.call).Went t.builder t'.builder (cells.map Prod.snd) blocks th
        fun th => th.env.floats w)) :
    RunAlike ops device known code blocks s' t' v w m th := by
  subst hst
  cases ev with
  | unknown => exact hdefined.elim
  | waits what st' =>
    obtain ⟨m', hreach, -, hwaits⟩ := hm
    obtain ⟨th', hreach', -, hwaits'⟩ := hth
    exact ⟨m', th', hreach, hreach', .of_matches hdefined hsub hwaits.mem hwaits'.mem,
      .inr ⟨what, hwaits.call, hwaits'.call⟩⟩
  | done x st' =>
    obtain ⟨m', hreach, hwent⟩ := hm
    obtain ⟨th', hreach', hwent'⟩ := hth
    exact ⟨m', th', hreach, hreach', .of_matches hdefined.1 hsub hwent.stands.mem hwent'.stands.mem,
      .inl ⟨hwent.stands.at_, hwent'.stands.at_, hwent'.kept.around,
        hwent.read.trans hwent'.read.symm⟩⟩

/-- On expressions without loops and built-ins, Cairo and Berlin agree, and leave
corresponding tables. The memories have to agree on the cells that there were; where a
`var` binds a name twice, also on those that the expression allocates, since the name may
keep one of them. -/
theorem expressions_agree {ops : IntOps D} (device : Device D W) {e : ExprAST D}
    {s s' : CairoState D} {t t' : BerlinState D} {v : Operand D} {w : Nat}
    (hconv : ∀ b : Bool, ops.sitofp (if b then 1 else 0) = ops.uitofp b)
    (hfree : loopFree (fun callee => !isBuiltinCall callee) e = true)
    (hs : s.builder.Wf) (ht : t.builder.Wf) (h : Corresponding cells s t)
    (hcairo : Cairo.gen ops e s = .ok v s') (hberlin : Berlin.gen ops.toFloatOps e t = .ok w t') :
    ∃ cells', cells <+: cells' ∧ Corresponding cells' s' t' ∧
      ∀ known, (if noRepeat e then cells else cells') ⊆ known → known ⊆ cells' →
      ∀ code blocks, Emitted s.builder.code s'.builder.code code →
        Emitted t.builder.blocks t'.builder.blocks blocks →
      ∀ m th, s.builder.At m → t.builder.At blocks th → SameMemory known m th →
        RunAlike ops device known code blocks s' t' v w m th := by
  obtain ⟨sc, hnext, hsplaced, htplaced⟩ := h.scope hs ht
  obtain ⟨hres, slots, hslots⟩ :=
    Cairo.meant_of_loopFree ops device e hfree s v s' sc _ hcairo hsplaced
  obtain ⟨-, memrefs, hmemrefs⟩ :=
    Berlin.meant_of_loopFree hconv device.call _ e hfree t w t' sc _ hberlin htplaced
  have hafter := Corresponding.of_placed hslots.placed hmemrefs.placed
  have hlength : slots.length = memrefs.length :=
    hslots.placed.scope.length.trans hmemrefs.placed.scope.length.symm
  have hfst : (slots.zip memrefs).map Prod.fst = slots := List.map_fst_zip (Nat.le_of_eq hlength)
  have hsnd : (slots.zip memrefs).map Prod.snd = memrefs :=
    List.map_snd_zip (Nat.le_of_eq hlength.symm)
  have hbefore : cells <+: slots.zip memrefs := by
    obtain ⟨more, hmore⟩ := hslots.cells
    obtain ⟨more', hmore'⟩ := hmemrefs.cells
    refine ⟨more.zip more', ?_⟩
    rw [← hmore, ← hmore', List.zip_append (by simp), ← List.unzip_fst, ← List.unzip_snd,
      List.zip_unzip]
  refine ⟨slots.zip memrefs, hbefore, hafter, ?_⟩
  intro known hknown hsub code blocks hcode hblocks m th hm hth hsame
  have hready : Ready (noRepeat e) sc (knownOf ops.toFloatOps (slots.zip memrefs) known m) :=
    knownOf_ready hbefore hnext hsplaced.scope.inside hknown
  have hdefined : Defined _ (eval ops.toFloatOps device.call (holds ops) e sc _) fun _ => True :=
    eval_defined e sc _ hres id hready
  have hstart : (Cairo.cairo ops device).Stands s.builder ((slots.zip memrefs).map Prod.fst) code
      (knownOf ops.toFloatOps (slots.zip memrefs) known m) m := ⟨hm, knownOf_matches m⟩
  have hstart' : (Berlin.berlin ops device.call).Stands t.builder ((slots.zip memrefs).map Prod.snd)
      blocks (knownOf ops.toFloatOps (slots.zip memrefs) known m) th := ⟨hth, hsame.known_matches⟩
  exact runAlike_of_follows rfl hsub hdefined
    (hslots.follows _ code ⟨[], by rw [List.append_nil, hfst]⟩ hafter.slots hcode m _ hstart)
    (hmemrefs.follows _ blocks ⟨[], by rw [List.append_nil, hsnd]⟩ hafter.memrefs hblocks th
      _ hstart')

/-! ## A branch with a `var` of its own and a call -/

/-- In Cairo, `x` and a function `f` of one argument. -/
def slotOfX : CairoState Int where
  theModule name := if name = text "f" then some ⟨false, 1⟩ else none
  builder := { function := 0, nextCell := 1 }
  namedValues name := if name = text "x" then some ⟨0, 0⟩ else none

/-- In Berlin, `x`. -/
def memrefOfX : BerlinState Int where
  builder := { insertPoint := .atEnd 0, nextBlock := 1, nextValue := 1 }
  namedValues name := if name = text "x" then some 0 else none

/-- `if x < 3 then (var y = x in y = y + 1) else f(x)`. -/
def stepOrCall : ExprAST Int :=
  .ifExpr (.binaryExpr (byte '<') (.variableExpr (text "x")) (.numberExpr 3))
    (.varExpr [(text "y", .variableExpr (text "x"))]
      (.binaryExpr (byte '=') (.variableExpr (text "y"))
        (.binaryExpr (byte '+') (.variableExpr (text "y")) (.numberExpr 1))))
    (.callExpr (text "f") [.variableExpr (text "x")])

/-- `f` adds its arguments to the world. -/
def addingDevice : Device Int Int where
  call _ args world := some (args.sum, world + args.sum)
  special _ _ := 0
  load _ _ _ := none
  store _ _ _ _ := none

def machineAtX (x : Int) : Machine Int Int :=
  ⟨0, 0, 0, fun _ => 0, fun _ => 0, fun _ => false, fun _ => (⟨0, 0⟩, 0), fun _ => x, 0, []⟩

def threadAtX (blocks : Nat → List (Op Int Name)) (x : Int) : Thread Int Name Int :=
  ⟨⟨fun _ => 0, fun _ => false, fun _ => 0, fun _ => x, 0, []⟩, blocks 0, []⟩

theorem corresponding_x : Corresponding [(⟨0, 0⟩, 0)] slotOfX memrefOfX where
  slots := by decide
  memrefs := by decide
  allocated := by
    intro p hp
    rw [List.mem_singleton.mp hp]
    decide
  names := by
    intro name
    by_cases hx : name = text "x"
    · exact .inr ⟨_, List.mem_singleton_self _, if_pos hx, if_pos hx⟩
    · exact .inl ⟨if_neg hx, if_neg hx⟩

theorem expressions_agree_stepOrCall : ∃ s' t' cells',
    Cairo.gen wholeIntOps stepOrCall slotOfX = .ok (.reg 9) s' ∧
    Berlin.gen wholeOps stepOrCall memrefOfX = .ok 8 t' ∧ Corresponding cells' s' t' ∧
    ∀ x, RunAlike wholeIntOps addingDevice [(⟨0, 0⟩, 0)] s'.builder.code t'.builder.blocks s' t'
      (.reg 9) 8 (machineAtX x) (threadAtX t'.builder.blocks x) := by
  have hs : slotOfX.builder.Wf := ⟨Nat.zero_lt_one, fun _ _ => rfl, fun _ _ h => by cases h⟩
  have ht : memrefOfX.builder.Wf := ⟨⟨0, rfl, Nat.zero_lt_one⟩, fun _ _ => rfl⟩
  have hcairo : (Cairo.gen wholeIntOps stepOrCall slotOfX).value? = some (.reg 9) := by
    decide +kernel
  have hberlin : (Berlin.gen wholeOps stepOrCall memrefOfX).value? = some 8 := by
    decide +kernel
  obtain ⟨s', hs'⟩ := Outcome.ok_of_value hcairo
  obtain ⟨t', ht'⟩ := Outcome.ok_of_value hberlin
  have hconv : ∀ b : Bool, wholeIntOps.sitofp (if b then 1 else 0) = wholeIntOps.uitofp b := by
    decide
  obtain ⟨cells', hbefore, hcorresponding, hrun⟩ := expressions_agree addingDevice
    hconv (by decide) hs ht corresponding_x hs' ht'
  refine ⟨s', t', cells', hs', ht', hcorresponding, fun x => ?_⟩
  have hsub : [((⟨0, 0⟩ : Owned), 0)] ⊆ cells' := hbefore.subset
  refine hrun _ ?_ hsub _ _ (.of_le fun _ => List.prefix_rfl) (.of_le fun _ => List.prefix_rfl)
    _ _ ⟨rfl, rfl⟩ ⟨0, rfl, rfl⟩ ⟨fun _ _ => rfl, rfl, rfl⟩
  rw [if_pos (by decide)]
  exact List.Subset.refl _

end

end AroundTheWorld.Agreement
