import AroundTheWorld.Lex.Decimal
import AroundTheWorld.Dublin.SmtEmitter

/-!
# The names of a query

A value is named after a hint, the name of the argument or the mnemonic of the
operation, with the number of names before it directly behind. `Introduces x
new`: what an emitter function adds to the query are values with the hints
`new`, in this order. The mnemonics have no digits, but an argument may be
called `c1`.
-/

namespace AroundTheWorld.Dublin

open AroundTheWorld.Base AroundTheWorld.Lex AroundTheWorld.Smt

/-! ## The hints of a query -/

def relationHints (op : Text) : List Text :=
  if op = text "+" then [text "add"]
  else if op = text "-" then [text "sub"]
  else if op = text "*" then [text "mul"]
  else if op = text "==" then [text "eq"]
  else if op = text "!=" then [text "eq", text "neq"]
  else [text "cmp"]

mutual

/-- The hints of the operations for an expression, in the order of emission. -/
def Expr.hints : Expr → List Text
  | .null => []
  | .integer _ => [text "c"]
  | .bool _ => [text "b"]
  | .variable_ _ => []
  | .unary op operand => operand.hints ++ [if op = text "!" then text "not" else text "neg"]
  | .binary op lhs rhs => lhs.hints ++ rhs.hints ++ relationHints op
  | .call _ args => argsHints args ++ [text "ucmp"]

def argsHints : List Expr → List Text
  | [] => []
  | arg :: args => arg.hints ++ argsHints args

end

theorem argsHints_eq (args : List Expr) : argsHints args = args.flatMap Expr.hints := by
  induction args with
  | nil => rfl
  | cons arg args ih => rw [argsHints, ih, List.flatMap_cons]

/-- The operations of the query for an assertion: the earlier assertions, the
assertion itself and its negation. -/
def VerifyBlock.operationHints (block : VerifyBlock) (assertionIndex : Nat) : List Text :=
  (block.assertions.take (assertionIndex + 1)).flatMap Expr.hints ++ [text "bad"]

/-- All values of the query, the arguments first. -/
def VerifyBlock.hints (block : VerifyBlock) (assertionIndex : Nat) : List Text :=
  block.args.map (·.name) ++ block.operationHints assertionIndex

/-- The name of the value with number `k`. -/
def valueName (hint : Text) (k : Nat) : Text :=
  text "%" ++ cleanName hint ++ toText (k % 2 ^ 32)

def valueNames (hints : List Text) : List Text := hints.zipIdx.map fun p => valueName p.1 p.2

theorem valueNames_concat (hints : List Text) (hint : Text) :
    valueNames (hints ++ [hint]) = valueNames hints ++ [valueName hint hints.length] := by
  simp [valueNames, List.zipIdx_append]

theorem getElem?_valueNames (hints : List Text) (k : Nat) :
    (valueNames hints)[k]? = hints[k]?.map fun hint => valueName hint k := by
  simp [valueNames, Function.comp_def]

/-! ## What the emitter introduces -/

/-- The query so far has the values with these hints. -/
structure Numbered (hints : List Text) (s : SmtEmitter) : Prop where
  names : s.out.names = valueNames hints
  nextId : s.nextId = hints.length % 2 ^ 32

def Introduces {α : Type} (x : Emit α) (new : List Text) : Prop :=
  ∀ s v s' hints, x s = .ok v s' → Numbered hints s → Numbered (hints ++ new) s'

namespace Introduces

variable {α β : Type}

theorem pure (v : α) : Introduces (Pure.pure v : Emit α) [] := by
  intro s w s' hints hrun hs
  cases hrun
  rwa [List.append_nil]

theorem fail {message : Text} {new : List Text} :
    Introduces (Dublin.fail message : Emit α) new := by
  intro s w s' hints hrun
  cases hrun

theorem abort {why : Crash} {new : List Text} : Introduces (Gen.abort why : Emit α) new := by
  intro s w s' hints hrun
  cases hrun

theorem bind {x : Emit α} {f : α → Emit β} {new new' : List Text} (hx : Introduces x new)
    (hf : ∀ v, Introduces (f v) new') : Introduces (x >>= f) (new ++ new') := by
  intro s w s'' hints hrun hs
  obtain ⟨v, s', hrun₁, hrun₂⟩ := Gen.bind_ok hrun
  rw [← List.append_assoc]
  exact hf v s' w s'' _ hrun₂ (hx s v s' hints hrun₁ hs)

/-- A call that changes neither the query nor the counter. -/
theorem of_same {x : Emit α}
    (hx : ∀ s v s', x s = .ok v s' → s'.out.names = s.out.names ∧ s'.nextId = s.nextId) :
    Introduces x [] := by
  intro s v s' hints hrun hs
  obtain ⟨hnames, hid⟩ := hx s v s' hrun
  rw [List.append_nil]
  exact ⟨hnames.trans hs.names, hid.trans hs.nextId⟩

end Introduces

theorem emitDef_introduces (hint : Text) (d : Def Text) : Introduces (emitDef hint d) [hint] := by
  intro s v s' hints hrun hs
  obtain ⟨name, s₁, hname, hrun⟩ := Gen.bind_ok hrun
  obtain ⟨_, s₂, hwrite, hrun⟩ := Gen.bind_ok hrun
  cases hname
  cases hwrite
  cases hrun
  have hname : valueName hint hints.length =
      text "%" ++ cleanName hint ++ text (toString s.nextId) := by rw [hs.nextId]; rfl
  constructor
  · rw [valueNames_concat, hname, ← hs.names]
    exact Program.names_append _ _
  · show (s.nextId + 1) % 2 ^ 32 = _
    rw [hs.nextId, List.length_append, List.length_singleton]
    omega

theorem lookupSymbol_introduces (name : Text) : Introduces (lookupSymbol name) [] := by
  apply Introduces.of_same
  intro s v s' hrun
  cases hrun
  exact ⟨rfl, rfl⟩

theorem bindSymbol_introduces (name : Text) (value : SmtValue) :
    Introduces (bindSymbol name value) [] := by
  apply Introduces.of_same
  intro s v s' hrun
  cases hrun
  exact ⟨rfl, rfl⟩

theorem writeAssert_introduces (operand : Text) : Introduces (writeLine (.assert operand)) [] := by
  apply Introduces.of_same
  intro s v s' hrun
  cases hrun
  constructor
  · show Program.names (s.out ++ [Line.assert operand]) = _
    rw [Program.names_append]
    exact List.append_nil _
  · rfl

/-! ## One lemma for each kind of expression -/

theorem emitInteger_introduces (value : Int) (expected : Option Ty) :
    Introduces (emitInteger value expected) [text "c"] := by
  unfold emitInteger
  split
  · exact emitDef_introduces _ _
  · exact .fail

theorem emitVariable_introduces (name : Text) : Introduces (emitVariable name) [] := by
  show Introduces (lookupSymbol name >>= _) ([] ++ [])
  refine (lookupSymbol_introduces name).bind fun value => ?_
  cases value with
  | none => exact .fail
  | some value => exact .pure value

section
variable {lhs rhs operand : Option Ty → Emit SmtValue} {new new' : List Text}
  {news : List (List Text)}

theorem emitUnary_introduces (op : Text) (h : ∀ expected, Introduces (operand expected) new)
    (expected : Option Ty) : Introduces (emitUnary op operand expected)
      (new ++ [if op = text "!" then text "not" else text "neg"]) := by
  unfold emitUnary
  by_cases hnot : op = text "!"
  · rw [if_pos hnot, if_pos hnot]
    refine (h _).bind fun x => ?_
    split
    · exact emitDef_introduces _ _
    · exact .fail
  rw [if_neg hnot, if_neg hnot]
  by_cases hneg : op = text "-"
  · rw [if_pos hneg]
    refine (h _).bind fun x => ?_
    split
    · exact emitDef_introduces _ _
    · exact .fail
  · rw [if_neg hneg]
    exact .fail

theorem emitOperands_introduces (hl : ∀ expected, Introduces (lhs expected) new)
    (hr : ∀ expected, Introduces (rhs expected) new') (expected : Option Ty) :
    Introduces (emitOperands lhs rhs expected) (new ++ new') := by
  refine (hl expected).bind fun l => ?_
  have h := (hr (some l.type)).bind fun r => Introduces.pure (l, r)
  rwa [List.append_nil] at h

theorem emitArithmetic_introduces (hint : String) (op : BinOp) (l r : SmtValue) :
    Introduces (emitArithmetic hint op l r) [text hint] := by
  unfold emitArithmetic
  split
  · exact emitDef_introduces _ _
  · exact .fail

theorem emitEquality_introduces (negated : Bool) (l r : SmtValue) :
    Introduces (emitEquality negated l r)
      (if negated then [text "eq", text "neq"] else [text "eq"]) := by
  unfold emitEquality
  by_cases htype : l.type = r.type
  · rw [if_pos htype]
    cases negated with
    | true => exact (emitDef_introduces _ _).bind fun eq => emitDef_introduces _ _
    | false => exact (emitDef_introduces (text "eq") _).bind fun eq => Introduces.pure eq
  · rw [if_neg htype]
    exact .fail

theorem emitComparison_introduces (hint message : Text) (pred : Pred) (l r : SmtValue) :
    Introduces (emitComparison hint message pred l r) [hint] := by
  unfold emitComparison
  split
  · exact emitDef_introduces _ _
  · exact .fail

theorem emitBinary_introduces (op : Text) (hl : ∀ expected, Introduces (lhs expected) new)
    (hr : ∀ expected, Introduces (rhs expected) new') (expected : Option Ty) :
    Introduces (emitBinary op lhs rhs expected) (new ++ new' ++ relationHints op) := by
  have hoperands := emitOperands_introduces hl hr expected
  unfold emitBinary relationHints
  by_cases harith : op = text "+" ∨ op = text "-" ∨ op = text "*"
  · rw [if_pos harith]
    refine hoperands.bind fun p => ?_
    by_cases hadd : op = text "+"
    · simp only [if_pos hadd]
      exact emitArithmetic_introduces _ _ _ _
    simp only [if_neg hadd]
    by_cases hsub : op = text "-"
    · simp only [if_pos hsub]
      exact emitArithmetic_introduces _ _ _ _
    · have hmul : op = text "*" := (harith.resolve_left hadd).resolve_left hsub
      simp only [if_neg hsub, if_pos hmul]
      exact emitArithmetic_introduces _ _ _ _
  rw [if_neg harith]
  simp only [not_or] at harith
  rw [if_neg harith.1, if_neg harith.2.1, if_neg harith.2.2]
  by_cases hequal : op = text "=="
  · rw [if_pos (.inl hequal), if_pos hequal]
    refine hoperands.bind fun p => ?_
    have h := emitEquality_introduces (op != text "==") p.1 p.2
    rwa [hequal, bne_self_eq_false] at h ⊢
  rw [if_neg hequal]
  by_cases hunequal : op = text "!="
  · rw [if_pos (.inr hunequal), if_pos hunequal]
    refine hoperands.bind fun p => ?_
    have h := emitEquality_introduces (op != text "==") p.1 p.2
    rwa [bne_iff_ne.mpr hequal] at h ⊢
  rw [if_neg (not_or.mpr ⟨hequal, hunequal⟩), if_neg hunequal]
  split
  · exact hoperands.bind fun p => emitComparison_introduces _ _ _ _ _
  · exact .fail

theorem emitCall_introduces (callee : Text) {args : List (Option Ty → Emit SmtValue)}
    (h : List.Forall₂ (fun x new => ∀ expected, Introduces (x expected) new) args news) :
    Introduces (emitCall callee args) (news.flatten ++ [text "ucmp"]) := by
  unfold emitCall
  split
  · exact .fail
  split
  · obtain - | ⟨hl, - | ⟨hr, - | _⟩⟩ := h
    have hoperands := emitOperands_introduces hl hr none
    simp only [List.flatten_cons, List.flatten_nil, List.append_nil]
    exact hoperands.bind fun p => emitComparison_introduces _ _ _ _ _
  · exact .fail

end

theorem emitExpr_introduces (e : Expr) :
    ∀ expected, Introduces (emitExpr e expected) e.hints := by
  induction e using Expr.induction with
  | null =>
    intro expected
    rw [emitExpr]
    exact .abort
  | integer value =>
    intro expected
    rw [emitExpr, Expr.hints]
    exact emitInteger_introduces value expected
  | bool value =>
    intro expected
    rw [emitExpr, Expr.hints]
    exact emitDef_introduces _ _
  | variable_ name =>
    intro expected
    rw [emitExpr, Expr.hints]
    exact emitVariable_introduces name
  | call callee args ih =>
    intro expected
    rw [emitExpr, Expr.hints]
    have hargs : List.Forall₂ (fun x new => ∀ expected, Introduces (x expected) new)
        (emitArgs args) (args.map Expr.hints) := by
      induction args with
      | nil => exact .nil
      | cons arg args ihargs =>
        rw [emitArgs]
        exact .cons (ih arg (by simp)) (ihargs fun a ha => ih a (by simp [ha]))
    rw [argsHints_eq, List.flatMap_def]
    exact emitCall_introduces callee hargs
  | unary op operand ih =>
    intro expected
    rw [emitExpr, Expr.hints]
    exact emitUnary_introduces op ih expected
  | binary op lhs rhs ihl ihr =>
    intro expected
    rw [emitExpr, Expr.hints]
    exact emitBinary_introduces op ihl ihr expected

/-! ## The query -/

theorem declareArgs_introduces (args : List Argument) :
    Introduces (declareArgs args) (args.map (·.name)) := by
  induction args with
  | nil => exact .pure ()
  | cons arg args ih =>
    show Introduces (lookupSymbol arg.name >>= _) ([] ++ (arg.name :: args.map (·.name)))
    refine (lookupSymbol_introduces arg.name).bind fun declared => ?_
    cases declared with
    | some _ => exact .fail
    | none =>
      show Introduces _ ([arg.name] ++ ([] ++ args.map (·.name)))
      refine (emitDef_introduces arg.name _).bind fun value => ?_
      exact (bindSymbol_introduces arg.name value).bind fun _ => ih

theorem emitCondition_introduces (condition : Expr) :
    Introduces (emitCondition condition) condition.hints := by
  unfold emitCondition
  rw [← List.append_nil condition.hints]
  refine (emitExpr_introduces condition none).bind fun value => ?_
  split
  · exact .pure value
  · exact .fail

theorem emitAssumptions_introduces (conditions : List Expr) :
    Introduces (emitAssumptions conditions) (conditions.flatMap Expr.hints) := by
  induction conditions with
  | nil => exact .pure ()
  | cons condition rest ih =>
    rw [List.flatMap_cons]
    refine (emitCondition_introduces condition).bind fun assumption => ?_
    show Introduces _ ([] ++ rest.flatMap Expr.hints)
    exact (writeAssert_introduces assumption.name).bind fun _ => ih

theorem emit_introduces (block : VerifyBlock) (i : Nat) :
    Introduces (emit block i) (block.hints i) := by
  unfold emit VerifyBlock.hints VerifyBlock.operationHints
  refine (declareArgs_introduces block.args).bind fun _ => ?_
  rw [List.take_add_one, List.flatMap_append, List.append_assoc]
  refine (emitAssumptions_introduces _).bind fun _ => ?_
  cases block.assertions[i]? with
  | none => exact .abort
  | some condition =>
    rw [Option.toList_some, List.flatMap_singleton, ← List.append_nil (condition.hints ++ _),
      List.append_assoc]
    refine (emitCondition_introduces condition).bind fun assertion => ?_
    refine (emitDef_introduces (text "bad") _).bind fun bad => ?_
    exact writeAssert_introduces bad.name

/-- The names of a query are those of its hints. -/
theorem emitted_names {block : VerifyBlock} {i : Nat} {lines : Program Text}
    (hemit : emitted block i = some lines) : lines.names = valueNames (block.hints i) := by
  obtain ⟨⟨⟩, s', hrun, hlines⟩ := Outcome.ok_of_state hemit
  have hnumbered := emit_introduces block i {} () s' [] hrun ⟨rfl, rfl⟩
  rw [← hlines, hnumbered.names, List.nil_append]

/-! ## Distinct names -/

theorem valueName_eq_iff (hint hint' : Text) (k k' : Nat) : valueName hint k = valueName hint' k' ↔
    decimal.Clash (cleanName hint) (k % 2 ^ 32) (cleanName hint') (k' % 2 ^ 32) := by
  unfold valueName
  rw [List.append_assoc, List.append_assoc, List.append_cancel_left_eq]
  exact decimal.append_eq_iff

/-- A mnemonic stands in a name as it is, and has no digits. -/
def Mnemonic (hint : Text) : Prop := cleanName hint = hint ∧ decimal.Plain hint

theorem Mnemonic.of_all {hint : Text} (hclean : cleanName hint = hint)
    (hplain : hint.all (fun c => !isDecimalDigit c) = true) : Mnemonic hint := by
  refine ⟨hclean, fun c hc hdigit => ?_⟩
  have hnot := List.all_eq_true.mp hplain c hc
  rw [show isDecimalDigit c = true from hdigit] at hnot
  cases hnot

theorem relationHints_mnemonic (op : Text) : ∀ hint ∈ relationHints op, Mnemonic hint := by
  have hall : ∀ hint ∈ [text "add", text "sub", text "mul", text "eq", text "neq", text "cmp"],
      cleanName hint = hint ∧ hint.all (fun c => !isDecimalDigit c) = true := by decide
  intro hint h
  have hmem : hint ∈ [text "add", text "sub", text "mul", text "eq", text "neq", text "cmp"] := by
    unfold relationHints at h
    split_ifs at h
    all_goals
      simp only [List.mem_cons, List.not_mem_nil, or_false] at h ⊢
      tauto
  exact .of_all (hall hint hmem).1 (hall hint hmem).2

theorem hints_mnemonic (e : Expr) : ∀ hint ∈ e.hints, Mnemonic hint := by
  induction e using Expr.induction with
  | null =>
    intro hint h
    cases h
  | integer value =>
    intro hint h
    obtain rfl := List.mem_singleton.mp h
    exact .of_all (by decide) (by decide)
  | bool value =>
    intro hint h
    obtain rfl := List.mem_singleton.mp h
    exact .of_all (by decide) (by decide)
  | variable_ name =>
    intro hint h
    cases h
  | call callee args ih =>
    intro hint h
    rw [Expr.hints, argsHints_eq] at h
    rcases List.mem_append.mp h with h | h
    · obtain ⟨arg, harg, h⟩ := List.mem_flatMap.mp h
      exact ih arg harg hint h
    · obtain rfl := List.mem_singleton.mp h
      exact .of_all (by decide) (by decide)
  | unary op operand ih =>
    intro hint h
    rw [Expr.hints] at h
    rcases List.mem_append.mp h with h | h
    · exact ih hint h
    · obtain rfl := List.mem_singleton.mp h
      split
      · exact .of_all (by decide) (by decide)
      · exact .of_all (by decide) (by decide)
  | binary op lhs rhs ihl ihr =>
    intro hint h
    rw [Expr.hints, List.append_assoc] at h
    rcases List.mem_append.mp h with h | h
    · exact ihl hint h
    rcases List.mem_append.mp h with h | h
    · exact ihr hint h
    · exact relationHints_mnemonic op hint h

theorem operationHints_mnemonic (block : VerifyBlock) (i : Nat) :
    ∀ hint ∈ block.operationHints i, Mnemonic hint := by
  intro hint h
  rcases List.mem_append.mp h with h | h
  · obtain ⟨e, -, h⟩ := List.mem_flatMap.mp h
    exact hints_mnemonic e hint h
  · obtain rfl := List.mem_singleton.mp h
    exact .of_all (by decide) (by decide)

/-- Two operations have one name exactly when they have one mnemonic and the
counter has come round. -/
theorem mnemonic_name_eq_iff {hint hint' : Text} (h : Mnemonic hint) (h' : Mnemonic hint')
    (k k' : Nat) :
    valueName hint k = valueName hint' k' ↔ hint = hint' ∧ k % 2 ^ 32 = k' % 2 ^ 32 := by
  rw [valueName_eq_iff, h.1, h'.1]
  exact h.2.clash_iff h'.2

/-- No argument is called like the hint of a later value, with digits behind it
that lead from the argument's number to the later one, and the counter does not
come round between two operations with one mnemonic. -/
structure NamesApart (block : VerifyBlock) (assertionIndex : Nat) : Prop where
  arguments : ∀ j k, j < k → ∀ arg, block.args[j]? = some arg →
    ∀ hint, (block.hints assertionIndex)[k]? = some hint →
      ¬ decimal.Clash (cleanName arg.name) (j % 2 ^ 32) (cleanName hint) (k % 2 ^ 32)
  operations : ∀ j k, j < k → ∀ hint, (block.operationHints assertionIndex)[j]? = some hint →
    (block.operationHints assertionIndex)[k]? = some hint → j % 2 ^ 32 ≠ k % 2 ^ 32

theorem hints_args {block : VerifyBlock} {i j : Nat} (hj : j < block.args.length) :
    (block.hints i)[j]? = block.args[j]?.map (·.name) := by
  rw [VerifyBlock.hints, List.getElem?_append_left (by rwa [List.length_map]), List.getElem?_map]

theorem hints_operations (block : VerifyBlock) (i j : Nat) :
    (block.hints i)[block.args.length + j]? = (block.operationHints i)[j]? := by
  rw [VerifyBlock.hints, List.getElem?_append_right (by simp), List.length_map,
    Nat.add_sub_cancel_left]

theorem valueNames_nodup_iff (block : VerifyBlock) (i : Nat) :
    (valueNames (block.hints i)).Nodup ↔ NamesApart block i := by
  rw [nodup_iff_getElem?_ne]
  simp only [getElem?_valueNames, Option.map_eq_some_iff]
  constructor
  · intro h
    constructor
    · intro j k hjk arg harg hint hhint hclash
      have hj : j < block.args.length := (List.getElem?_eq_some_iff.mp harg).1
      have hname : (block.hints i)[j]? = some arg.name := by rw [hints_args hj, harg]; rfl
      exact h j k hjk _ ⟨_, hname, rfl⟩ _ ⟨_, hhint, rfl⟩ ((valueName_eq_iff _ _ _ _).mpr hclash)
    · intro j k hjk hint hj hk hmod
      rw [← hints_operations] at hj hk
      refine h _ _ (by omega) _ ⟨_, hj, rfl⟩ _ ⟨_, hk, rfl⟩ ?_
      unfold valueName
      rw [show (block.args.length + j) % 2 ^ 32 = (block.args.length + k) % 2 ^ 32 by omega]
  · intro h j k hjk name hj name' hk heq
    obtain ⟨hint, hj, rfl⟩ := hj
    obtain ⟨hint', hk, rfl⟩ := hk
    by_cases hargs : j < block.args.length
    · rw [hints_args hargs] at hj
      obtain ⟨arg, harg, rfl⟩ := Option.map_eq_some_iff.mp hj
      exact h.arguments j k hjk arg harg hint' hk ((valueName_eq_iff _ _ _ _).mp heq)
    · obtain ⟨j', rfl⟩ := Nat.exists_eq_add_of_le (Nat.le_of_not_lt hargs)
      obtain ⟨k', rfl⟩ := Nat.exists_eq_add_of_le (show block.args.length ≤ k by omega)
      rw [hints_operations] at hj hk
      have hmnemonic := operationHints_mnemonic block i hint (List.mem_of_getElem? hj)
      have hmnemonic' := operationHints_mnemonic block i hint' (List.mem_of_getElem? hk)
      obtain ⟨rfl, hmod⟩ := (mnemonic_name_eq_iff hmnemonic hmnemonic' _ _).mp heq
      exact h.operations j' k' (by omega) hint hj hk (by omega)

/-- The values of a query have distinct names exactly when the arguments keep
clear of the names that the counter makes. -/
theorem names_distinct_iff {block : VerifyBlock} {i : Nat} {lines : Program Text}
    (hemit : emitted block i = some lines) : lines.names.Nodup ↔ NamesApart block i := by
  rw [emitted_names hemit]
  exact valueNames_nodup_iff block i

/-- `verify f(c1 i32) assert -c1 + 1 + 1 + 1 + 1 + 1 == c1;` -/
def collidingBlock : VerifyBlock where
  name := text "f"
  args := [⟨text "c1", .bv 32⟩]
  assertions :=
    let plusOne (e : Expr) : Expr := .binary (text "+") e (.integer 1)
    [.binary (text "==")
      (plusOne (plusOne (plusOne (plusOne (plusOne (.unary (text "-") (.variable_ (text "c1"))))))))
      (.variable_ (text "c1"))]

/-- The argument `c1` has the name of the fifth constant, which is value 10. -/
theorem names_repeat_for_c1 : ∃ lines, emitted collidingBlock 0 = some lines ∧
    (collidingBlock.args.map (·.name)).Nodup ∧ ¬ lines.names.Nodup := by
  have hsome : (emitted collidingBlock 0).isSome = true := by decide +kernel
  obtain ⟨lines, hlines⟩ := Option.isSome_iff_exists.mp hsome
  have hrepeat : (emitted collidingBlock 0).all (fun lines => decide ¬ lines.names.Nodup) =
      true := by
    decide +kernel
  rw [hlines] at hrepeat
  exact ⟨lines, hlines, List.nodup_singleton _, of_decide_eq_true hrepeat⟩

/-- `verify f(c1 i32) assert -c1 == 1;` -/
def clearBlock : VerifyBlock where
  name := text "f"
  args := [⟨text "c1", .bv 32⟩]
  assertions := [.binary (text "==") (.unary (text "-") (.variable_ (text "c1"))) (.integer 1)]

theorem names_distinct_iff_clear : ∃ lines, emitted clearBlock 0 = some lines ∧
    lines.names.Nodup ∧ NamesApart clearBlock 0 := by
  have hsome : (emitted clearBlock 0).isSome = true := by decide +kernel
  obtain ⟨lines, hlines⟩ := Option.isSome_iff_exists.mp hsome
  have hnodup : (emitted clearBlock 0).all (fun lines => decide lines.names.Nodup) = true := by
    decide +kernel
  rw [hlines] at hnodup
  have hnodup : lines.names.Nodup := of_decide_eq_true hnodup
  exact ⟨lines, hlines, hnodup, (names_distinct_iff hlines).mp hnodup⟩

end AroundTheWorld.Dublin
