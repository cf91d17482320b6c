import AroundTheWorld.Dublin.Typing

/-!
# What the emitter accepts

The emitter accepts what is legal. `Predicts view x r cs`: from a state whose
symbols have the types `Γ`, `x` returns something with the view `r`, if there is
one, and writes the bitvector constants `cs`. One lemma for each function of the
emitter, by which the constants of a query are the literals of its assertions, at
the widths of their types.
-/

namespace AroundTheWorld.Dublin

open AroundTheWorld.Base AroundTheWorld.Lex AroundTheWorld.Smt

mutual

/-- The literals, each at the width of the type that is expected of it. -/
def literals (Γ : ArgTypes) : Expr → Option Ty → List (Int × Nat)
  | .integer value, expected =>
    match expected.getD (.bv 32) with
    | .bv w => [(value, w)]
    | .bool => []
  | .unary op operand, expected => literals Γ operand (operandExpected op expected)
  | .binary _ lhs rhs, expected =>
    literals Γ lhs expected ++ literals Γ rhs (typeOf Γ lhs expected)
  | .call _ args, _ => argsLiterals Γ args none
  | _, _ => []

def argsLiterals (Γ : ArgTypes) : List Expr → Option Ty → List (Int × Nat)
  | [], _ => []
  | arg :: args, expected =>
    literals Γ arg expected ++ argsLiterals Γ args (typeOf Γ arg expected)

end

/-! ## Emitter functions that can be predicted -/

/-- The symbols have these types, and there are no others. -/
def SmtEmitter.Declares (s : SmtEmitter) (Γ : ArgTypes) : Prop :=
  ∀ name, (s.symbols name).map (·.type) = Γ name

structure Predicts {α β : Type} (Γ : ArgTypes) (view : α → β) (x : Emit α) (r : Option β)
    (cs : List (Int × Nat)) : Prop where
  ok : ∀ s v s', s.Declares Γ → x s = .ok v s' →
    r = some (view v) ∧ s'.symbols = s.symbols ∧ s'.out.constants = s.out.constants ++ cs
  total : ∀ s, s.Declares Γ → r.isSome → ∃ v s', x s = .ok v s'

namespace Predicts

variable {Γ : ArgTypes} {α β γ δ : Type} {view : α → β} {view' : γ → δ} {x : Emit α}
  {f : α → Emit γ} {r : Option β} {r' : Option δ} {cs cs' : List (Int × Nat)}

theorem pure (v : α) : Predicts Γ view (Pure.pure v : Emit α) (some (view v)) [] := by
  constructor
  · intro s w s' _ hrun
    cases hrun
    exact ⟨rfl, rfl, (List.append_nil _).symm⟩
  · exact fun s _ _ => ⟨v, s, rfl⟩

theorem fail {message : Text} : Predicts Γ view (Dublin.fail message : Emit α) none cs := by
  constructor
  · intro s v s' _ hrun
    cases hrun
  · intro s _ hsome
    cases hsome

theorem abort {why : Crash} : Predicts Γ view (Gen.abort why : Emit α) none cs := by
  constructor
  · intro s v s' _ hrun
    cases hrun
  · intro s _ hsome
    cases hsome

/-- What follows starts from the same symbols. -/
theorem bind (hx : Predicts Γ view x r cs) (hnone : r = none → r' = none)
    (hf : ∀ v, r = some (view v) → Predicts Γ view' (f v) r' cs') :
    Predicts Γ view' (x >>= f) r' (cs ++ cs') := by
  constructor
  · intro s w s'' hs hrun
    obtain ⟨v, s', hrun₁, hrun₂⟩ := Gen.bind_ok hrun
    obtain ⟨hview, hsym, hout⟩ := hx.ok s v s' hs hrun₁
    have hs' : s'.Declares Γ := by
      intro name
      rw [hsym]
      exact hs name
    obtain ⟨hview', hsym', hout'⟩ := (hf v hview).ok s' w s'' hs' hrun₂
    exact ⟨hview', hsym'.trans hsym, by rw [hout', hout, List.append_assoc]⟩
  · intro s hs hsome
    have hr : r.isSome := by
      rw [Option.isSome_iff_ne_none] at hsome ⊢
      exact fun h => hsome (hnone h)
    obtain ⟨v, s', hrun⟩ := hx.total s hs hr
    obtain ⟨hview, hsym, -⟩ := hx.ok s v s' hs hrun
    have hs' : s'.Declares Γ := by
      intro name
      rw [hsym]
      exact hs name
    obtain ⟨w, s'', hrun'⟩ := (hf v hview).total s' hs' hsome
    exact ⟨w, s'', (Gen.bind_of_ok hrun).trans hrun'⟩

/-- What follows writes no constant. -/
theorem bind_nil (hx : Predicts Γ view x r cs) (hnone : r = none → r' = none)
    (hf : ∀ v, r = some (view v) → Predicts Γ view' (f v) r' []) :
    Predicts Γ view' (x >>= f) r' cs := by
  rw [← List.append_nil cs]
  exact hx.bind hnone hf

end Predicts

section
variable {Γ : ArgTypes} {lhs rhs operand : Option Ty → Emit SmtValue}
  {leftType rightType operandType : Option Ty → Option Ty}
  {cs cs' : List (Int × Nat)} {expected : Option Ty}

theorem emitDef_predicts (hint : Text) (d : Def Text) :
    Predicts Γ SmtValue.type (emitDef hint d) (some d.type) d.constant?.toList := by
  constructor
  · intro s v s' _ hrun
    obtain ⟨htype, hout, hsym⟩ := emitDef_ok hrun
    refine ⟨by rw [htype], hsym, ?_⟩
    rw [hout, Program.constants_append]
    cases d <;> rfl
  · exact fun s _ _ => ⟨_, _, rfl⟩

/-! ## One lemma for each function of the emitter -/

theorem emitInteger_predicts (value : Int) (expected : Option Ty) :
    Predicts Γ SmtValue.type (emitInteger value expected) (typeOf Γ (.integer value) expected)
      (literals Γ (.integer value) expected) := by
  rw [typeOf, literals]
  unfold emitInteger literalType
  cases expected.getD (.bv 32) with
  | bv w => exact emitDef_predicts _ _
  | bool => exact .fail

theorem emitVariable_predicts (name : Text) :
    Predicts Γ SmtValue.type (emitVariable name) (Γ name) [] := by
  constructor
  · intro s v s' hs hrun
    obtain ⟨declared, s₁, hlookup, hrun⟩ := Gen.bind_ok hrun
    cases hlookup
    have htype := hs name
    cases hdeclared : s.symbols name with
    | none =>
      rw [hdeclared] at hrun
      cases hrun
    | some value =>
      rw [hdeclared] at hrun htype
      cases hrun
      exact ⟨htype.symm, rfl, (List.append_nil _).symm⟩
  · intro s hs hsome
    rw [← hs name, Option.isSome_map] at hsome
    obtain ⟨value, hvalue⟩ := Option.isSome_iff_exists.mp hsome
    refine ⟨value, s, ?_⟩
    have hlookup : lookupSymbol name s = .ok (some value) s := by rw [← hvalue]; rfl
    exact Gen.bind_of_ok hlookup

theorem emitUnary_predicts (op : Text)
    (h : Predicts Γ SmtValue.type (operand (operandExpected op expected))
      (operandType (operandExpected op expected)) cs) :
    Predicts Γ SmtValue.type (emitUnary op operand expected)
      ((operandType (operandExpected op expected)).bind (unaryType op)) cs := by
  unfold operandExpected at h ⊢
  unfold emitUnary unaryType
  by_cases hnot : op = text "!"
  · simp only [if_pos hnot] at h ⊢
    refine h.bind_nil (fun hnone => by rw [hnone]; rfl) fun x hx => ?_
    rw [hx, Option.bind_some]
    by_cases hbool : x.type = .bool
    · rw [if_pos hbool, if_pos hbool]
      exact emitDef_predicts _ _
    · rw [if_neg hbool, if_neg hbool]
      exact .fail
  simp only [if_neg hnot] at h ⊢
  by_cases hneg : op = text "-"
  · simp only [if_pos hneg]
    refine h.bind_nil (fun hnone => by rw [hnone]; rfl) fun x hx => ?_
    rw [hx, Option.bind_some]
    cases x.type with
    | bv w => exact emitDef_predicts _ _
    | bool => exact .fail
  · simp only [if_neg hneg]
    rw [Option.bind_fun_none]
    exact .fail

/-- The right operand is emitted with the type of the left one expected. -/
theorem emitOperands_predicts
    (hl : Predicts Γ SmtValue.type (lhs expected) (leftType expected) cs)
    (hr : ∀ l, leftType expected = some l →
      Predicts Γ SmtValue.type (rhs (some l)) (rightType (some l)) cs') :
    Predicts Γ (fun p : SmtValue × SmtValue => (p.1.type, p.2.type)) (emitOperands lhs rhs expected)
      (operandTypes leftType rightType expected) (cs ++ cs') := by
  unfold operandTypes
  refine hl.bind (fun hnone => by rw [hnone]; rfl) fun l hleft => ?_
  rw [hleft, Option.bind_some]
  refine (hr l.type hleft).bind_nil (fun hnone => by rw [hnone]; rfl) fun r hright => ?_
  rw [hright]
  exact .pure (l, r)

theorem sameBV_none {l r : SmtValue} (h : sameBV l r = none) :
    ¬ (l.type = r.type ∧ l.type ≠ .bool) := by
  rintro ⟨hlr, hbv⟩
  unfold sameBV at h
  rw [← hlr] at h
  cases hl : l.type with
  | bool => exact hbv hl
  | bv w =>
    rw [hl] at h
    simp at h

theorem emitArithmetic_predicts (hint : String) (op : BinOp) (l r : SmtValue) :
    Predicts Γ SmtValue.type (emitArithmetic hint op l r)
      (if l.type = r.type ∧ l.type ≠ .bool then some l.type else none) [] := by
  unfold emitArithmetic
  cases hw : sameBV l r with
  | none =>
    rw [if_neg (sameBV_none hw)]
    exact .fail
  | some w =>
    obtain ⟨hl, hr⟩ := sameBV_some hw
    rw [hl, hr, if_pos ⟨rfl, Ty.noConfusion⟩]
    exact emitDef_predicts _ _

theorem emitComparison_predicts (hint message : Text) (pred : Pred) (l r : SmtValue) :
    Predicts Γ SmtValue.type (emitComparison hint message pred l r)
      (comparisonType l.type r.type) [] := by
  unfold emitComparison comparisonType
  cases hw : sameBV l r with
  | none =>
    rw [if_neg (sameBV_none hw)]
    exact .fail
  | some w =>
    obtain ⟨hl, hr⟩ := sameBV_some hw
    rw [hl, hr, if_pos ⟨rfl, Ty.noConfusion⟩]
    exact emitDef_predicts _ _

theorem emitEquality_predicts (negated : Bool) (l r : SmtValue) :
    Predicts Γ SmtValue.type (emitEquality negated l r)
      (if l.type = r.type then some .bool else none) [] := by
  unfold emitEquality
  by_cases htype : l.type = r.type
  · rw [if_pos htype, if_pos htype]
    refine (emitDef_predicts (text "eq") _).bind_nil (fun hnone => by cases hnone) fun eq heq => ?_
    cases negated with
    | true => exact emitDef_predicts _ _
    | false =>
      rw [show some Ty.bool = some eq.type from heq]
      exact .pure eq
  · rw [if_neg htype, if_neg htype]
    exact .fail

theorem emitBinary_predicts (op : Text)
    (hl : Predicts Γ SmtValue.type (lhs expected) (leftType expected) cs)
    (hr : ∀ l, leftType expected = some l →
      Predicts Γ SmtValue.type (rhs (some l)) (rightType (some l)) cs') :
    Predicts Γ SmtValue.type (emitBinary op lhs rhs expected)
      ((operandTypes leftType rightType expected).bind fun p => binaryType op p.1 p.2)
      (cs ++ cs') := by
  have hoperands := emitOperands_predicts hl hr
  unfold emitBinary binaryType
  by_cases harith : IsArithmetic op
  · simp only [if_pos harith]
    refine hoperands.bind_nil (fun hnone => by rw [hnone]; rfl) fun p hp => ?_
    rw [hp, Option.bind_some]
    rcases harith with rfl | rfl | rfl
    all_goals exact emitArithmetic_predicts _ _ _ _
  simp only [if_neg harith]
  by_cases hequal : IsEquality op
  · simp only [if_pos hequal]
    refine hoperands.bind_nil (fun hnone => by rw [hnone]; rfl) fun p hp => ?_
    rw [hp, Option.bind_some]
    exact emitEquality_predicts _ _ _
  simp only [if_neg hequal]
  by_cases hcompare : IsComparison op
  · simp only [if_pos hcompare]
    refine hoperands.bind_nil (fun hnone => by rw [hnone]; rfl) fun p hp => ?_
    rw [hp, Option.bind_some]
    exact emitComparison_predicts _ _ _ _ _
  · simp only [if_neg hcompare]
    rw [Option.bind_fun_none]
    exact .fail

end

/-- What an emission of an expression does in every place. -/
def Predicted (Γ : ArgTypes) (e : Expr) : Prop :=
  ∀ expected, Predicts Γ SmtValue.type (emitExpr e expected) (typeOf Γ e expected)
    (literals Γ e expected)

theorem emitCall_predicts {Γ : ArgTypes} (callee : Text) {args : List Expr}
    (hargs : ∀ a ∈ args, Predicted Γ a) :
    Predicts Γ SmtValue.type (emitCall callee (emitArgs args)) (callType callee (typesOf Γ args))
      (argsLiterals Γ args none) := by
  unfold emitCall
  match args with
  | [] => cases findPred callee <;> exact .fail
  | [_] => cases findPred callee <;> exact .fail
  | _ :: _ :: _ :: _ => cases findPred callee <;> exact .fail
  | [lhs, rhs] =>
    simp only [emitArgs, typesOf, callType, argsLiterals, List.append_nil]
    cases findPred callee with
    | none => exact .fail
    | some pred =>
      have hoperands := emitOperands_predicts (hargs lhs (by simp) none) fun l hl => by
        have hr := hargs rhs (by simp) (some l)
        rwa [← hl] at hr ⊢
      refine hoperands.bind_nil (fun hnone => by rw [hnone]; rfl) fun p hp => ?_
      rw [hp]
      exact emitComparison_predicts _ _ _ _ _

theorem emitExpr_predicts (Γ : ArgTypes) (e : Expr) : Predicted Γ e := by
  induction e using Expr.induction with
  | null => exact fun expected => .abort
  | integer value => exact emitInteger_predicts value
  | bool value => exact fun expected => emitDef_predicts _ _
  | variable_ name => exact fun expected => emitVariable_predicts name
  | call callee args ih => exact fun expected => emitCall_predicts callee ih
  | unary op operand ih => exact fun expected => emitUnary_predicts op (ih _)
  | binary op lhs rhs ihl ihr =>
    intro expected
    rw [emitExpr, typeOf, literals]
    refine emitBinary_predicts op (ihl expected) fun l hl => ?_
    rw [hl]
    exact ihr (some l)

/-! ## The query -/

/-- The types of the arguments with one more. -/
def ArgTypes.extend (Γ : ArgTypes) (arg : Argument) : ArgTypes := fun name =>
  if name = arg.name then some arg.type else Γ name

/-- An argument with a new name is declared, and no other. -/
theorem declareArgs_cons {Γ : ArgTypes} {s : SmtEmitter} (hs : s.Declares Γ) (arg : Argument)
    (args : List Argument) (hnew : Γ arg.name = none) : ∃ s', s'.Declares (Γ.extend arg) ∧
      s'.out.constants = s.out.constants ∧ declareArgs (arg :: args) s = declareArgs args s' := by
  have hnone : s.symbols arg.name = none := by
    rw [← Option.map_eq_none_iff, hs arg.name]
    exact hnew
  obtain ⟨value, s₁, hdef⟩ := (emitDef_predicts (Γ := Γ) arg.name
    (.declareFun arg.name arg.type)).total s hs rfl
  obtain ⟨htype, hsym, hout⟩ := (emitDef_predicts arg.name _).ok s value s₁ hs hdef
  refine ⟨{ s₁ with symbols := fun k => if k = arg.name then some value else s₁.symbols k },
    fun name => ?_, by rw [hout]; exact List.append_nil _, ?_⟩
  · unfold ArgTypes.extend
    by_cases hname : name = arg.name
    · simp only [if_pos hname]
      exact htype.symm
    · simp only [if_neg hname, hsym]
      exact hs name
  · have hlookup : lookupSymbol arg.name s = .ok none s := by rw [← hnone]; rfl
    rw [declareArgs, Gen.bind_of_ok hlookup]
    exact Gen.bind_of_ok hdef

theorem declareArgs_repeated {Γ : ArgTypes} {s s' : SmtEmitter} (hs : s.Declares Γ) {arg : Argument}
    {args : List Argument} (hrun : declareArgs (arg :: args) s = .ok () s') :
    Γ arg.name = none := by
  obtain ⟨declared, s₁, hlookup, hrun⟩ := Gen.bind_ok hrun
  cases hlookup
  cases hdeclared : s.symbols arg.name with
  | some value =>
    rw [hdeclared] at hrun
    cases hrun
  | none => rw [← hs arg.name, hdeclared, Option.map_none]

/-- The types of the symbols behind the loop over the arguments. -/
def ArgTypes.declare (Γ : ArgTypes) (args : List Argument) : ArgTypes :=
  args.foldl ArgTypes.extend Γ

theorem declareArgs_predicts {args : List Argument} {Γ : ArgTypes} {s s' : SmtEmitter}
    (hs : s.Declares Γ) (hrun : declareArgs args s = .ok () s') :
    s'.Declares (Γ.declare args) ∧ s'.out.constants = s.out.constants ∧
      (args.map (·.name)).Nodup ∧ ∀ arg ∈ args, Γ arg.name = none := by
  induction args generalizing Γ s with
  | nil =>
    cases hrun
    exact ⟨hs, rfl, List.nodup_nil, by simp⟩
  | cons arg args ih =>
    have hnew := declareArgs_repeated hs hrun
    obtain ⟨s₁, hs₁, hout, heq⟩ := declareArgs_cons hs arg args hnew
    obtain ⟨hdeclares, hout', hnodup, hrest⟩ := ih hs₁ (heq ▸ hrun)
    have hother : ∀ arg' ∈ args, arg'.name ≠ arg.name ∧ Γ arg'.name = none := by
      intro arg' harg'
      have h := hrest arg' harg'
      unfold ArgTypes.extend at h
      split at h
      · cases h
      · rename_i hne
        exact ⟨hne, h⟩
    refine ⟨hdeclares, hout'.trans hout, ?_, ?_⟩
    · rw [List.map_cons, List.nodup_cons]
      refine ⟨fun hmem => ?_, hnodup⟩
      obtain ⟨arg', harg', hname⟩ := List.mem_map.mp hmem
      exact (hother arg' harg').1 hname
    · rw [List.forall_mem_cons]
      exact ⟨hnew, fun arg' harg' => (hother arg' harg').2⟩

theorem declareArgs_total {args : List Argument} {Γ : ArgTypes} {s : SmtEmitter}
    (hs : s.Declares Γ) (hnodup : (args.map (·.name)).Nodup)
    (hnew : ∀ arg ∈ args, Γ arg.name = none) : ∃ s', declareArgs args s = .ok () s' := by
  induction args generalizing Γ s with
  | nil => exact ⟨s, rfl⟩
  | cons arg args ih =>
    rw [List.forall_mem_cons] at hnew
    rw [List.map_cons, List.nodup_cons] at hnodup
    obtain ⟨s₁, hs₁, -, heq⟩ := declareArgs_cons hs arg args hnew.1
    rw [heq]
    refine ih hs₁ hnodup.2 fun arg' harg' => ?_
    have hne : arg'.name ≠ arg.name := fun h => hnodup.1 (List.mem_map.mpr ⟨arg', harg', h⟩)
    rw [ArgTypes.extend, if_neg hne]
    exact hnew.2 arg' harg'

/-- Of distinct names each has the type of its argument. -/
theorem declare_eq_find (Γ : ArgTypes) (args : List Argument)
    (hnodup : (args.map (·.name)).Nodup) (name : Text) : Γ.declare args name =
      ((args.find? fun arg => arg.name = name).map (·.type)).or (Γ name) := by
  induction args generalizing Γ with
  | nil => rfl
  | cons arg args ih =>
    rw [List.map_cons, List.nodup_cons] at hnodup
    change (Γ.extend arg).declare args name = _
    rw [ih _ hnodup.2]
    unfold ArgTypes.extend
    by_cases hname : arg.name = name
    · have hnone : args.find? (fun arg => arg.name = name) = none := by
        rw [List.find?_eq_none]
        intro arg' harg' h
        rw [decide_eq_true_eq] at h
        exact hnodup.1 (List.mem_map.mpr ⟨arg', harg', h.trans hname.symm⟩)
      rw [hnone, List.find?_cons_of_pos (by simpa using hname), if_pos hname.symm]
      rfl
    · rw [List.find?_cons_of_neg (by simpa using hname), if_neg (Ne.symm hname)]

section
variable {Γ : ArgTypes}

theorem writeAssert_predicts (operand : Text) :
    Predicts Γ id (writeLine (.assert operand)) (some ()) [] := by
  constructor
  · intro s v s' _ hrun
    cases hrun
    exact ⟨rfl, rfl, Program.constants_append _ _⟩
  · exact fun s _ _ => ⟨(), _, rfl⟩

/-- Boolean expressions. -/
def AreConditions (Γ : ArgTypes) (conditions : List Expr) : Prop :=
  ∀ e ∈ conditions, typeOf Γ e none = some .bool

instance (Γ : ArgTypes) (conditions : List Expr) : Decidable (AreConditions Γ conditions) :=
  inferInstanceAs (Decidable (∀ e ∈ conditions, typeOf Γ e none = some .bool))

theorem areConditions_cons (condition : Expr) (rest : List Expr) :
    AreConditions Γ (condition :: rest) ↔
      typeOf Γ condition none = some .bool ∧ AreConditions Γ rest := List.forall_mem_cons

theorem areConditions_concat (conditions : List Expr) (condition : Expr) :
    AreConditions Γ (conditions ++ [condition]) ↔
      AreConditions Γ conditions ∧ typeOf Γ condition none = some .bool := by
  unfold AreConditions
  rw [List.forall_mem_append, List.forall_mem_singleton]

theorem emitCondition_predicts (condition : Expr) :
    Predicts Γ SmtValue.type (emitCondition condition)
      (if typeOf Γ condition none = some .bool then some .bool else none)
      (literals Γ condition none) := by
  refine (emitExpr_predicts Γ condition none).bind_nil (fun hnone => by rw [hnone]; rfl)
    fun value hvalue => ?_
  rw [hvalue]
  by_cases htype : value.type = .bool
  · rw [if_pos htype, if_pos (congrArg some htype), ← htype]
    exact .pure value
  · rw [if_neg htype, if_neg fun h => htype (Option.some.inj h)]
    exact .fail

/-- Induction on the earlier assertions. -/
theorem emitAssumptions_predicts (conditions : List Expr) :
    Predicts Γ id (emitAssumptions conditions)
      (if AreConditions Γ conditions then some () else none)
      (conditions.flatMap fun e => literals Γ e none) := by
  induction conditions with
  | nil =>
    rw [if_pos (show AreConditions Γ [] from fun e he => absurd he List.not_mem_nil)]
    exact .pure ()
  | cons condition rest ih =>
    simp only [areConditions_cons, List.flatMap_cons]
    refine (emitCondition_predicts condition).bind (fun hnone => ?_) fun value hvalue => ?_
    · split at hnone
      · cases hnone
      · rename_i hcondition
        rw [if_neg fun h => hcondition h.1]
    · split at hvalue
      · rename_i hcondition
        simp only [hcondition, true_and]
        exact (writeAssert_predicts value.name).bind (fun hnone => by cases hnone) fun _ _ => ih
      · cases hvalue

end

/-- The arguments have distinct names, and the assertions up to this one are
boolean expressions. -/
structure VerifyBlock.Legal (block : VerifyBlock) (assertionIndex : Nat) : Prop where
  arguments : (block.args.map (·.name)).Nodup
  index : assertionIndex < block.assertions.length
  conditions : AreConditions block.argTypes (block.assertions.take (assertionIndex + 1))

theorem argTypes_eq_declare (block : VerifyBlock) (h : (block.args.map (·.name)).Nodup) :
    ArgTypes.declare (fun _ => none) block.args = block.argTypes := by
  funext name
  rw [declare_eq_find _ _ h, Option.or_none]
  rfl

/-- What `emit` does behind the arguments, for an assertion that the block has. -/
theorem emitQuery_predicts {Γ : ArgTypes} {block : VerifyBlock} {i : Nat} {condition : Expr}
    (hi : block.assertions[i]? = some condition) : Predicts Γ id
      (emitAssumptions (block.assertions.take i) >>= fun _ =>
        emitCondition condition >>= fun assertion =>
        emitDef (text "bad") (.not assertion.name) >>= fun bad => writeLine (.assert bad.name))
      (if AreConditions Γ (block.assertions.take (i + 1)) then some () else none)
      ((block.assertions.take (i + 1)).flatMap fun e => literals Γ e none) := by
  simp only [List.take_add_one, hi, Option.toList_some, List.flatMap_append, List.flatMap_singleton,
    areConditions_concat]
  refine (emitAssumptions_predicts _).bind (fun hnone => ?_) fun _ hassume => ?_
  · split at hnone
    · cases hnone
    · rename_i hconditions
      rw [if_neg fun h => hconditions h.1]
  split at hassume
  · rename_i hconditions
    simp only [hconditions, true_and]
    refine (emitCondition_predicts condition).bind_nil (fun hnone => ?_) fun assertion hvalue => ?_
    · split at hnone
      · cases hnone
      · rename_i hcondition
        rw [if_neg hcondition]
    split at hvalue
    · rename_i hcondition
      rw [if_pos hcondition]
      refine (emitDef_predicts _ _).bind_nil (fun hnone => by cases hnone) fun bad _ => ?_
      exact writeAssert_predicts bad.name
    · cases hvalue
  · cases hassume

/-- The emitter accepts exactly what is legal. -/
theorem emitted_isSome_iff (block : VerifyBlock) (i : Nat) :
    (emitted block i).isSome ↔ block.Legal i := by
  have hempty : SmtEmitter.Declares {} fun _ => none := fun _ => rfl
  constructor
  · intro hsome
    obtain ⟨lines, hemit⟩ := Option.isSome_iff_exists.mp hsome
    have hindex := emitted_lt hemit
    obtain ⟨⟨⟩, s', hrun, -⟩ := Outcome.ok_of_state hemit
    obtain ⟨⟨⟩, s₁, hargs, hrun⟩ := Gen.bind_ok hrun
    obtain ⟨hdeclares, -, hnodup, -⟩ := declareArgs_predicts hempty hargs
    rw [argTypes_eq_declare block hnodup] at hdeclares
    rw [List.getElem?_eq_getElem hindex] at hrun
    obtain ⟨hlegal, -⟩ := (emitQuery_predicts (List.getElem?_eq_getElem hindex)).ok s₁ () s'
      hdeclares hrun
    refine ⟨hnodup, hindex, ?_⟩
    split at hlegal
    · assumption
    · cases hlegal
  · intro hlegal
    obtain ⟨s₁, hargs⟩ := declareArgs_total hempty hlegal.arguments (by simp)
    obtain ⟨hdeclares, -⟩ := declareArgs_predicts hempty hargs
    rw [argTypes_eq_declare block hlegal.arguments] at hdeclares
    have hi := List.getElem?_eq_getElem hlegal.index
    obtain ⟨v, s', hrun⟩ := (emitQuery_predicts hi).total s₁ hdeclares (by
      rw [if_pos hlegal.conditions]
      rfl)
    have hemit : runEmitter block i = .ok v s' := by
      unfold runEmitter emit
      rw [Gen.bind_of_ok hargs, hi]
      exact hrun
    unfold emitted
    rw [hemit]
    rfl

/-- The constants of a query are the literals of its assertions. -/
theorem emitted_constants {block : VerifyBlock} {i : Nat} {lines : Program Text}
    (hemit : emitted block i = some lines) : lines.constants =
      (block.assertions.take (i + 1)).flatMap fun e => literals block.argTypes e none := by
  have hempty : SmtEmitter.Declares {} fun _ => none := fun _ => rfl
  have hindex := emitted_lt hemit
  obtain ⟨⟨⟩, s', hrun, rfl⟩ := Outcome.ok_of_state hemit
  obtain ⟨⟨⟩, s₁, hargs, hrun⟩ := Gen.bind_ok hrun
  obtain ⟨hdeclares, hout, hnodup, -⟩ := declareArgs_predicts hempty hargs
  rw [argTypes_eq_declare block hnodup] at hdeclares
  rw [List.getElem?_eq_getElem hindex] at hrun
  obtain ⟨-, -, hconstants⟩ := (emitQuery_predicts (List.getElem?_eq_getElem hindex)).ok s₁ () s'
    hdeclares hrun
  rw [hconstants, hout]
  rfl

/-! ## A block with one assertion -/

def asserting (name : Text) (args : List Argument) (condition : Expr) : VerifyBlock :=
  ⟨name, args, [condition]⟩

def typesOfArgs (args : List Argument) : ArgTypes := fun name =>
  (args.find? fun arg => arg.name = name).map (·.type)

section
variable {name : Text} {args : List Argument} {e : Expr} {lines : Program Text}

theorem asserting_legal_iff : (asserting name args e).Legal 0 ↔
    (args.map (·.name)).Nodup ∧ typeOf (typesOfArgs args) e none = some .bool := by
  constructor
  · intro h
    exact ⟨h.arguments, h.conditions e (List.mem_singleton.mpr rfl)⟩
  · rintro ⟨hnodup, htype⟩
    refine ⟨hnodup, Nat.one_pos, fun e' he' => ?_⟩
    obtain rfl := List.mem_singleton.mp he'
    exact htype

theorem asserting_accepted_iff : (emitted (asserting name args e) 0).isSome ↔
    (args.map (·.name)).Nodup ∧ typeOf (typesOfArgs args) e none = some .bool :=
  (emitted_isSome_iff _ _).trans asserting_legal_iff

/-- The query holds exactly when the assertion is false, and the assertion has a
truth value. -/
theorem asserting_holds (hemit : emitted (asserting name args e) 0 = some lines)
    (hdistinct : lines.names.Nodup) (ρ : Valuation Text) :
    ∃ b : Bool, eval (typesOfArgs args) ρ e .bool = some b ∧ (lines.Holds ρ ↔ b = false) := by
  obtain ⟨-, htype⟩ := asserting_accepted_iff.mp (Option.isSome_of_eq_some hemit)
  obtain ⟨b, hb⟩ := (typeOf_sound htype (.inl rfl)).2 ρ
  refine ⟨b, hb, ?_⟩
  have heval : (asserting name args e).evalAssertion ρ 0 = some b := hb
  rw [(emit_preserves_meaning hemit hdistinct ρ).2, heval, Option.some.injEq]
  simp

end

end AroundTheWorld.Dublin
