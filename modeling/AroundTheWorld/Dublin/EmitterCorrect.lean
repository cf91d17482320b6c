import AroundTheWorld.Dublin.Eval
import AroundTheWorld.Dublin.SmtEmitter

/-!
# The SMT emitter preserves meaning

`Adds P x Q`: what an emitter function adds to the program runs, unless a name
is used twice, and ends in values that `Q` describes. One lemma for each kind of
expression relates these values to the meaning of the expression, at the type
that the expected type and the operands determine together.
-/

namespace AroundTheWorld.Dublin

open AroundTheWorld.Base AroundTheWorld.Lex AroundTheWorld.Smt

/-! ## Emitter functions that add to a program -/

section
variable (Γ : ArgTypes) (ρ : Valuation Text)

/-- What has been written runs to `env`, in which the symbols have their values. -/
structure Sound (s : SmtEmitter) (env : Env Text) (holds : Bool) : Prop where
  run : Program.run ρ s.out (fun _ => none) = some (env, holds)
  symbols : ∀ name value, s.symbols name = some value →
    Γ name = some value.type ∧ env value.name = some ⟨value.type, ρ name value.type⟩

/-- From a sound state in which `P` holds, `x` comes to a sound state in which
`Q` holds, with the same constraints. -/
def Adds {α : Type} (P : Env Text → Prop) (x : Emit α) (Q : Env Text → α → Prop) : Prop :=
  ∀ s v s', x s = .ok v s' → s.out <+: s'.out ∧
    ∀ env holds, s'.out.names.Nodup → Sound Γ ρ s env holds → P env →
      ∃ env', Sound Γ ρ s' env' holds ∧ env.Extends env' ∧ Q env' v

end

section
variable {Γ : ArgTypes} {ρ : Valuation Text} {α β : Type} {P R : Env Text → Prop}
  {Q : Env Text → α → Prop} {T : Env Text → β → Prop}

theorem nodup_initial {p q : Program Text} (h : p <+: q) (hq : q.names.Nodup) :
    p.names.Nodup := by
  obtain ⟨rest, rfl⟩ := h
  rw [Program.names_append] at hq
  exact (List.nodup_append.mp hq).1

namespace Adds

theorem pure {v : α} (h : ∀ env, P env → Q env v) : Adds Γ ρ P (Pure.pure v : Emit α) Q := by
  intro s v' s' hrun
  cases hrun
  exact ⟨List.prefix_refl _, fun env holds _ hs hP => ⟨env, hs, .refl env, h env hP⟩⟩

theorem fail {message : Text} : Adds Γ ρ P (Dublin.fail message : Emit α) Q := by
  intro s v s' hrun
  cases hrun

theorem abort {why : Crash} : Adds Γ ρ P (Gen.abort why : Emit α) Q := by
  intro s v s' hrun
  cases hrun

theorem bind {x : Emit α} {f : α → Emit β} (hx : Adds Γ ρ P x Q)
    (hf : ∀ v, Adds Γ ρ (fun env => Q env v) (f v) T) : Adds Γ ρ P (x >>= f) T := by
  intro s w s'' hrun
  obtain ⟨v, s', hrun₁, hrun₂⟩ := Gen.bind_ok hrun
  obtain ⟨hpre₁, hx⟩ := hx s v s' hrun₁
  obtain ⟨hpre₂, hf⟩ := hf v s' w s'' hrun₂
  refine ⟨hpre₁.trans hpre₂, fun env holds hnodup hs hP => ?_⟩
  obtain ⟨env', hs', hext, hQ⟩ := hx env holds (nodup_initial hpre₂ hnodup) hs hP
  obtain ⟨env'', hs'', hext', hT⟩ := hf env' holds hnodup hs' hQ
  exact ⟨env'', hs'', hext.trans hext', hT⟩

theorem mono {x : Emit α} {Q' : Env Text → α → Prop} (hx : Adds Γ ρ P x Q)
    (h : ∀ env v, Q env v → Q' env v) : Adds Γ ρ P x Q' := by
  intro s v s' hrun
  obtain ⟨hpre, hx⟩ := hx s v s' hrun
  refine ⟨hpre, fun env holds hnodup hs hP => ?_⟩
  obtain ⟨env', hs', hext, hQ⟩ := hx env holds hnodup hs hP
  exact ⟨env', hs', hext, h env' v hQ⟩

/-- What further values do not disturb is still there afterwards. -/
theorem frame {x : Emit α} (hx : Adds Γ ρ P x Q)
    (hR : ∀ env env', Env.Extends env env' → R env → R env') :
    Adds Γ ρ (fun env => P env ∧ R env) x fun env v => Q env v ∧ R env := by
  intro s v s' hrun
  obtain ⟨hpre, hx⟩ := hx s v s' hrun
  refine ⟨hpre, fun env holds hnodup hs hP => ?_⟩
  obtain ⟨env', hs', hext, hQ⟩ := hx env holds hnodup hs hP.1
  exact ⟨env', hs', hext, hQ, hR env env' hext hP.2⟩

end Adds

theorem lookupSymbol_adds (name : Text) :
    Adds Γ ρ P (lookupSymbol name) fun env r => P env ∧ ∀ value, r = some value →
      Γ name = some value.type ∧ env value.name = some ⟨value.type, ρ name value.type⟩ := by
  intro s v s' hrun
  cases hrun
  exact ⟨List.prefix_refl _, fun env holds _ hs hP =>
    ⟨env, hs, .refl env, hP, fun value hvalue => hs.symbols name value hvalue⟩⟩

/-- The line that `emitDef` writes. -/
theorem emitDef_ok {hint : Text} {d : Def Text} {s s' : SmtEmitter} {v : SmtValue}
    (h : emitDef hint d s = .ok v s') : v.type = d.type ∧
      s'.out = s.out ++ [.define v.name d] ∧ s'.symbols = s.symbols := by
  obtain ⟨name, s₁, hname, h⟩ := Gen.bind_ok h
  obtain ⟨_, s₂, hwrite, h⟩ := Gen.bind_ok h
  cases hname
  cases hwrite
  cases h
  exact ⟨rfl, rfl, rfl⟩

theorem Sound.extend {s s' : SmtEmitter} {env env' : Env Text} {holds holds' : Bool}
    (h : Sound Γ ρ s env holds)
    (hrun : Program.run ρ s'.out (fun _ => none) = some (env', holds'))
    (hext : env.Extends env') (hsym : s'.symbols = s.symbols) : Sound Γ ρ s' env' holds' := by
  refine ⟨hrun, fun name value hvalue => ?_⟩
  obtain ⟨hΓ, hname⟩ := h.symbols name value (by rw [← hsym]; exact hvalue)
  exact ⟨hΓ, hext _ _ hname⟩

/-- A line whose operands are there. -/
theorem emitDef_adds {hint : Text} {d : Def Text} {x : d.type.denote → Prop}
    (hd : ∀ env, P env → ∃ y, d.eval ρ env = some y ∧ x y) :
    Adds Γ ρ P (emitDef hint d) fun env v =>
      v.type = d.type ∧ ∃ y, env v.name = some ⟨d.type, y⟩ ∧ x y := by
  intro s v s' hrun
  obtain ⟨htype, hout, hsym⟩ := emitDef_ok hrun
  refine ⟨hout ▸ List.prefix_append _ _, fun env holds hnodup hs hP => ?_⟩
  obtain ⟨y, hy, hxy⟩ := hd env hP
  rw [hout] at hnodup
  obtain ⟨env', hrun', hext, hname⟩ := Program.run_define hs.run hy hnodup
  exact ⟨env', hs.extend (hout ▸ hrun') hext hsym, hext, htype, y, hname, hxy⟩

end

/-! ## Expected types -/

/-- An expected type that can be given to an expression of type `τ`: the type
itself, or `Bool` by an operator that has a truth value. -/
def Fits (expected : Option Ty) (τ : Ty) : Prop :=
  expected = none ∨ expected = some .bool ∨ expected = some τ

/-- The type of its own, or for literals the expected type. -/
def TypedAs (own expected : Option Ty) (τ : Ty) : Prop :=
  own = some τ ∨ own = none ∧ expected.getD (.bv 32) = τ ∧ τ ≠ .bool

/-- The operands of an arithmetic operator share their type with the result. -/
theorem TypedAs.or {own own' expected : Option Ty} {τ : Ty} (h : TypedAs own expected τ)
    (h' : TypedAs own' (some τ) τ) : TypedAs (own.or own') expected τ := by
  rcases h with rfl | ⟨rfl, hτ, hne⟩
  · exact .inl rfl
  · rcases h' with rfl | ⟨rfl, -, -⟩
    · exact .inl rfl
    · exact .inr ⟨rfl, hτ, hne⟩

/-- The operands of a relation have their common type. -/
theorem TypedAs.commonType {own own' expected : Option Ty} {τ : Ty} (h : TypedAs own expected τ)
    (h' : TypedAs own' (some τ) τ) (hfits : Fits expected .bool) : commonType own own' = τ := by
  unfold Dublin.commonType
  rcases h with rfl | ⟨rfl, hτ, hne⟩
  · rfl
  · have hdefault : τ = .bv 32 := by
      rcases hfits with rfl | rfl | rfl
      · exact hτ.symm
      · exact absurd hτ.symm hne
      · exact absurd hτ.symm hne
    rcases h' with rfl | ⟨rfl, -, -⟩
    · rfl
    · exact hdefault.symm

/-- The operands of a relation take any type that fits a truth value. -/
theorem Fits.of_bool {expected : Option Ty} (h : Fits expected .bool) (τ : Ty) :
    Fits expected τ := by
  rcases h with h | h | h
  · exact .inl h
  · exact .inr (.inl h)
  · exact .inr (.inl h)

theorem fits_some (τ : Ty) : Fits (some τ) τ := .inr (.inr rfl)

/-- The emitted value has a value, and it is that of the expression when the
expected type fits. -/
def Denotes (Γ : ArgTypes) (ρ : Valuation Text) (e : Expr) (expected : Option Ty) (env : Env Text)
    (v : SmtValue) : Prop :=
  ∃ x, env v.name = some ⟨v.type, x⟩ ∧ (Fits expected v.type →
    TypedAs (ownType Γ e) expected v.type ∧ eval Γ ρ e v.type = some x)

section
variable {Γ : ArgTypes} {ρ : Valuation Text} {P : Env Text → Prop} {e lhs rhs : Expr}
  {expected : Option Ty}

theorem Denotes.extend {env env' : Env Text} {v : SmtValue} (hext : env.Extends env')
    (h : Denotes Γ ρ e expected env v) : Denotes Γ ρ e expected env' v := by
  obtain ⟨x, hname, hx⟩ := h
  exact ⟨x, hext _ _ hname, hx⟩

theorem Denotes.of_def {env : Env Text} {v : SmtValue} {τ : Ty} {x : τ.denote} (htype : v.type = τ)
    (hname : env v.name = some ⟨τ, x⟩)
    (h : Fits expected τ → TypedAs (ownType Γ e) expected τ ∧ eval Γ ρ e τ = some x) :
    Denotes Γ ρ e expected env v := by
  subst htype
  exact ⟨x, hname, h⟩

/-- The values at a given type. -/
theorem Denotes.lookup {env : Env Text} {v : SmtValue} {τ : Ty}
    (h : Denotes Γ ρ e expected env v) (hτ : v.type = τ) : ∃ x, env.lookup v.name τ = some x ∧
      (Fits expected τ → TypedAs (ownType Γ e) expected τ ∧ eval Γ ρ e τ = some x) := by
  subst hτ
  obtain ⟨x, hname, hx⟩ := h
  exact ⟨x, Env.lookup_iff.mpr hname, hx⟩

theorem sameBV_some {l r : SmtValue} {w : Nat} (h : sameBV l r = some w) :
    l.type = .bv w ∧ r.type = .bv w := by
  unfold sameBV at h
  split at h
  · rename_i w₁ w₂ hl hr
    split at h
    · rename_i hw
      cases h
      exact ⟨hl, hw ▸ hr⟩
    · cases h
  · cases h

/-! ## One lemma for each kind of expression -/

/-- What every emission of an expression does, for every expected type. -/
def Emits (Γ : ArgTypes) (ρ : Valuation Text) (e : Expr) (x : Option Ty → Emit SmtValue) : Prop :=
  ∀ expected, Adds Γ ρ (fun _ => True) (x expected) (Denotes Γ ρ e expected)

/-- A line whose value is that of the expression. -/
theorem emitDef_denotes {hint : Text} {d : Def Text}
    (hd : ∀ env, P env → ∃ y, d.eval ρ env = some y ∧ (Fits expected d.type →
      TypedAs (ownType Γ e) expected d.type ∧ eval Γ ρ e d.type = some y)) :
    Adds Γ ρ P (emitDef hint d) (Denotes Γ ρ e expected) := by
  refine (emitDef_adds hd).mono ?_
  rintro env v ⟨htype, y, hname, hy⟩
  exact .of_def htype hname hy

theorem emitInteger_emits (value : Int) : Emits Γ ρ (.integer value) (emitInteger value) := by
  intro expected
  unfold emitInteger
  split
  · rename_i w hw
    apply emitDef_denotes
    exact fun env _ => ⟨_, rfl, fun _ => ⟨.inr ⟨rfl, hw, by simp [Def.type]⟩, rfl⟩⟩
  · exact .fail

theorem emitBool_emits (value : Bool) :
    Emits Γ ρ (.bool value) fun _ => emitDef (text "b") (.constant value) := by
  intro expected
  apply emitDef_denotes
  exact fun env _ => ⟨_, rfl, fun _ => ⟨.inl rfl, rfl⟩⟩

theorem emitVariable_emits (name : Text) :
    Emits Γ ρ (.variable_ name) fun _ => emitVariable name := by
  intro expected
  refine (lookupSymbol_adds name).bind fun r => ?_
  cases r with
  | none => exact .fail
  | some value =>
    refine Adds.pure fun env h => ?_
    obtain ⟨hΓ, hname⟩ := h.2 value rfl
    refine ⟨_, hname, fun _ => ⟨.inl hΓ, ?_⟩⟩
    rw [eval, if_pos hΓ]

theorem emitUnary_emits (op : Text) {x : Option Ty → Emit SmtValue} (hx : Emits Γ ρ e x) :
    Emits Γ ρ (.unary op e) (emitUnary op x) := by
  intro expected
  unfold emitUnary
  by_cases hnot : op = text "!"
  · rw [if_pos hnot]
    refine (hx (some .bool)).bind fun v => ?_
    by_cases htype : v.type = .bool
    · rw [if_pos htype]
      apply emitDef_denotes
      intro env hv
      obtain ⟨b, hb, heval⟩ := hv.lookup htype
      refine ⟨!b, by rw [Def.eval, hb]; rfl, fun _ => ⟨.inl ?_, ?_⟩⟩
      · rw [ownType, hnot, if_neg (by decide)]
        rfl
      · change eval Γ ρ (.unary op e) .bool = _
        rw [eval, if_pos hnot, (heval (fits_some _)).2]
        rfl
    · rw [if_neg htype]
      exact .fail
  rw [if_neg hnot]
  by_cases hneg : op = text "-"
  · rw [if_pos hneg]
    refine (hx expected).bind fun v => ?_
    split
    · rename_i w htype
      apply emitDef_denotes
      intro env hv
      obtain ⟨b, hb, heval⟩ := hv.lookup htype
      refine ⟨-b, by rw [Def.eval, hb]; rfl, fun hfits => ?_⟩
      obtain ⟨htyped, heval⟩ := heval hfits
      constructor
      · rw [ownType, if_pos hneg]
        exact htyped
      · change eval Γ ρ (.unary op e) (.bv w) = _
        rw [eval, if_pos hneg, heval]
        rfl
    · exact .fail
  · rw [if_neg hneg]
    exact .fail

theorem emitOperands_adds {l r : Option Ty → Emit SmtValue} (hl : Emits Γ ρ lhs l)
    (hr : Emits Γ ρ rhs r) (expected : Option Ty) :
    Adds Γ ρ (fun _ => True) (emitOperands l r expected) fun env p =>
      Denotes Γ ρ lhs expected env p.1 ∧ Denotes Γ ρ rhs (some p.1.type) env p.2 := by
  refine (hl expected).bind fun a => ?_
  have hframe := (hr (some a.type)).frame (R := fun env => Denotes Γ ρ lhs expected env a)
    fun env env' hext h => h.extend hext
  have hboth : Adds Γ ρ (fun env => Denotes Γ ρ lhs expected env a) (r (some a.type)) fun env b =>
      Denotes Γ ρ rhs (some a.type) env b ∧ Denotes Γ ρ lhs expected env a := by
    intro s v s' hrun
    obtain ⟨hpre, h⟩ := hframe s v s' hrun
    exact ⟨hpre, fun env holds hnodup hs hP => h env holds hnodup hs ⟨trivial, hP⟩⟩
  exact hboth.bind fun b => Adds.pure fun env h => ⟨h.2, h.1⟩

/-- What is known of two operands behind `emitOperands`. -/
abbrev BothDenote (Γ : ArgTypes) (ρ : Valuation Text) (lhs rhs : Expr) (expected : Option Ty)
    (l r : SmtValue) (env : Env Text) : Prop :=
  Denotes Γ ρ lhs expected env l ∧ Denotes Γ ρ rhs (some l.type) env r

/-- The values of two operands of one type. -/
theorem BothDenote.lookup {l r : SmtValue} {env : Env Text} {τ : Ty}
    (h : BothDenote Γ ρ lhs rhs expected l r env) (hl : l.type = τ) (hr : r.type = τ) :
    ∃ x y, env.lookup l.name τ = some x ∧ env.lookup r.name τ = some y ∧ (Fits expected τ →
      (TypedAs (ownType Γ lhs) expected τ ∧ TypedAs (ownType Γ rhs) (some τ) τ) ∧
        eval Γ ρ lhs τ = some x ∧ eval Γ ρ rhs τ = some y) := by
  obtain ⟨x, hx, hlhs⟩ := h.1.lookup hl
  obtain ⟨y, hy, hrhs⟩ := h.2.lookup hr
  rw [hl] at hrhs
  refine ⟨x, y, hx, hy, fun hfits => ?_⟩
  obtain ⟨htl, hel⟩ := hlhs hfits
  obtain ⟨htr, her⟩ := hrhs (fits_some τ)
  exact ⟨⟨htl, htr⟩, hel, her⟩

theorem emitArithmetic_adds {op : Text} {bop : BinOp} {l r : SmtValue} (hint : String)
    (hop : op = text "+" ∨ op = text "-" ∨ op = text "*")
    (hbop : ∀ w (x y : BitVec w), arithmetic op x y = some (bop.eval x y)) :
    Adds Γ ρ (BothDenote Γ ρ lhs rhs expected l r) (emitArithmetic hint bop l r)
      (Denotes Γ ρ (.binary op lhs rhs) expected) := by
  unfold emitArithmetic
  split
  · rename_i w hw
    obtain ⟨hl, hr⟩ := sameBV_some hw
    apply emitDef_denotes
    intro env h
    obtain ⟨x, y, hx, hy, hmeaning⟩ := BothDenote.lookup h hl hr
    refine ⟨bop.eval x y, by simp only [Def.eval, hx, hy]; rfl, fun hfits => ?_⟩
    obtain ⟨⟨htl, htr⟩, hel, her⟩ := hmeaning hfits
    constructor
    · rw [ownType, if_pos hop]
      exact htl.or htr
    · change eval Γ ρ (.binary op lhs rhs) (.bv w) = _
      rw [eval, hel, her]
      exact hbop w x y
  · exact .fail

/-- A relation has a truth value, whatever its operands are. -/
theorem ownType_relation {op : Text} (hop : ¬(op = text "+" ∨ op = text "-" ∨ op = text "*")) :
    ownType Γ (.binary op lhs rhs) = some .bool := by
  rw [ownType, if_neg hop]

theorem emitEquality_adds {op : Text} {l r : SmtValue} (hop : op = text "==" ∨ op = text "!=") :
    Adds Γ ρ (BothDenote Γ ρ lhs rhs expected l r) (emitEquality (op != text "==") l r)
      (Denotes Γ ρ (.binary op lhs rhs) expected) := by
  have hown : ownType Γ (.binary op lhs rhs) = some .bool := by
    apply ownType_relation
    rcases hop with rfl | rfl <;> decide
  unfold emitEquality
  by_cases htype : l.type = r.type
  · rw [if_pos htype]
    have heq : Adds Γ ρ (BothDenote Γ ρ lhs rhs expected l r)
        (emitDef (text "eq") (.eq l.name r.name l.type)) fun env v => v.type = .bool ∧
          ∃ b : Bool, env v.name = some ⟨.bool, b⟩ ∧ (Fits expected .bool →
            equalAt (eval Γ ρ lhs) (eval Γ ρ rhs)
              (commonType (ownType Γ lhs) (ownType Γ rhs)) = some b) := by
      apply emitDef_adds
      intro env h
      obtain ⟨x, y, hx, hy, hmeaning⟩ := BothDenote.lookup h rfl htype.symm
      refine ⟨decide (x = y), by simp only [Def.eval, hx, hy]; rfl, fun hfits => ?_⟩
      obtain ⟨⟨htl, htr⟩, hel, her⟩ := hmeaning (hfits.of_bool _)
      rw [htl.commonType htr hfits, equalAt, hel, her]
      rfl
    refine heq.bind fun eq => ?_
    rcases hop with rfl | rfl
    · rw [bne_self_eq_false, if_neg (by decide)]
      refine Adds.pure ?_
      rintro env ⟨hbool, b, hname, hb⟩
      refine .of_def hbool hname fun hfits => ⟨.inl hown, ?_⟩
      rw [eval, evalRelation, if_pos rfl]
      exact hb hfits
    · have hne : (text "!=" != text "==") = true := by decide
      rw [hne, if_pos rfl]
      apply emitDef_denotes
      rintro env ⟨hbool, b, hname, hb⟩
      refine ⟨!b, by rw [Def.eval, Env.lookup_iff.mpr hname]; rfl, fun hfits => ⟨.inl hown, ?_⟩⟩
      change eval Γ ρ (.binary (text "!=") lhs rhs) .bool = _
      rw [eval, evalRelation, if_neg (by decide), if_pos rfl, hb hfits]
      rfl
  · rw [if_neg htype]
    exact .fail

/-- A comparison of bitvectors, by an operator or by a call. -/
theorem emitComparison_adds {hint message : Text} {pred : Pred} {l r : SmtValue}
    {f : {w : Nat} → BitVec w → BitVec w → Option Bool} {expected' : Option Ty}
    (hexpected : Fits expected' .bool → Fits expected .bool) (hown : ownType Γ e = some .bool)
    (heval : eval Γ ρ e .bool = compareAt f (eval Γ ρ lhs) (eval Γ ρ rhs)
      (commonType (ownType Γ lhs) (ownType Γ rhs)))
    (hf : ∀ w (x y : BitVec w), f x y = some (pred.eval x y)) :
    Adds Γ ρ (BothDenote Γ ρ lhs rhs expected l r) (emitComparison hint message pred l r)
      (Denotes Γ ρ e expected') := by
  unfold emitComparison
  split
  · rename_i w hw
    obtain ⟨hl, hr⟩ := sameBV_some hw
    apply emitDef_denotes
    intro env h
    obtain ⟨x, y, hx, hy, hmeaning⟩ := BothDenote.lookup h hl hr
    refine ⟨pred.eval x y, by simp only [Def.eval, hx, hy]; rfl, fun hfits => ⟨.inl hown, ?_⟩⟩
    obtain ⟨⟨htl, htr⟩, hel, her⟩ := hmeaning ((hexpected hfits).of_bool _)
    change eval Γ ρ e .bool = _
    rw [heval, htl.commonType htr (hexpected hfits), compareAt, hel, her]
    exact hf w x y
  · exact .fail

theorem emitBinary_emits (op : Text) {x y : Option Ty → Emit SmtValue} (hx : Emits Γ ρ lhs x)
    (hy : Emits Γ ρ rhs y) : Emits Γ ρ (.binary op lhs rhs) (emitBinary op x y) := by
  intro expected
  unfold emitBinary
  by_cases harith : op = text "+" ∨ op = text "-" ∨ op = text "*"
  · rw [if_pos harith]
    refine (emitOperands_adds hx hy expected).bind fun p => ?_
    obtain ⟨l, r⟩ := p
    rcases harith with rfl | rfl | rfl
    · exact emitArithmetic_adds "add" (by decide) fun _ _ _ => rfl
    · exact emitArithmetic_adds "sub" (by decide) fun _ _ _ => rfl
    · exact emitArithmetic_adds "mul" (by decide) fun _ _ _ => rfl
  rw [if_neg harith]
  by_cases heq : op = text "==" ∨ op = text "!="
  · rw [if_pos heq]
    refine (emitOperands_adds hx hy expected).bind fun p => ?_
    exact emitEquality_adds heq
  rw [if_neg heq]
  by_cases hcmp : op = text "<" ∨ op = text "<=" ∨ op = text ">" ∨ op = text ">="
  · rw [if_pos hcmp]
    refine (emitOperands_adds hx hy expected).bind fun p => ?_
    refine emitComparison_adds (f := compare op) id (ownType_relation harith) ?_ ?_
    · rw [eval, evalRelation, if_neg fun h => heq (.inl h), if_neg fun h => heq (.inr h)]
    · intro w a b
      rcases hcmp with rfl | rfl | rfl | rfl <;> rfl
  · rw [if_neg hcmp]
    exact .fail

/-- The predicates of the table are the unsigned comparisons. -/
theorem findPred_some {callee : Text} {pred : Pred} (h : findPred callee = some pred) {w : Nat}
    (x y : BitVec w) : compareUnsigned callee x y = some (pred.eval x y) := by
  obtain ⟨⟨name, pred'⟩, hfind, rfl⟩ := Option.map_eq_some_iff.mp h
  have hname := List.find?_some hfind
  have hmem := List.mem_of_find?_eq_some hfind
  simp only [decide_eq_true_eq] at hname
  subst hname
  simp only [preds, List.mem_cons, List.not_mem_nil, or_false, Prod.mk.injEq] at hmem
  rcases hmem with ⟨rfl, rfl⟩ | ⟨rfl, rfl⟩ | ⟨rfl, rfl⟩ | ⟨rfl, rfl⟩ <;> rfl

theorem emitCall_emits (callee : Text) {args : List Expr}
    (hargs : ∀ a ∈ args, Emits Γ ρ a (emitExpr a)) :
    Emits Γ ρ (.call callee args) fun _ => emitCall callee (emitArgs args) := by
  intro expected
  unfold emitCall
  cases hpred : findPred callee with
  | none => exact .fail
  | some pred =>
    match args with
    | [] => exact .fail
    | [_] => exact .fail
    | _ :: _ :: _ :: _ => exact .fail
    | [lhs, rhs] =>
      have hl := hargs lhs (by simp)
      have hr := hargs rhs (by simp)
      refine (emitOperands_adds hl hr none).bind fun p => ?_
      refine emitComparison_adds (f := compareUnsigned callee) (fun _ => .inl rfl) ?_ ?_ ?_
      · rfl
      · rfl
      · exact fun _ x y => findPred_some hpred x y

/-- Induction on the expression. -/
theorem emitExpr_emits (e : Expr) : Emits Γ ρ e (emitExpr e) := by
  induction e using Expr.induction with
  | null => exact fun expected => .abort
  | integer value => exact emitInteger_emits value
  | bool value => exact emitBool_emits value
  | variable_ name => exact emitVariable_emits name
  | call callee args ih => exact emitCall_emits callee ih
  | unary op operand ih => exact emitUnary_emits op ih
  | binary op lhs rhs ihl ihr => exact emitBinary_emits op ihl ihr

/-! ## The query -/

theorem bindSymbol_sound {s : SmtEmitter} {env : Env Text} {holds : Bool} {name : Text}
    {value : SmtValue} (hs : Sound Γ ρ s env holds) (hΓ : Γ name = some value.type)
    (hname : env value.name = some ⟨value.type, ρ name value.type⟩) :
    Sound Γ ρ { s with symbols := fun k => if k = name then some value else s.symbols k } env
      holds := by
  refine ⟨hs.run, fun k v hk => ?_⟩
  simp only at hk
  split at hk
  · rename_i hkn
    cases hk
    exact hkn ▸ ⟨hΓ, hname⟩
  · exact hs.symbols k v hk

/-- A declared argument has the type and the value of its name. Induction on the
arguments: those that are not declared yet have the types of the rest. -/
theorem declareArgs_ok {args : List Argument} {s s' : SmtEmitter}
    (hrun : declareArgs args s = .ok () s') (hΓ : ∀ name, s.symbols name = none →
      Γ name = (args.find? fun arg => arg.name = name).map (·.type)) :
    s.out <+: s'.out ∧ ∀ env holds, s'.out.names.Nodup → Sound Γ ρ s env holds →
      ∃ env', Sound Γ ρ s' env' holds := by
  induction args generalizing s with
  | nil =>
    cases hrun
    exact ⟨List.prefix_refl _, fun env holds _ hs => ⟨env, hs⟩⟩
  | cons arg args ih =>
    obtain ⟨declared, s₁, hlookup, hrun⟩ := Gen.bind_ok hrun
    cases hlookup
    cases hnew : s.symbols arg.name with
    | some value =>
      rw [hnew] at hrun
      cases hrun
    | none =>
      rw [hnew] at hrun
      obtain ⟨value, s₁, hdef, hrun⟩ := Gen.bind_ok hrun
      obtain ⟨_, s₂, hbind, hrun⟩ := Gen.bind_ok hrun
      cases hbind
      obtain ⟨htype, hout, hsym⟩ := emitDef_ok hdef
      have hargΓ : Γ arg.name = some arg.type := by
        rw [hΓ arg.name hnew]
        simp
      have hrest : ∀ name, (if name = arg.name then some value else s₁.symbols name) = none →
          Γ name = (args.find? fun arg => arg.name = name).map (·.type) := by
        intro name hname
        split at hname
        · cases hname
        · rename_i hne
          rw [hΓ name (by rw [← hsym]; exact hname),
            List.find?_cons_of_neg (by simpa using Ne.symm hne)]
      obtain ⟨hpre, hrest⟩ := ih hrun hrest
      refine ⟨(hout ▸ List.prefix_append _ _ : s.out <+: s₁.out).trans hpre, ?_⟩
      intro env holds hnodup hs
      have hnodup₁ := nodup_initial hpre hnodup
      simp only [hout] at hnodup₁
      obtain ⟨env₁, hrun₁, hext, hname⟩ := Program.run_define hs.run (rfl :
        (Def.declareFun arg.name arg.type).eval ρ env = some (ρ arg.name arg.type)) hnodup₁
      have hs₁ := hs.extend (hout ▸ hrun₁) hext hsym
      obtain ⟨name, type⟩ := value
      cases htype
      exact hrest env₁ holds hnodup (bindSymbol_sound hs₁ hargΓ hname)

theorem emitCondition_adds (condition : Expr) :
    Adds Γ ρ (fun _ => True) (emitCondition condition) fun env v =>
      ∃ b : Bool, env v.name = some ⟨.bool, b⟩ ∧ eval Γ ρ condition .bool = some b := by
  refine (emitExpr_emits condition none).bind fun v => ?_
  by_cases htype : v.type = .bool
  · rw [if_pos htype]
    refine Adds.pure fun env hv => ?_
    obtain ⟨b, hb, heval⟩ := hv.lookup htype
    exact ⟨b, Env.lookup_iff.mp hb, (heval (.inl rfl)).2⟩
  · rw [if_neg htype]
    exact .fail

/-- A condition and the constraint on a value that it determines. -/
theorem writeAssert_sound {s : SmtEmitter} {env : Env Text} {holds b : Bool} {name : Text}
    (hs : Sound Γ ρ s env holds) (hb : env name = some ⟨.bool, b⟩) :
    Sound Γ ρ { s with out := s.out ++ [.assert name] } env (holds && b) :=
  hs.extend (Program.run_assert hs.run hb) (.refl env) rfl

theorem names_assert (p : Program Text) (name : Text) :
    Program.names (p ++ [Line.assert name]) = p.names := by
  rw [Program.names_append]
  exact List.append_nil _

/-- Induction on the earlier assertions: the constraints hold when they are true. -/
theorem emitAssumptions_ok {conditions : List Expr} {s s' : SmtEmitter}
    (hrun : emitAssumptions conditions s = .ok () s') : s.out <+: s'.out ∧
      ∀ env holds, s'.out.names.Nodup → Sound Γ ρ s env holds → ∃ env' holds',
        Sound Γ ρ s' env' (holds && holds') ∧
        (holds' = true ↔ ∀ e ∈ conditions, eval Γ ρ e .bool = some true) := by
  induction conditions generalizing s with
  | nil =>
    cases hrun
    exact ⟨List.prefix_refl _, fun env holds _ hs => ⟨env, true, by simpa using hs, by simp⟩⟩
  | cons condition rest ih =>
    obtain ⟨v, s₁, hcondition, hrun⟩ := Gen.bind_ok hrun
    obtain ⟨_, s₂, hwrite, hrun⟩ := Gen.bind_ok hrun
    cases hwrite
    obtain ⟨hpre₁, hadds⟩ := emitCondition_adds condition s v s₁ hcondition
    obtain ⟨hpre₂, hrest⟩ := ih hrun
    refine ⟨hpre₁.trans ((List.prefix_append _ _).trans hpre₂), fun env holds hnodup hs => ?_⟩
    have hnodup₁ : s₁.out.names.Nodup := by
      rw [← names_assert s₁.out v.name]
      exact nodup_initial hpre₂ hnodup
    obtain ⟨env₁, hs₁, -, b, hb, heval⟩ := hadds env holds hnodup₁ hs trivial
    obtain ⟨env', holds', hs', hall⟩ := hrest env₁ (holds && b) hnodup (writeAssert_sound hs₁ hb)
    refine ⟨env', b && holds', by rwa [← Bool.and_assoc], ?_⟩
    rw [Bool.and_eq_true, hall, List.forall_mem_cons, heval, Option.some.injEq]

/-- The assertions before one that the block has, by index. -/
theorem earlier_true_iff {block : VerifyBlock} {i : Nat} {condition : Expr}
    (hi : block.assertions[i]? = some condition) :
    (∀ e ∈ block.assertions.take i, eval block.argTypes ρ e .bool = some true) ↔
      ∀ j < i, block.evalAssertion ρ j = some true := by
  have hlen : i < block.assertions.length := (List.getElem?_eq_some_iff.mp hi).1
  constructor
  · intro h j hj
    rw [VerifyBlock.evalAssertion, List.getElem?_eq_getElem (by omega), Option.bind_some]
    exact h _ (List.mem_take_iff_getElem.mpr ⟨j, by omega, rfl⟩)
  · intro h e he
    obtain ⟨j, hj, rfl⟩ := List.mem_take_iff_getElem.mp he
    have hj := h j (by omega)
    rwa [VerifyBlock.evalAssertion, List.getElem?_eq_getElem (by omega), Option.bind_some] at hj

/-- The emitter reads the assertion, so that the block has it. -/
theorem emitted_lt {block : VerifyBlock} {i : Nat} {lines : Program Text}
    (hemit : emitted block i = some lines) : i < block.assertions.length := by
  obtain ⟨⟨⟩, s', hrun, -⟩ := Outcome.ok_of_state hemit
  obtain ⟨⟨⟩, s₁, -, hrun⟩ := Gen.bind_ok hrun
  obtain ⟨⟨⟩, s₂, -, hrun⟩ := Gen.bind_ok hrun
  by_contra hge
  rw [List.getElem?_eq_none (by omega)] at hrun
  cases hrun

/-- A run of the emitter: the constraints hold exactly when the earlier
assertions are true and this one is false. -/
theorem emitted_run {block : VerifyBlock} {i : Nat} {lines : Program Text}
    (hemit : emitted block i = some lines) (hdistinct : lines.names.Nodup)
    (ρ : Valuation Text) : ∃ env holds b, Program.run ρ lines (fun _ => none) = some (env, holds) ∧
      block.evalAssertion ρ i = some b ∧
      (holds = true ↔ (∀ j < i, block.evalAssertion ρ j = some true) ∧ b = false) := by
  obtain ⟨⟨⟩, s', hrun, hlines⟩ := Outcome.ok_of_state hemit
  obtain ⟨⟨⟩, s₁, hargs, hrun⟩ := Gen.bind_ok hrun
  obtain ⟨⟨⟩, s₂, hassume, hrun⟩ := Gen.bind_ok hrun
  obtain ⟨condition, hcondition⟩ : ∃ condition, block.assertions[i]? = some condition :=
    ⟨_, List.getElem?_eq_getElem (emitted_lt hemit)⟩
  rw [hcondition] at hrun
  subst hlines
  obtain ⟨v, s₃, hcond, hrun⟩ := Gen.bind_ok hrun
  obtain ⟨bad, s₄, hbad, hrun⟩ := Gen.bind_ok hrun
  cases hrun
  obtain ⟨hpre₁, hargs⟩ := @declareArgs_ok block.argTypes ρ _ _ _ hargs fun _ _ => rfl
  obtain ⟨hpre₂, hassume⟩ := @emitAssumptions_ok block.argTypes ρ _ _ _ hassume
  obtain ⟨hpre₃, hcond⟩ := @emitCondition_adds block.argTypes ρ condition _ _ _ hcond
  obtain ⟨htype, hout, hsym⟩ := emitDef_ok hbad
  simp only [names_assert] at hdistinct
  have hnodup₃ : s₃.out.names.Nodup := nodup_initial (hout ▸ List.prefix_append _ _) hdistinct
  have hnodup₂ := nodup_initial hpre₃ hnodup₃
  have hstart : Sound block.argTypes ρ {} (fun _ => none) true := ⟨rfl, by simp⟩
  obtain ⟨env₁, hs₁⟩ := hargs _ _ (nodup_initial hpre₂ hnodup₂) hstart
  obtain ⟨env₂, holds, hs₂, hall⟩ := hassume env₁ true hnodup₂ hs₁
  obtain ⟨env₃, hs₃, -, b, hb, heval⟩ := hcond env₂ _ hnodup₃ hs₂ trivial
  have hnot : (Def.not v.name).eval ρ env₃ = some (!b) := by
    rw [Def.eval, Env.lookup_iff.mpr hb]
    rfl
  rw [hout] at hdistinct
  obtain ⟨env₄, hrun₄, -, hname⟩ := Program.run_define hs₃.run hnot hdistinct
  rw [← hout] at hrun₄
  refine ⟨env₄, true && holds && !b, b, Program.run_assert hrun₄ hname, ?_, ?_⟩
  · rw [VerifyBlock.evalAssertion, hcondition]
    exact heval
  · rw [Bool.and_eq_true, Bool.true_and, hall, earlier_true_iff hcondition, Bool.not_eq_true']

end

/-- The emitted lines use no value before it is introduced, each at its type, and
their constraints hold under a valuation exactly when the earlier assertions are
true under it and this one is false. -/
theorem emit_preserves_meaning {block : VerifyBlock} {i : Nat} {lines : Program Text}
    (hemit : emitted block i = some lines) (hdistinct : lines.names.Nodup)
    (ρ : Valuation Text) : lines.WellTyped ∧ (lines.Holds ρ ↔
      (∀ j < i, block.evalAssertion ρ j = some true) ∧
        block.evalAssertion ρ i = some false) := by
  obtain ⟨env, holds, b, hrun, hb, hholds⟩ := emitted_run hemit hdistinct ρ
  refine ⟨Program.wellTyped_of_run hrun, ?_⟩
  rw [Program.holds_iff_of_run hrun, hb, Option.some.injEq]
  exact hholds

/-- `verify zero(x i8) assert x + 0 == x; assert x == 0;` -/
def zeroBlock : VerifyBlock where
  name := text "zero"
  args := [⟨text "x", .bv 8⟩]
  assertions :=
    [.binary (text "==") (.binary (text "+") (.variable_ (text "x")) (.integer 0))
      (.variable_ (text "x")),
    .binary (text "==") (.variable_ (text "x")) (.integer 0)]

/-- The same number for every symbol. -/
def constantly (value : Int) : Valuation Text
  | _, .bool => false
  | _, .bv w => BitVec.ofInt w value

/-- The second query of the block, under every valuation. -/
theorem emit_preserves_meaning_zero : ∃ lines, emitted zeroBlock 1 = some lines ∧
    lines.WellTyped ∧ ∀ ρ, lines.Holds ρ ↔
      (∀ j < 1, zeroBlock.evalAssertion ρ j = some true) ∧
        zeroBlock.evalAssertion ρ 1 = some false := by
  have h : (emitted zeroBlock 1).map (fun lines => decide lines.names.Nodup) = some true := by
    decide +kernel
  obtain ⟨lines, hemit, hdistinct⟩ := Option.map_eq_some_iff.mp h
  have hmeaning := emit_preserves_meaning hemit (of_decide_eq_true hdistinct)
  exact ⟨lines, hemit, (hmeaning (constantly 0)).1, fun ρ => (hmeaning ρ).2⟩

end AroundTheWorld.Dublin
