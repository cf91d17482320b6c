import AroundTheWorld.Berlin.Loop
import AroundTheWorld.Cairo.Loop

/-!
# The loops of Cairo and Berlin

Cairo tests behind the body, like Athens, and Berlin's `scf.for` in front of it.
From the same bounds and the same positive step both execute the body with the
same values as long as the range is not empty; over an empty one Cairo executes
it once.
-/

namespace AroundTheWorld.Agreement

open AroundTheWorld.Base AroundTheWorld.Lex AroundTheWorld.Llvm
open AroundTheWorld.Athens (ExprAST Name)
open AroundTheWorld.Mlir (Env Op loopVariable forIv)

variable {D W W' : Type}

/-- Both generators have come through the same `for`, and the machine and the
environment stand in front of the loop with the same bounds and step. -/
structure SameLoop {ops : IntOps D} {varName : Name} {start end_ step body : ExprAST D}
    {s : Cairo.CairoState D} {t : Berlin.BerlinState D}
    (c : Cairo.ForCode ops varName start end_ step body s)
    (b : Berlin.ForCode ops varName start end_ step body t) (code : Cairo.Code D)
    (m : Cairo.Machine D W) (blocks : Nat → List (Op D Name)) (p : Nat) (env : Env D Name W') :
    Prop where
  wf : s.builder.Wf
  holds : c.Holds code
  at_ : c.stepped.builder.At m
  wf' : t.builder.Wf
  insert : t.builder.insertPoint = .atEnd p
  blocks : ∀ k, b.final.builder.blocks k <+: blocks k
  start : env.floats b.startVal = m.val c.startVal
  end_ : env.floats b.endVal = m.val c.endVal
  step : env.floats b.stepVal = m.val c.stepVal

section
variable {ops : IntOps D} {varName : Name} {start end_ step body : ExprAST D}
  {s : Cairo.CairoState D} {t : Berlin.BerlinState D}
  {c : Cairo.ForCode ops varName start end_ step body s}
  {b : Berlin.ForCode ops varName start end_ step body t} {code : Cairo.Code D}
  {m : Cairo.Machine D W} {blocks : Nat → List (Op D Name)} {p : Nat} {env : Env D Name W'}

theorem loopVariable_eq (h : SameLoop c b code m blocks p env) (callees : Callees D Name W')
    (k : Nat) :
    loopVariable ops callees blocks env ((blocks p).drop (b.stepped.builder.blocks p).length) k =
      (forIv (c.lower m) (c.upper m) (c.stepI64 m) k).map ops.sitofp := by
  rw [Berlin.ForCode.loopVariable_eq callees h.wf' h.insert h.blocks, h.start, h.end_, h.step]
  rfl

/-- Without a step Cairo's loop adds zero: once below the bound, it never ends. -/
theorem executes_without_step (hs : s.builder.Wf) (hcode : c.Holds code)
    (hat : c.stepped.builder.At m) (device : Cairo.Device D W)
    (hreturns : c.BodyReturns device code m) (hnull : step.isNull = true)
    (hzero : ops.fptosi ops.zero = 0) (hlow : -2 ^ 63 ≤ c.lower m) (hhigh : c.lower m < 2 ^ 63)
    (hlt : c.lower m < c.upper m) (k : Nat) (v : D) :
    c.Executes device code m k v ↔ v = ops.sitofp (c.lower m) := by
  have hval : c.stepVal = .const ops.zero := by
    have hstep := c.genStep
    rw [if_pos hnull] at hstep
    injection hstep with heq
    exact heq.symm
  have hstepI64 : c.stepI64 m = 0 := by
    unfold Cairo.ForCode.stepI64
    rw [hval]
    exact hzero
  have hover : Cairo.ForCode.NoOverflow (c.lower m) (c.upper m) (c.stepI64 m) := by
    refine ⟨hlow, fun j _ => ?_⟩
    rw [hstepI64, Int.mul_zero]
    omega
  rw [Cairo.ForCode.executes_iff hs hcode hat hreturns (by omega) hover, hstepI64, Int.mul_zero,
    Int.add_zero]
  constructor
  · intro ⟨_, hv⟩
    exact hv
  · intro hv
    exact ⟨.inr hlt, hv⟩

end

/-! ## Loops between two numbers -/

def startCairo : Cairo.CairoState Int := {}

def startBerlin : Berlin.BerlinState Int :=
  { builder := { insertPoint := .atEnd 0, nextBlock := 1 } }

/-- Cairo behind the head of the loop from `lo` to `hi`. -/
def cairoInside (lo hi : Int) : Cairo.CairoState Int :=
  { startCairo with
    builder := (Cairo.preheader wholeIntOps (.const lo) (.const hi) (.const 1)
      startCairo.builder).enter
    namedValues := fun k => if k = text "i"
      then some (Cairo.preheader wholeIntOps (.const lo) (.const hi) (.const 1)
        startCairo.builder).cell
      else startCairo.namedValues k }

/-- `for i = lo, hi, 1 in 0`. -/
def cairoLoop (lo hi : Int) : Cairo.ForCode wholeIntOps (text "i") (.numberExpr lo) (.numberExpr hi)
    (.numberExpr 1) (.numberExpr 0) startCairo where
  startVal := .const lo
  endVal := .const hi
  stepVal := .const 1
  bodyVal := .const 0
  started := startCairo
  ended := startCairo
  stepped := startCairo
  behind := cairoInside lo hi
  genStart := by rw [Cairo.gen]; rfl
  genEnd := by rw [Cairo.gen]; rfl
  genStep := by rw [if_neg (by decide), Cairo.gen]; rfl
  genBody := by rw [Cairo.gen]; rfl

/-- Berlin behind a number. -/
def withNumber (p : Nat) (val : Int) (s : Berlin.BerlinState Int) : Berlin.BerlinState Int :=
  { s with builder := Berlin.created p (.constant · val) s.builder }

theorem gen_number {p : Nat} {val : Int} {s : Berlin.BerlinState Int}
    (hp : s.builder.insertPoint = .atEnd p) :
    Berlin.gen wholeIntOps.toFloatOps (.numberExpr val) s =
      .ok s.builder.nextValue (withNumber p val s) := by
  rw [Berlin.gen]
  obtain ⟨⟨blocks, insertPoint, nextBlock, nextValue⟩, namedValues, errors⟩ := s
  cases hp
  rfl

/-- Berlin behind both bounds and the step. -/
def berlinStepped (lo hi : Int) : Berlin.BerlinState Int :=
  withNumber 0 1 (withNumber 0 hi (withNumber 0 lo startBerlin))

/-- Berlin behind the body. -/
def berlinBody (lo hi : Int) : Berlin.BerlinState Int :=
  withNumber 1 0
    { berlinStepped lo hi with
      builder := Berlin.enterFor 0 0 1 2 (berlinStepped lo hi).builder
      namedValues := fun k => if k = text "i" then some 12 else none }

/-- Berlin behind the loop. -/
def berlinFinal (lo hi : Int) : Berlin.BerlinState Int :=
  withNumber 0 0
    { berlinBody lo hi with
      builder := (berlinBody lo hi).builder.setInsertPoint (.atEnd 0)
      namedValues := fun k => if k = text "i" then none else (berlinBody lo hi).namedValues k }

def berlinLoop (lo hi : Int) :
    Berlin.ForCode wholeIntOps (text "i") (.numberExpr lo) (.numberExpr hi)
    (.numberExpr 1) (.numberExpr 0) startBerlin where
  startVal := 0
  endVal := 1
  stepVal := 2
  result := 14
  started := withNumber 0 lo startBerlin
  ended := withNumber 0 hi (withNumber 0 lo startBerlin)
  stepped := berlinStepped lo hi
  final := berlinFinal lo hi
  genStart := gen_number rfl
  genEnd := gen_number rfl
  genStep := gen_number rfl
  genLoop := by
    have hpoint : (berlinStepped lo hi).builder.insertPoint = .atEnd 0 := rfl
    rw [Berlin.genLoop_run wholeIntOps _ _ _ _ _ hpoint]
    exact Berlin.forBody_run (gen_number rfl)

/-- A machine in front of the code. -/
def startMachine : Cairo.Machine Int Unit where
  block := 0
  index := 0
  prev := 0
  regs _ := 0
  ints _ := 0
  flags _ := false
  ptrs _ := (⟨0, 0⟩, 0)
  mem _ := 0
  world := ()
  calls := []

def noDevice : Cairo.Device Int Unit := ⟨fun _ _ _ => none, fun _ _ => 0, fun _ _ _ => none,
  fun _ _ _ _ => none⟩

/-- The values of the three constants. -/
def startEnv (lo hi : Int) : Env Int Name Unit where
  floats v := if v = 0 then lo else if v = 1 then hi else 1
  flags _ := false
  ints _ := 0
  cells _ := 0
  world := ()
  calls := []

theorem sameLoop_numbers (lo hi : Int) : SameLoop (cairoLoop lo hi) (berlinLoop lo hi)
    (cairoLoop lo hi).final.code startMachine (berlinLoop lo hi).final.builder.blocks 0
    (startEnv lo hi) where
  wf := ⟨by decide, fun _ _ => rfl, fun _ => List.forall_mem_nil _⟩
  holds := Cairo.ForCode.holds_final _
  at_ := ⟨rfl, rfl⟩
  wf' := ⟨⟨0, rfl, by decide⟩, fun _ _ => rfl⟩
  insert := rfl
  blocks _ := List.prefix_rfl
  start := rfl
  end_ := rfl
  step := rfl

/-- The body is a number, and ends where it begins. -/
theorem bodyReturns_numbers (lo hi : Int) :
    (cairoLoop lo hi).BodyReturns noDevice (cairoLoop lo hi).final.code startMachine := by
  intro k m' hvisit
  exact ⟨m', Reaches.refl, Visits.holds hvisit⟩

theorem noOverflow_numbers {lo hi : Int} (hlow : -2 ^ 63 ≤ lo) (hlo : lo < 2 ^ 62)
    (hhigh : hi < 2 ^ 62) : Cairo.ForCode.NoOverflow ((cairoLoop lo hi).lower startMachine)
      ((cairoLoop lo hi).upper startMachine) ((cairoLoop lo hi).stepI64 startMachine) := by
  refine ⟨hlow, fun k hk => ?_⟩
  show lo + (k + 1) * 1 < 2 ^ 63
  have hk : k = 0 ∨ lo + k * 1 < hi := hk
  omega

/-! ## Agreement -/

/-- Over a range that is not empty both loops execute the body with the same values
of the variable; over an empty one Berlin does not execute it, and Cairo once, with
the lower bound. -/
theorem loops_agree {ops : IntOps D} {varName : Name} {start end_ step body : ExprAST D}
    {s : Cairo.CairoState D} {t : Berlin.BerlinState D}
    {c : Cairo.ForCode ops varName start end_ step body s}
    {b : Berlin.ForCode ops varName start end_ step body t} {code : Cairo.Code D}
    {m : Cairo.Machine D W} {blocks : Nat → List (Op D Name)} {p : Nat} {env : Env D Name W'}
    (h : SameLoop c b code m blocks p env) (device : Cairo.Device D W)
    (callees : Callees D Name W') (hreturns : c.BodyReturns device code m) (hstep : 1 ≤ c.stepI64 m)
    (hover : Cairo.ForCode.NoOverflow (c.lower m) (c.upper m) (c.stepI64 m)) :
    (c.lower m < c.upper m → ∀ k v, c.Executes device code m k v ↔
      loopVariable ops callees blocks env
        ((blocks p).drop (b.stepped.builder.blocks p).length) k = some v) ∧
    (c.upper m ≤ c.lower m → (∀ k v, c.Executes device code m k v ↔
        k = 0 ∧ v = ops.sitofp (c.lower m)) ∧
      ∀ k, loopVariable ops callees blocks env
        ((blocks p).drop (b.stepped.builder.blocks p).length) k = none) := by
  have hexecutes := Cairo.ForCode.executes_iff h.wf h.holds h.at_ hreturns (by omega) hover
  constructor
  · intro hlt k v
    rw [hexecutes, loopVariable_eq h, Option.map_eq_some_iff]
    have hbelow : (k = 0 ∨ c.lower m + k * c.stepI64 m < c.upper m) ↔
        c.lower m + k * c.stepI64 m < c.upper m := by
      constructor
      · rintro (rfl | hbelow)
        · simpa using hlt
        · exact hbelow
      · exact .inr
    rw [hbelow]
    unfold forIv
    constructor
    · intro ⟨hbelow, hv⟩
      exact ⟨_, if_pos hbelow, hv.symm⟩
    · intro ⟨n, hn, hv⟩
      split at hn
      · rename_i hbelow
        cases hn
        exact ⟨hbelow, hv.symm⟩
      · cases hn
  · intro hle
    have habove : ∀ k : Nat, ¬ c.lower m + k * c.stepI64 m < c.upper m := by
      intro k
      have hnonneg : 0 ≤ (k : Int) * c.stepI64 m := Int.mul_nonneg (by omega) (by omega)
      omega
    constructor
    · intro k v
      rw [hexecutes]
      constructor
      · intro ⟨hbefore, hv⟩
        have hzero : k = 0 := hbefore.resolve_right (habove k)
        subst hzero
        exact ⟨rfl, by simpa using hv⟩
      · intro ⟨hzero, hv⟩
        subst hzero
        exact ⟨.inl rfl, by simpa using hv⟩
    · intro k
      rw [loopVariable_eq h, forIv, if_neg (habove k)]
      rfl

/-- `for i = 0, 3, 1 in 0`. -/
theorem loops_agree_three :
    (cairoLoop 0 3).lower startMachine < (cairoLoop 0 3).upper startMachine ∧
    ∀ (k : Nat) (v : Int),
      (cairoLoop 0 3).Executes noDevice (cairoLoop 0 3).final.code startMachine k v ↔
        loopVariable wholeIntOps (fun _ _ _ => none) (berlinLoop 0 3).final.builder.blocks
          (startEnv 0 3) (((berlinLoop 0 3).final.builder.blocks 0).drop
            ((berlinLoop 0 3).stepped.builder.blocks 0).length) k = some v :=
  ⟨by decide, (loops_agree (sameLoop_numbers 0 3) noDevice _ (bodyReturns_numbers 0 3) (by decide)
    (noOverflow_numbers (by decide) (by decide) (by decide))).1 (by decide)⟩

/-- `for i = 0, 0, 1 in 0`: Cairo executes the body, Berlin does not. -/
theorem loops_differ_over_empty :
    SameLoop (cairoLoop 0 0) (berlinLoop 0 0) (cairoLoop 0 0).final.code startMachine
      (berlinLoop 0 0).final.builder.blocks 0 (startEnv 0 0) ∧
    (cairoLoop 0 0).BodyReturns noDevice (cairoLoop 0 0).final.code startMachine ∧
    Cairo.ForCode.NoOverflow ((cairoLoop 0 0).lower startMachine)
      ((cairoLoop 0 0).upper startMachine) ((cairoLoop 0 0).stepI64 startMachine) ∧
    (cairoLoop 0 0).Executes noDevice (cairoLoop 0 0).final.code startMachine 0 0 ∧
    loopVariable wholeIntOps (fun _ _ _ => none) (berlinLoop 0 0).final.builder.blocks
      (startEnv 0 0) (((berlinLoop 0 0).final.builder.blocks 0).drop
        ((berlinLoop 0 0).stepped.builder.blocks 0).length) 0 = none := by
  have hsame := sameLoop_numbers 0 0
  have hreturns := bodyReturns_numbers 0 0
  have hover := noOverflow_numbers (show (-2 ^ 63 : Int) ≤ 0 by decide)
    (show (0 : Int) < 2 ^ 62 by decide) (show (0 : Int) < 2 ^ 62 by decide)
  refine ⟨hsame, hreturns, hover, ?_, ?_⟩
  · rw [Cairo.ForCode.executes_iff hsame.wf hsame.holds hsame.at_ hreturns (by decide) hover]
    exact ⟨.inl rfl, by decide⟩
  · rw [loopVariable_eq hsame]
    decide

end AroundTheWorld.Agreement
