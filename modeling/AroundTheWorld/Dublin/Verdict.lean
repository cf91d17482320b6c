import AroundTheWorld.Dublin.EmitterCorrect

/-!
# The verdict of a run

`main` from the parsed block on: one query for each assertion, which assumes the
assertions before it. What `mlir-translate` and Z3 do is a parameter. A run ends
with `verified` exactly when every assertion is true under every valuation: an
assumption that may be false has been reported itself.
-/

namespace AroundTheWorld.Dublin

open AroundTheWorld.Base AroundTheWorld.Lex AroundTheWorld.Smt

/-- What is printed, on either stream. -/
inductive Report where
  | counterexample (block : Text) (assertion : Nat)
  | unknown (block : Text) (assertion : Nat)
  | verified (block : Text)
  | smt (smtMlir : Text)
  | smt2 (smtlib : Text)
  | error (message : Text)
  deriving DecidableEq, Repr

inductive Ending where
  | returned (code : Nat)
  | crashed (why : Crash)
  deriving DecidableEq, Repr

structure MainRun where
  printed : List Report
  ending : Ending
  deriving DecidableEq, Repr

def MainRun.print (report : Report) (run : MainRun) : MainRun :=
  { run with printed := report :: run.printed }

structure Options where
  emitSmt : Bool := false
  emitSmt2 : Bool := false

/-- The external programs on the contents of their input file: what they write,
when they succeed. -/
structure Tools where
  mlirTranslate : Text → Option Text
  z3 : Text → Option Text

/-- The first line of the output, as `getline` reads it. -/
def firstLine (output : Text) : Text := output.takeWhile (· != byte '\n')

section
variable (opts : Options) (tools : Tools) (block : VerifyBlock)

/-- The loop of `main` over the assertions, and what follows it. -/
def checkAssertions : List Nat → Bool → MainRun
  | [], allVerified =>
    if opts.emitSmt || opts.emitSmt2 then ⟨[], .returned 0⟩
    else if !allVerified then ⟨[], .returned 1⟩
    else ⟨[.verified block.name], .returned 0⟩
  | i :: rest, allVerified =>
    match runEmitter block i with
    | .abort why => ⟨[], .crashed why⟩
    | .null emitter => ⟨[.error emitter.error], .returned 1⟩
    | .ok _ emitter =>
      if opts.emitSmt then (checkAssertions rest allVerified).print (.smt (moduleText emitter.out))
      else
        match tools.mlirTranslate (moduleText emitter.out) with
        | none => ⟨[.error (text "mlir-translate-21 --export-smtlib failed")], .returned 1⟩
        | some smtlib =>
          if opts.emitSmt2 then (checkAssertions rest allVerified).print (.smt2 smtlib)
          else
            match tools.z3 smtlib with
            | none => ⟨[.error (text "z3 failed")], .returned 1⟩
            | some output =>
              if firstLine output = text "unsat" then checkAssertions rest allVerified
              else if firstLine output = text "sat" then
                (checkAssertions rest false).print (.counterexample block.name (i + 1))
              else if firstLine output = text "unknown" then
                ⟨[.unknown block.name (i + 1)], .returned 1⟩
              else ⟨[.error (text "unexpected z3 output: " ++ firstLine output)], .returned 1⟩

/-- `main` behind `parseFile`. -/
def verify : MainRun :=
  checkAssertions opts tools block (List.range block.assertions.length) true

end

/-! ## What the external programs are assumed to do -/

/-- On the queries of the block, `mlir-translate` accepts no program that defines
a value twice, exports every query, and keeps its models; Z3 decides them. -/
structure Tools.Faithful (tools : Tools) (Sat : Text → Prop) (block : VerifyBlock) : Prop where
  exported : ∀ i lines, emitted block i = some lines →
    ∃ smtlib, tools.mlirTranslate (moduleText lines) = some smtlib
  distinct : ∀ i lines smtlib, emitted block i = some lines →
    tools.mlirTranslate (moduleText lines) = some smtlib → lines.names.Nodup
  models : ∀ i lines smtlib, emitted block i = some lines →
    tools.mlirTranslate (moduleText lines) = some smtlib → (Sat smtlib ↔ lines.HasModel)
  decided : ∀ i lines smtlib, emitted block i = some lines →
    tools.mlirTranslate (moduleText lines) = some smtlib → ∃ output, tools.z3 smtlib = some output ∧
      (firstLine output = text "unsat" ↔ ¬ Sat smtlib) ∧
      (firstLine output = text "sat" ↔ Sat smtlib)

/-- Some valuation makes the assertion false and all earlier ones true. -/
def VerifyBlock.Refutable (block : VerifyBlock) (i : Nat) : Prop :=
  ∃ ρ, (∀ j < i, block.evalAssertion ρ j = some true) ∧ block.evalAssertion ρ i = some false

section
variable {tools : Tools} {Sat : Text → Prop} {block : VerifyBlock}

theorem emitted_of_ok {i : Nat} {emitter : SmtEmitter}
    (h : runEmitter block i = .ok () emitter) : emitted block i = some emitter.out := by
  unfold emitted
  rw [h]
  rfl

/-- A query has a model exactly when its assertion is refutable. -/
theorem hasModel_iff {i : Nat} {lines : Program Text} (hemit : emitted block i = some lines)
    (hdistinct : lines.names.Nodup) : lines.HasModel ↔ block.Refutable i := by
  have hholds : ∀ ρ, lines.Holds ρ ↔ (∀ j < i, block.evalAssertion ρ j = some true) ∧
      block.evalAssertion ρ i = some false := by
    intro ρ
    obtain ⟨env, holds, b, hrun, hb, hiff⟩ := emitted_run hemit hdistinct ρ
    rw [Program.holds_iff_of_run hrun, hb, Option.some.injEq]
    exact hiff
  exact exists_congr hholds

/-- One turn of the loop. -/
theorem checkAssertions_cons (hfaithful : tools.Faithful Sat block) {i : Nat}
    {emitter : SmtEmitter} (hemit : runEmitter block i = .ok () emitter) (rest : List Nat)
    (allVerified : Bool) :
    (block.Refutable i ∧ checkAssertions {} tools block (i :: rest) allVerified =
      (checkAssertions {} tools block rest false).print (.counterexample block.name (i + 1))) ∨
    (¬ block.Refutable i ∧ checkAssertions {} tools block (i :: rest) allVerified =
      checkAssertions {} tools block rest allVerified) := by
  have hlines := emitted_of_ok hemit
  obtain ⟨smtlib, hexport⟩ := hfaithful.exported i _ hlines
  have hmodel := hasModel_iff hlines (hfaithful.distinct i _ _ hlines hexport)
  have hsat := hfaithful.models i _ _ hlines hexport
  obtain ⟨output, hz3, hunsat, hsat'⟩ := hfaithful.decided i _ _ hlines hexport
  rw [hsat, hmodel] at hunsat hsat'
  rw [checkAssertions, hemit]
  simp only [Bool.false_eq_true, if_false, hexport, hz3]
  by_cases href : block.Refutable i
  · left
    rw [if_neg fun h => hunsat.mp h href, if_pos (hsat'.mpr href)]
    exact ⟨href, rfl⟩
  · right
    rw [if_pos (hunsat.mpr href)]
    exact ⟨href, rfl⟩

/-- Induction on the assertions that are left. -/
theorem checkAssertions_exact (hfaithful : tools.Faithful Sat block) {is : List Nat}
    (hemit : ∀ i ∈ is, ∃ emitter, runEmitter block i = .ok () emitter) (allVerified : Bool) :
    (.verified block.name ∈ (checkAssertions {} tools block is allVerified).printed ↔
      allVerified = true ∧ ∀ i ∈ is, ¬ block.Refutable i) ∧
    ((checkAssertions {} tools block is allVerified).ending = .returned 0 ↔
      allVerified = true ∧ ∀ i ∈ is, ¬ block.Refutable i) ∧
    ∀ k, .counterexample block.name (k + 1) ∈
        (checkAssertions {} tools block is allVerified).printed ↔ k ∈ is ∧ block.Refutable k := by
  induction is generalizing allVerified with
  | nil => cases allVerified <;> simp [checkAssertions]
  | cons i rest ih =>
    obtain ⟨emitter, hi⟩ := hemit i (by simp)
    have hrest : ∀ j ∈ rest, ∃ emitter, runEmitter block j = .ok () emitter :=
      fun j hj => hemit j (by simp [hj])
    rcases checkAssertions_cons hfaithful hi rest allVerified with ⟨href, heq⟩ | ⟨href, heq⟩
    · obtain ⟨hverified, hending, hreports⟩ := ih hrest false
      rw [heq]
      refine ⟨?_, ?_, fun k => ?_⟩
      · simp [MainRun.print, hverified, href]
      · simp [MainRun.print, hending, href]
      · by_cases hk : k = i
        · simp [MainRun.print, hk, href]
        · simp [MainRun.print, hreports, hk]
    · obtain ⟨hverified, hending, hreports⟩ := ih hrest allVerified
      rw [heq]
      refine ⟨?_, ?_, fun k => ?_⟩
      · simp [hverified, href]
      · simp [hending, href]
      · by_cases hk : k = i
        · simp [hk, hreports, href]
        · simp [hreports, hk]

/-- No assertion is refutable exactly when all are valid. Induction on the index:
the assumptions of a query are the assertions before it. -/
theorem valid_iff_not_refutable {n : Nat}
    (hdefined : ∀ i < n, ∀ ρ, ∃ b, block.evalAssertion ρ i = some b) :
    (∀ i < n, ¬ block.Refutable i) ↔ ∀ i < n, ∀ ρ, block.evalAssertion ρ i = some true := by
  constructor
  · intro h i
    induction i using Nat.strongRecOn with
    | ind i ih =>
      intro hi ρ
      obtain ⟨b, hb⟩ := hdefined i hi ρ
      have hearlier : ∀ j < i, block.evalAssertion ρ j = some true :=
        fun j hj => ih j hj (by omega) ρ
      cases b with
      | true => exact hb
      | false => exact absurd ⟨ρ, hearlier, hb⟩ (h i hi)
  · rintro h i hi ⟨ρ, -, hfalse⟩
    rw [h i hi ρ] at hfalse
    cases hfalse

end

/-- With a faithful export and a decided query for every assertion, a run ends
with `verified` and 0 exactly when every assertion is true under every valuation,
and reports exactly the assertions that may fail when the earlier ones hold. -/
theorem verdict_exact (tools : Tools) (Sat : Text → Prop) (block : VerifyBlock)
    (hemit : ∀ i < block.assertions.length, ∃ emitter, runEmitter block i = .ok () emitter)
    (hfaithful : tools.Faithful Sat block) :
    ((.verified block.name ∈ (verify {} tools block).printed ∧
        (verify {} tools block).ending = .returned 0) ↔
      ∀ i < block.assertions.length, ∀ ρ, block.evalAssertion ρ i = some true) ∧
    ∀ k, .counterexample block.name (k + 1) ∈ (verify {} tools block).printed ↔
      k < block.assertions.length ∧ ∃ ρ, (∀ j < k, block.evalAssertion ρ j = some true) ∧
        block.evalAssertion ρ k = some false := by
  have hdefined : ∀ i < block.assertions.length, ∀ ρ, ∃ b, block.evalAssertion ρ i = some b := by
    intro i hi ρ
    obtain ⟨emitter, hi⟩ := hemit i hi
    have hlines := emitted_of_ok hi
    obtain ⟨smtlib, hexport⟩ := hfaithful.exported i _ hlines
    obtain ⟨_, _, b, -, hb, -⟩ :=
      emitted_run hlines (hfaithful.distinct i _ _ hlines hexport) ρ
    exact ⟨b, hb⟩
  have hall : ∀ i ∈ List.range block.assertions.length,
      ∃ emitter, runEmitter block i = .ok () emitter := fun i hi => hemit i (List.mem_range.mp hi)
  obtain ⟨hverified, hending, hreports⟩ := checkAssertions_exact hfaithful hall true
  simp only [List.mem_range, true_and] at hverified hending hreports
  constructor
  · unfold verify
    rw [hverified, hending, and_self, valid_iff_not_refutable hdefined]
  · exact hreports

/-- The SMT-LIB text of a query of `zeroBlock`: `x + 0 = x` may not fail, `x = 0` may. -/
def zeroSmtlib : Nat → Text
  | 0 => text "(set-logic QF_BV)\n(declare-const x (_ BitVec 8))\n" ++
      text "(assert (not (= (bvadd x #x00) x)))\n(check-sat)\n"
  | _ => text "(set-logic QF_BV)\n(declare-const x (_ BitVec 8))\n" ++
      text "(assert (= (bvadd x #x00) x))\n(assert (not (= x #x00)))\n(check-sat)\n"

def zeroModule (i : Nat) : Text := ((emitted zeroBlock i).map moduleText).getD []

def zeroTools : Tools where
  mlirTranslate t :=
    if t = zeroModule 0 then some (zeroSmtlib 0)
    else if t = zeroModule 1 then some (zeroSmtlib 1) else none
  z3 t := some (if t = zeroSmtlib 1 then text "sat\n" else text "unsat\n")

theorem zeroBlock_emitted {i : Nat} {lines : Program Text}
    (hemit : emitted zeroBlock i = some lines) : (i = 0 ∨ i = 1) ∧ lines.names.Nodup ∧
      zeroTools.mlirTranslate (moduleText lines) = some (zeroSmtlib i) := by
  have hlt : i < 2 := emitted_lt hemit
  have hi : i = 0 ∨ i = 1 := by omega
  have hmodule : zeroModule i = moduleText lines := by rw [zeroModule, hemit]; rfl
  have hcheck : (emitted zeroBlock 0).all (fun lines => decide lines.names.Nodup) = true ∧
      (emitted zeroBlock 1).all (fun lines => decide lines.names.Nodup) = true ∧
      decide (zeroModule 1 = zeroModule 0) = false := by decide +kernel
  obtain ⟨hnodup₀, hnodup₁, hne⟩ := hcheck
  rw [← hmodule]
  rcases hi with rfl | rfl
  · rw [hemit] at hnodup₀
    refine ⟨.inl rfl, of_decide_eq_true hnodup₀, ?_⟩
    simp only [zeroTools, if_true]
  · rw [hemit] at hnodup₁
    refine ⟨.inr rfl, of_decide_eq_true hnodup₁, ?_⟩
    simp only [zeroTools, of_decide_eq_false hne, if_false, if_true]

theorem zeroBlock_refutable {i : Nat} (hi : i = 0 ∨ i = 1) : zeroBlock.Refutable i ↔ i = 1 := by
  have hfirst : ∀ ρ, zeroBlock.evalAssertion ρ 0 = some true := by
    intro ρ
    have heval : zeroBlock.evalAssertion ρ 0 =
      some (decide (ρ (text "x") (.bv 8) + BitVec.ofInt 8 0 = ρ (text "x") (.bv 8))) := rfl
    rw [heval]
    simp
  rcases hi with rfl | rfl
  · constructor
    · rintro ⟨ρ, -, hfalse⟩
      rw [hfirst ρ] at hfalse
      cases hfalse
    · intro h
      cases h
  · refine ⟨fun _ => rfl, fun _ => ⟨constantly 1, ?_, by decide⟩⟩
    intro j hj
    obtain rfl : j = 0 := by omega
    exact hfirst _

theorem zeroTools_faithful : zeroTools.Faithful (· = zeroSmtlib 1) zeroBlock where
  exported i lines hemit := ⟨_, (zeroBlock_emitted hemit).2.2⟩
  distinct i lines smtlib hemit _ := (zeroBlock_emitted hemit).2.1
  models i lines smtlib hemit hexport := by
    obtain ⟨hi, hdistinct, hexport'⟩ := zeroBlock_emitted hemit
    rw [hexport', Option.some.injEq] at hexport
    subst hexport
    rw [hasModel_iff hemit hdistinct, zeroBlock_refutable hi]
    rcases hi with rfl | rfl
    · decide
    · simp
  decided i lines smtlib hemit hexport := by
    obtain ⟨hi, -, hexport'⟩ := zeroBlock_emitted hemit
    rw [hexport', Option.some.injEq] at hexport
    subst hexport
    refine ⟨_, rfl, ?_⟩
    rcases hi with rfl | rfl
    · decide
    · decide

/-- `x + 0 == x` holds and `x == 0` may fail: the run reports the second assertion alone. -/
theorem verdict_exact_zero :
    ((.verified zeroBlock.name ∈ (verify {} zeroTools zeroBlock).printed ∧
        (verify {} zeroTools zeroBlock).ending = .returned 0) ↔
      ∀ i < 2, ∀ ρ, zeroBlock.evalAssertion ρ i = some true) ∧
    ∀ k, .counterexample zeroBlock.name (k + 1) ∈ (verify {} zeroTools zeroBlock).printed ↔
      k = 1 := by
  have hemit : ∀ i < zeroBlock.assertions.length,
      ∃ emitter, runEmitter zeroBlock i = .ok () emitter := by
    intro i hi
    have hsome : (emitted zeroBlock 0).isSome = true ∧ (emitted zeroBlock 1).isSome = true := by
      decide +kernel
    have hi : i = 0 ∨ i = 1 := by
      change i < 2 at hi
      omega
    have hlines : (emitted zeroBlock i).isSome = true := by
      rcases hi with rfl | rfl
      · exact hsome.1
      · exact hsome.2
    obtain ⟨lines, hlines⟩ := Option.isSome_iff_exists.mp hlines
    obtain ⟨⟨⟩, emitter, hrun, -⟩ := Outcome.ok_of_state hlines
    exact ⟨emitter, hrun⟩
  obtain ⟨hverified, hreports⟩ := verdict_exact zeroTools _ zeroBlock hemit zeroTools_faithful
  refine ⟨hverified, fun k => ?_⟩
  rw [hreports]
  show k < 2 ∧ zeroBlock.Refutable k ↔ k = 1
  constructor
  · rintro ⟨hk, href⟩
    exact (zeroBlock_refutable (by omega)).mp href
  · rintro rfl
    exact ⟨by omega, (zeroBlock_refutable (.inr rfl)).mpr rfl⟩

end AroundTheWorld.Dublin
