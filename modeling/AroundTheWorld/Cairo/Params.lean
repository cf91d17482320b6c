import AroundTheWorld.Cairo.Codegen

/-!
# Parameters under their names

A device function stores its arguments into cells and finds them again by the
names that LLVM gave them. A parameter keeps its name unless the entry block or a
cell has it already: the cell of a parameter is named like the parameter, with
the next free number behind it.
-/

namespace AroundTheWorld.Cairo

open AroundTheWorld.Base AroundTheWorld.Lex AroundTheWorld.Llvm
open AroundTheWorld.Athens (Name PrototypeAST uniqueSuffix)

variable {D : Type}

/-! ## What the entry block is set up to -/

/-- `namedValues_[name] = cell` for all of a list, in order. -/
def assignAll (table : Name → Option Owned) : List (Name × Owned) → Name → Option Owned
  | [] => table
  | (name, cell) :: rest => assignAll (fun k => if k = name then some cell else table k) rest

theorem assignAll_not_mem {table : Name → Option Owned} {entries : List (Name × Owned)}
    {name : Name} (h : name ∉ entries.map (·.1)) : assignAll table entries name = table name := by
  induction entries generalizing table with
  | nil => rfl
  | cons entry rest ih =>
    rw [List.map_cons, List.mem_cons, not_or] at h
    rw [assignAll, ih h.2, if_neg h.1]

theorem assignAll_mem {table : Name → Option Owned} {entries : List (Name × Owned)} {name : Name}
    {cell : Owned} (h : assignAll table entries name = some cell) :
    table name = some cell ∨ (name, cell) ∈ entries := by
  induction entries generalizing table with
  | nil => exact .inl h
  | cons entry rest ih =>
    rcases ih h with htable | hmem
    · split at htable
      · rename_i hname
        cases htable
        right
        rw [hname]
        exact List.mem_cons_self
      · exact .inl htable
    · exact .inr (List.mem_cons_of_mem _ hmem)

theorem assignAll_of_nodup {table : Name → Option Owned} {entries : List (Name × Owned)}
    {name : Name} {cell : Owned} (hnodup : (entries.map (·.1)).Nodup) (h : (name, cell) ∈ entries) :
    assignAll table entries name = some cell := by
  induction entries generalizing table with
  | nil => cases h
  | cons entry rest ih =>
    rw [List.map_cons, List.nodup_cons] at hnodup
    rcases List.mem_cons.mp h with rfl | h
    · rw [assignAll, assignAll_not_mem hnodup.1, if_pos rfl]
    · exact ih hnodup.2 h

/-- The function that is created next. -/
def CairoState.created (name : Name) (s : CairoState D) : FunctionRef :=
  ⟨s.nextFunction, (s.symbols.setName name).1⟩

@[simp] theorem CairoState.created_number (name : Name) (s : CairoState D) :
    (s.created name).number = s.nextFunction := rfl

/-- The state behind `Function::Create` and the entry block. -/
def CairoState.opened (name : Name) (signature : Signature) (s : CairoState D) : CairoState D :=
  { s with
    nextFunction := s.nextFunction + 1
    symbols := (s.symbols.setName name).2
    theModule := fun k =>
      if k = (s.created name).name ∧ k ≠ [] then some signature else s.theModule k
    builder :=
      { function := s.nextFunction, nextReg := signature.argc, symbols := ⟨[text "entry"], 0⟩ } }

/-- The names under which the cells are found: those of the arguments. -/
def argNames : SymbolTable → List Name → List Name
  | _, [] => []
  | t, arg :: args =>
    let named := t.setName arg
    named.1 :: argNames (named.2.setName named.1).2 args

/-- Each name with its cell. -/
def paramCells (function : Nat) : Nat → SymbolTable → List Name → List (Name × Owned)
  | _, _, [] => []
  | idx, t, arg :: args =>
    let named := t.setName arg
    (named.1, ⟨function, idx⟩) :: paramCells function (idx + 1) (named.2.setName named.1).2 args

/-- The instructions for `count` arguments from `idx` on. -/
def paramCode (function idx : Nat) : Nat → List (Instr D)
  | 0 => []
  | count + 1 =>
    .alloca ⟨function, idx⟩ :: .store (.reg idx) ⟨function, idx⟩ ::
      paramCode function (idx + 1) count

theorem paramCells_names (function idx : Nat) (t : SymbolTable) (args : List Name) :
    (paramCells function idx t args).map (·.1) = argNames t args := by
  induction args generalizing idx t with
  | nil => rfl
  | cons arg args ih => rw [paramCells, argNames, List.map_cons, ih]

theorem getElem?_paramCells (function idx : Nat) (t : SymbolTable) (args : List Name) (i : Nat) :
    (paramCells function idx t args)[i]? =
      (argNames t args)[i]?.map fun name => (name, ⟨function, idx + i⟩) := by
  induction args generalizing idx t i with
  | nil => rfl
  | cons arg args ih =>
    cases i with
    | zero => rfl
    | succ i =>
      rw [paramCells, argNames, List.getElem?_cons_succ, List.getElem?_cons_succ, ih]
      rw [show idx + 1 + i = idx + (i + 1) by omega]

/-- The argument `i` is stored into cell `i`, and nowhere else. -/
theorem store_mem_paramCode {function idx count i : Nat} {cell : Owned} :
    (.store (.reg i) cell : Instr D) ∈ paramCode function idx count ↔
      cell = ⟨function, i⟩ ∧ idx ≤ i ∧ i < idx + count := by
  induction count generalizing idx with
  | zero =>
    simp only [paramCode, List.not_mem_nil, false_iff]
    omega
  | succ count ih =>
    simp only [paramCode, List.mem_cons, reduceCtorEq, false_or, Instr.store.injEq,
      Operand.reg.injEq, ih]
    constructor
    · intro h
      rcases h with ⟨rfl, rfl⟩ | ⟨rfl, hlow, hhigh⟩
      · exact ⟨rfl, by omega, by omega⟩
      · exact ⟨rfl, by omega, by omega⟩
    · intro ⟨hcell, hlow, hhigh⟩
      rcases Nat.eq_or_lt_of_le hlow with rfl | hlow
      · exact .inl ⟨rfl, hcell⟩
      · exact .inr ⟨hcell, by omega, by omega⟩

/-- The state behind one turn of the loop. -/
def CairoState.enterParam (s : CairoState D) (idx : Nat) (arg : Name) : CairoState D :=
  let named := s.builder.setName arg
  let (alloca, builder) := named.2.createAlloca
  let builder := (builder.setName named.1).2.emit (.store (.reg idx) alloca)
  { s with
    builder
    namedValues := fun k => if k = named.1 then some alloca else s.namedValues k }

theorem genDeviceParams_cons (idx : Nat) (arg : Name) (args : List Name) (s : CairoState D) :
    genDeviceParams idx (arg :: args) s = genDeviceParams (idx + 1) args (s.enterParam idx arg) :=
  rfl

theorem genDeviceParams_run (idx : Nat) (args : List Name) (s : CairoState D)
    (hcell : s.builder.nextCell = idx) (hblock : s.builder.insertBlock = 0) :
    ∃ s', genDeviceParams idx args s = .ok () s' ∧
      s'.namedValues = assignAll s.namedValues
        (paramCells s.builder.function idx s.builder.symbols args) ∧
      s'.builder.code 0 = s.builder.code 0 ++ paramCode s.builder.function idx args.length := by
  induction args generalizing idx s with
  | nil => exact ⟨s, rfl, rfl, (List.append_nil _).symm⟩
  | cons arg args ih =>
    subst hcell
    have hcode : (s.enterParam s.builder.nextCell arg).builder.code 0 = s.builder.code 0 ++
        [.alloca ⟨s.builder.function, s.builder.nextCell⟩,
          .store (.reg s.builder.nextCell) ⟨s.builder.function, s.builder.nextCell⟩] := by
      simp [CairoState.enterParam, Builder.setName, Builder.createAlloca, Builder.emit, hblock]
    obtain ⟨s', hrun, hnames, hcode'⟩ :=
      ih (s.builder.nextCell + 1) (s.enterParam s.builder.nextCell arg) rfl hblock
    refine ⟨s', ?_, hnames, ?_⟩
    · rw [genDeviceParams_cons]
      exact hrun
    · rw [hcode', hcode, List.append_assoc]
      rfl

/-! ## Which names are kept -/

/-- The numbers behind the names of the cells, as long as every parameter keeps
its own name. -/
def cellNumbersFrom : SymbolTable → List Name → List Nat
  | _, [] => []
  | t, p :: ps =>
    let k := uniqueSuffix (p :: t.names) p t.lastUnique
    k :: cellNumbersFrom ⟨(p ++ toText k) :: p :: t.names, k⟩ ps

def cellNumbers (params : List Name) : List Nat := cellNumbersFrom ⟨[text "entry"], 0⟩ params

/-- No parameter is called `entry`, and none is called like an earlier one with
the number of its cell behind it. -/
structure KeepNames (params : List Name) : Prop where
  entry : text "entry" ∉ params
  cells : (params.zip (cellNumbers params)).Pairwise fun p q => q.1 ≠ p.1 ++ toText p.2

theorem toText_ne_nil (n : Nat) : toText n ≠ [] := by
  rw [toText_eq]
  simp [Nat.toDigits_ne_nil]

theorem setName_free {t : SymbolTable} {p : Name} (hp : p ≠ []) (hfree : p ∉ t.names) :
    t.setName p = (p, ⟨p :: t.names, t.lastUnique⟩) := by
  unfold SymbolTable.setName
  rw [if_neg hp, if_neg (by simpa using hfree)]

/-- A name that is not taken is given as it is. -/
theorem setName_fresh {t : SymbolTable} {p : Name} (hfree : p ∉ t.names) :
    (t.setName p).1 = p ∧ (t.setName p).2.names ⊆ p :: t.names := by
  by_cases hp : p = []
  · rw [hp]
    exact ⟨rfl, List.subset_cons_self ..⟩
  · rw [setName_free hp hfree]
    exact ⟨rfl, List.Subset.refl _⟩

theorem setName_taken {t : SymbolTable} {p : Name} (hp : p ≠ []) (htaken : p ∈ t.names) :
    (t.setName p).1 ≠ p := by
  unfold SymbolTable.setName
  rw [if_neg hp, if_pos (by simpa using htaken)]
  intro h
  have hlength := congrArg List.length h
  have hpos := List.length_pos_iff.mpr (toText_ne_nil (uniqueSuffix t.names p t.lastUnique))
  simp only [List.length_append] at hlength
  omega

/-- The table behind a parameter that has kept its name. -/
theorem setName_twice {t : SymbolTable} {p : Name} (hp : p ≠ []) :
    ((⟨p :: t.names, t.lastUnique⟩ : SymbolTable).setName p).2 =
      ⟨(p ++ toText (uniqueSuffix (p :: t.names) p t.lastUnique)) :: p :: t.names,
        uniqueSuffix (p :: t.names) p t.lastUnique⟩ := by
  unfold SymbolTable.setName
  rw [if_neg hp, if_pos (by simp)]

theorem length_cellNumbersFrom (t : SymbolTable) (params : List Name) :
    (cellNumbersFrom t params).length = params.length := by
  induction params generalizing t with
  | nil => rfl
  | cons p ps ih => rw [cellNumbersFrom, List.length_cons, List.length_cons, ih]

theorem mem_zip_cellNumbers {t : SymbolTable} {params : List Name} {p : Name} (h : p ∈ params) :
    ∃ k, (p, k) ∈ params.zip (cellNumbersFrom t params) := by
  obtain ⟨i, hi, rfl⟩ := List.mem_iff_getElem.mp h
  have hlength : (cellNumbersFrom t params).length = params.length :=
    length_cellNumbersFrom t params
  refine ⟨(cellNumbersFrom t params)[i], List.mem_iff_getElem.mpr ⟨i, ?_, ?_⟩⟩
  · rw [List.length_zip]
    omega
  · rw [List.getElem_zip]

/-- Every argument has its own name exactly when no name is taken when its turn
comes. Induction over the arguments. -/
theorem argNames_eq_iff {t : SymbolTable} {params : List Name} (hne : ∀ p ∈ params, p ≠ [])
    (hdistinct : params.Nodup) : argNames t params = params ↔ (∀ p ∈ params, p ∉ t.names) ∧
      (params.zip (cellNumbersFrom t params)).Pairwise fun p q => q.1 ≠ p.1 ++ toText p.2 := by
  induction params generalizing t with
  | nil => simp [argNames, cellNumbersFrom]
  | cons p ps ih =>
    rw [List.nodup_cons] at hdistinct
    have hp := hne p List.mem_cons_self
    by_cases htaken : p ∈ t.names
    · constructor
      · intro h
        rw [argNames, List.cons.injEq] at h
        exact absurd h.1 (setName_taken hp htaken)
      · intro h
        exact absurd htaken (h.1 p List.mem_cons_self)
    · rw [argNames, setName_free hp htaken, List.cons.injEq, and_iff_right rfl, setName_twice hp,
        ih (fun q hq => hne q (List.mem_cons_of_mem _ hq)) hdistinct.2, cellNumbersFrom,
        List.zip_cons_cons, List.pairwise_cons, List.forall_mem_cons]
      constructor
      · intro ⟨hfree, hcells⟩
        refine ⟨⟨htaken, fun q hq hmem => hfree q hq (by simp [hmem])⟩, ?_, hcells⟩
        intro q hq heq
        exact hfree q.1 (List.of_mem_zip hq).1 (by simp [heq])
      · intro ⟨⟨_, hfree⟩, hcell, hcells⟩
        refine ⟨fun q hq hmem => ?_, hcells⟩
        rcases List.mem_cons.mp hmem with heq | hmem
        · obtain ⟨k, hk⟩ := mem_zip_cellNumbers hq
          exact hcell _ hk heq
        rcases List.mem_cons.mp hmem with rfl | hmem
        · exact hdistinct.1 hq
        · exact hfree q hq hmem

/-! ## Parameters resolve to themselves -/

/-- Every parameter is found in the cell into which its argument is stored. -/
def FindsParams (s : CairoState D) (params : List Name) : Prop :=
  ∀ i p, params[i]? = some p →
    ∃ cell, .store (.reg i) cell ∈ s.builder.code 0 ∧ s.namedValues p = some cell

theorem length_argNames (t : SymbolTable) (params : List Name) :
    (argNames t params).length = params.length := by
  induction params generalizing t with
  | nil => rfl
  | cons p ps ih => rw [argNames, List.length_cons, List.length_cons, ih]

/-- An argument that has another name is not found under its own. -/
theorem findsParams_iff {s : CairoState D} {function : Nat} {t : SymbolTable} {params : List Name}
    (hdistinct : params.Nodup)
    (hnames : s.namedValues = assignAll (fun _ => none) (paramCells function 0 t params))
    (hcode : s.builder.code 0 = paramCode function 0 params.length) :
    FindsParams s params ↔ argNames t params = params := by
  constructor
  · intro hfinds
    apply List.ext_getElem?
    intro i
    cases hp : params[i]? with
    | none =>
      rw [List.getElem?_eq_none_iff] at hp ⊢
      rwa [length_argNames]
    | some p =>
      obtain ⟨cell, hstore, hfound⟩ := hfinds i p hp
      rw [hcode, store_mem_paramCode] at hstore
      rw [hnames] at hfound
      rcases assignAll_mem hfound with hnone | hmem
      · cases hnone
      · obtain ⟨j, hj⟩ := List.mem_iff_getElem?.mp hmem
        rw [getElem?_paramCells] at hj
        obtain ⟨name, hname, heq⟩ := Option.map_eq_some_iff.mp hj
        rw [hstore.1] at heq
        simp only [Prod.mk.injEq, Owned.mk.injEq, true_and] at heq
        rw [show i = j by omega, hname, heq.1]
  · intro hkept i p hp
    have hi : i < params.length := (List.getElem?_eq_some_iff.mp hp).1
    refine ⟨⟨function, i⟩, ?_, ?_⟩
    · rw [hcode, store_mem_paramCode]
      exact ⟨rfl, by omega, by omega⟩
    · rw [hnames]
      apply assignAll_of_nodup
      · rwa [paramCells_names, hkept]
      · apply List.mem_of_getElem? (i := i)
        rw [getElem?_paramCells, hkept, hp, Nat.zero_add]
        rfl

/-- Every parameter resolves to itself exactly when no name that is given before
it is its own. -/
theorem params_found_iff (proto : PrototypeAST) (hnamed : ∀ p ∈ proto.args, p ≠ [])
    (hdistinct : proto.args.Nodup) (s : CairoState D) :
    ∃ llvmFunc s', enterDevice proto s = .ok llvmFunc s' ∧
      (FindsParams s' proto.args ↔ KeepNames proto.args) := by
  let s₀ : CairoState D :=
    { s.opened proto.name ⟨false, proto.args.length⟩ with namedValues := fun _ => none }
  obtain ⟨s', hrun, hnames, hcode⟩ := genDeviceParams_run 0 proto.args s₀ rfl rfl
  have henter : enterDevice proto s = .ok (s.created proto.name) s' := by
    show Gen.bind (genDeviceParams 0 proto.args) _ s₀ = _
    unfold Gen.bind
    rw [hrun]
    rfl
  refine ⟨s.created proto.name, s', henter, ?_⟩
  rw [findsParams_iff hdistinct hnames hcode, argNames_eq_iff hnamed hdistinct]
  constructor
  · intro ⟨hentry, hcells⟩
    exact ⟨fun hmem => hentry _ hmem (by simp [s₀, CairoState.opened]), hcells⟩
  · intro h
    refine ⟨fun p hp hmem => ?_, h.cells⟩
    obtain rfl : p = text "entry" := by simpa [s₀, CairoState.opened] using hmem
    exact h.entry hp

/-- `def f(x y)` keeps its names. -/
theorem params_found_xy : ∃ llvmFunc s', enterDevice ⟨text "f", [text "x", text "y"], false, 0⟩
      ({} : CairoState Unit) = .ok llvmFunc s' ∧ FindsParams s' [text "x", text "y"] := by
  have hkeep : KeepNames [text "x", text "y"] := by
    constructor
    · decide
    · decide +kernel
  obtain ⟨llvmFunc, s', henter, hiff⟩ := params_found_iff ⟨text "f", [text "x", text "y"], false, 0⟩
    (by decide) (by decide) ({} : CairoState Unit)
  exact ⟨llvmFunc, s', henter, hiff.mpr hkeep⟩

/-- In `def f(x x1)` the cell of `x` is called `x1`, so that the argument `x1` becomes
`x12` and is not found; in `def f(entry)` it is the entry block that has the name. -/
theorem params_lost :
    (∃ llvmFunc s', enterDevice ⟨text "f", [text "x", text "x1"], false, 0⟩
      ({} : CairoState Unit) = .ok llvmFunc s' ∧ s'.namedValues (text "x1") = none) ∧
    ∃ llvmFunc s', enterDevice ⟨text "f", [text "entry"], false, 0⟩
      ({} : CairoState Unit) = .ok llvmFunc s' ∧ s'.namedValues (text "entry") = none := by
  have hx : ((enterDevice ⟨text "f", [text "x", text "x1"], false, 0⟩
      ({} : CairoState Unit)).state?.map fun s => s.namedValues (text "x1")) = some none := by
    decide +kernel
  have hentry : ((enterDevice ⟨text "f", [text "entry"], false, 0⟩
      ({} : CairoState Unit)).state?.map fun s => s.namedValues (text "entry")) = some none := by
    decide +kernel
  exact ⟨Outcome.ok_of_state hx, Outcome.ok_of_state hentry⟩

end AroundTheWorld.Cairo
