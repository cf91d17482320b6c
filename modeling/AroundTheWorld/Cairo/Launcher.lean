import Mathlib.Data.List.Basic
import AroundTheWorld.Base.Gen
import AroundTheWorld.Cairo.Codegen

/-!
# The demo runner

`CUDALauncher::runKernel` over a driver whose calls, numbered in the order they are
made, succeed or fail as they like. `return false` is the null of `Gen`; an index
outside a vector aborts. What the runner owes is that a buffer it was given is freed,
on whichever path it leaves.
-/

namespace AroundTheWorld.Cairo

open AroundTheWorld.Base AroundTheWorld.Lex
open AroundTheWorld.Athens (ExprAST FunctionAST PrototypeAST Name)

variable {D : Type}

/-- The CUDA driver: whether call number `k` succeeds, the address it then
allocates, the doubles it then copies back. Buffers that are alive at once have
different addresses, none of them null. -/
structure CudaDriver (D : Type) where
  toDouble : UInt64 → D
  succeeds : Nat → Bool
  address : Nat → Nat
  readBack : Nat → Nat → D
  address_ne_zero : ∀ k, address k ≠ 0
  address_injective : ∀ j k, address j = address k → j = k

inductive LaunchFault where
  | outOfBounds
  | lengthError
  deriving DecidableEq, Repr

/-- The locals of `runKernel`, the number of driver calls so far and the buffers that
were allocated and freed by them. -/
structure Launch (D : Type) where
  calls : Nat := 0
  host : List (List D) := []
  device : List Nat := []
  args : List (Option Nat) := []
  allocated : List Nat := []
  freed : List Nat := []
  printed : List D := []

abbrev Launching (D : Type) := Gen (Launch D) LaunchFault

/-- `max_size` of a vector of doubles. -/
def maxSize : Nat := 2 ^ 60 - 1

structure KernelInfo where
  name : Name := []
  argCount : UInt32 := 0

def findFirstKernel : List (FunctionAST D) → KernelInfo
  | [] => {}
  | function :: rest =>
    if isKernel function.proto.name then
      ⟨function.proto.name, UInt32.ofNat function.proto.args.length⟩
    else findFirstKernel rest

section
variable (driver : CudaDriver D) (argCount : UInt32) (elementCount : UInt64)

/-- A driver call behind `checkCuda`. -/
def checkCuda : Launching D Bool := fun s =>
  .ok (driver.succeeds s.calls) { s with calls := s.calls + 1 }

/-- `return false` unless the call succeeded. -/
def orReturn (ok : Bool) : Launching D Unit := if ok then pure () else Gen.null

/-- `host[a]` -/
def hostRow (a : Nat) : Launching D (List D) := fun s =>
  match s.host[a]? with
  | some row => .ok row s
  | none => .abort .outOfBounds

/-- `host[a].resize(elementCount)` -/
def resizeHost (a : Nat) : Launching D Unit := do
  let row ← hostRow a
  let resized := row.take elementCount.toNat ++
    List.replicate (elementCount.toNat - row.length) (driver.toDouble 0)
  if maxSize < elementCount.toNat then Gen.abort .lengthError
  else fun s => .ok () { s with host := s.host.set a resized }

/-- `host[a][i] = value` -/
def writeHost (a i : Nat) (value : D) : Launching D Unit := do
  let row ← hostRow a
  if i < row.length then fun s => .ok () { s with host := s.host.set a (row.set i value) }
  else Gen.abort .outOfBounds

/-- The initial `host[a][i]`; the last argument is the output. -/
def initialValue (a i : Nat) : D :=
  if UInt32.ofNat a + 1 = argCount then driver.toDouble 0
  else driver.toDouble ((UInt32.ofNat a + 1).toUInt64 * UInt64.ofNat i)

/-- The loop over `i`, with `rest` iterations to go. -/
def fillHost (a : Nat) : (rest i : Nat) → Launching D Unit
  | 0, _ => pure ()
  | rest + 1, i => do
    writeHost a i (initialValue driver argCount a i)
    fillHost a rest (i + 1)

def bytes : UInt64 := elementCount * 8

/-- `&device[a]` -/
def deviceSlot (a : Nat) : Launching D Unit := fun s =>
  if a < s.device.length then .ok () s else .abort .outOfBounds

def cuMemAlloc (a : Nat) : Launching D Bool := do
  deviceSlot a
  fun s =>
    if driver.succeeds s.calls then
      .ok true { s with
        calls := s.calls + 1
        device := s.device.set a (driver.address s.calls)
        allocated := s.allocated ++ [driver.address s.calls] }
    else .ok false { s with calls := s.calls + 1 }

/-- The bytes that a copy touches are those of `host[a]`. -/
def copyBounds (a : Nat) : Launching D (List D) := do
  deviceSlot a
  let row ← hostRow a
  if (bytes elementCount).toNat ≤ 8 * row.length then pure row else Gen.abort .outOfBounds

def cuMemcpyHtoD (a : Nat) : Launching D Bool := do
  let _ ← copyBounds elementCount a
  checkCuda driver

def cuMemcpyDtoH (a : Nat) : Launching D Bool := do
  let row ← copyBounds elementCount a
  fun s =>
    if driver.succeeds s.calls then
      .ok true { s with
        calls := s.calls + 1
        host := s.host.set a (row.mapIdx fun i x =>
          if 8 * i < (bytes elementCount).toNat then driver.readBack s.calls i else x) }
    else .ok false { s with calls := s.calls + 1 }

/-- `args[a] = &device[a]` -/
def setArg (a : Nat) : Launching D Unit := fun s =>
  if a < s.args.length then .ok () { s with args := s.args.set a (some a) }
  else .abort .outOfBounds

/-- One argument: its host vector, its buffer, the copy. -/
def prepareArg (a : Nat) : Launching D Unit := do
  resizeHost driver elementCount a
  fillHost driver argCount a elementCount.toNat 0
  let allocated ← cuMemAlloc driver a
  orReturn allocated
  let copied ← cuMemcpyHtoD driver elementCount a
  orReturn copied
  deviceSlot a
  setArg a

def prepareArgs : (rest a : Nat) → Launching D Unit
  | 0, _ => pure ()
  | rest + 1, a => do
    prepareArg driver argCount elementCount a
    prepareArgs rest (a + 1)

/-- `cuLaunchKernel` and, if that succeeds, `cuCtxSynchronize`. -/
def launchAndWait : Launching D Bool := do
  let launched ← checkCuda driver
  if launched then checkCuda driver else pure false

def copyBack : (rest a : Nat) → Bool → Launching D Bool
  | 0, _, ok => pure ok
  | rest + 1, a, ok => do
    let copied ← cuMemcpyDtoH driver elementCount a
    copyBack rest (a + 1) (copied && ok)

/-- `if (ok)`: the loop that copies every vector back. -/
def copyAllBack (ran : Bool) : Launching D Bool :=
  if ran then copyBack driver elementCount argCount.toNat 0 true else pure false

/-- The loop over `device` that frees what is not null. -/
def freeDevice : Launching D Unit := fun s =>
  let buffers := s.device.filter (· ≠ 0)
  .ok () { s with calls := s.calls + buffers.length, freed := s.freed ++ buffers }

/-- `std::cout << host[out][i]` -/
def printHost (out i : Nat) : Launching D Unit := do
  let row ← hostRow out
  match row[i]? with
  | some x => fun s => .ok () { s with printed := s.printed ++ [x] }
  | none => Gen.abort .outOfBounds

def printRow (out : Nat) : (rest i : Nat) → Launching D Unit
  | 0, _ => pure ()
  | rest + 1, i => do
    printHost out i
    printRow out rest (i + 1)

/-- `runKernel` from the launch on. -/
def runPrepared : Launching D Unit := do
  let ran ← launchAndWait driver
  let ok ← copyAllBack driver argCount elementCount ran
  freeDevice
  orReturn ok
  let out := argCount - 1
  printRow out.toNat (min elementCount.toNat 8) 0

def runKernel (moduleLoaded : Bool) : Launching D Unit := do
  orReturn moduleLoaded
  let found ← checkCuda driver
  orReturn found
  fun s => .ok () { s with
    host := List.replicate argCount.toNat []
    device := List.replicate argCount.toNat 0
    args := List.replicate argCount.toNat none }
  prepareArgs driver argCount elementCount argCount.toNat 0
  runPrepared driver argCount elementCount

/-! ## What is owed -/

/-- Every buffer that was allocated is freed once, and nothing else is. -/
structure Launch.Freed (s : Launch D) : Prop where
  once : ∀ p ∈ s.allocated, s.freed.count p = 1
  only : ∀ p ∈ s.freed, p ∈ s.allocated

/-- Nothing is freed before the end, and then the buffers are freed in their order. -/
theorem Launch.freed_of_eq {s : Launch D} (hnodup : s.allocated.Nodup)
    (h : s.freed = s.allocated) : s.Freed where
  once p hp := by rw [h]; exact List.count_eq_one_of_mem hnodup hp
  only p hp := by rwa [h] at hp

theorem Launch.start_freed {calls : Nat} : Launch.Freed ({ calls } : Launch D) :=
  Launch.freed_of_eq List.nodup_nil rfl

theorem Launch.allocated_of_freed {s : Launch D} (h : s.Freed) (hfreed : s.freed = []) :
    s.allocated = [] := by
  refine List.eq_nil_iff_forall_not_mem.mpr fun p hp => ?_
  have hcount := h.once p hp
  rw [hfreed] at hcount
  cases hcount

/-- The runs that free what they allocate. The calls are, in this order: the look-up
of the kernel, for each argument an allocation and a copy, the launch, the wait. -/
structure Spared (moduleLoaded : Bool) : Prop where
  someArgs : moduleLoaded = true → driver.succeeds 0 = true → argCount ≠ 0 →
    elementCount.toNat ≤ maxSize → driver.succeeds 1 = true →
    ∀ k, 1 < k → k ≤ 2 * argCount.toNat → driver.succeeds k = true
  noArgs : moduleLoaded = true → driver.succeeds 0 = true → argCount = 0 → elementCount ≠ 0 →
    driver.succeeds 1 = true → driver.succeeds 2 = false

/-! ## The vectors keep their sizes -/

/-- The sizes of the host vectors. -/
def Launch.shape (s : Launch D) : List Nat := s.host.map List.length

section
variable {driver argCount elementCount}
variable {s : Launch D} {a i size : Nat}

theorem Launch.row_of_shape (h : s.shape[a]? = some size) :
    ∃ row, row.length = size ∧ hostRow a s = .ok row s := by
  rw [Launch.shape, List.getElem?_map, Option.map_eq_some_iff] at h
  obtain ⟨row, hrow, hsize⟩ := h
  exact ⟨row, hsize, by simp only [hostRow, hrow]⟩

theorem Launch.shape_set (row : List D) :
    Launch.shape { s with host := s.host.set a row } = s.shape.set a row.length :=
  List.map_set

theorem Launch.shape_same {row : List D} (h : s.shape[a]? = some row.length) :
    Launch.shape { s with host := s.host.set a row } = s.shape := by
  obtain ⟨hlt, hsize⟩ := List.getElem?_eq_some_iff.mp h
  rw [shape_set, ← hsize, List.set_getElem_self]

theorem writeHost_run (h : s.shape[a]? = some size) (hi : i < size) (value : D) :
    ∃ host, writeHost a i value s = .ok () { s with host } ∧
      Launch.shape { s with host } = s.shape := by
  obtain ⟨row, rfl, hrow⟩ := Launch.row_of_shape h
  refine ⟨s.host.set a (row.set i value), ?_, ?_⟩
  · rw [writeHost, Gen.bind_of_ok hrow, if_pos hi]
  · exact Launch.shape_same (by rwa [List.length_set])

theorem fillHost_run (h : s.shape[a]? = some size) (rest : Nat) (hi : i + rest = size) :
    ∃ host, fillHost driver argCount a rest i s = .ok () { s with host } ∧
      Launch.shape { s with host } = s.shape := by
  induction rest generalizing s i with
  | zero => exact ⟨s.host, rfl, rfl⟩
  | succ rest ih =>
    have hlt : i < size := by omega
    obtain ⟨host, hwrite, hshape⟩ := writeHost_run h hlt (initialValue driver argCount a i)
    obtain ⟨host', hfill, hshape'⟩ := ih (s := { s with host }) (i := i + 1) (hshape ▸ h)
      (by omega)
    exact ⟨host', (Gen.bind_of_ok hwrite).trans hfill, hshape'.trans hshape⟩

theorem resizeHost_run (h : s.shape[a]? = some size) (he : elementCount.toNat ≤ maxSize) :
    ∃ host, resizeHost driver elementCount a s = .ok () { s with host } ∧
      Launch.shape { s with host } = s.shape.set a elementCount.toNat := by
  obtain ⟨row, -, hrow⟩ := Launch.row_of_shape h
  refine ⟨s.host.set a (row.take elementCount.toNat ++
    List.replicate (elementCount.toNat - row.length) (driver.toDouble 0)), ?_, ?_⟩
  · rw [resizeHost, Gen.bind_of_ok hrow]
    simp only [if_neg (Nat.not_lt.mpr he)]
  · have hlength : (row.take elementCount.toNat ++ List.replicate
        (elementCount.toNat - row.length) (driver.toDouble 0)).length = elementCount.toNat := by
      simp only [List.length_append, List.length_take, List.length_replicate]
      omega
    rw [Launch.shape_set, hlength]

theorem deviceSlot_run (h : a < s.device.length) : deviceSlot a s = .ok () s := by
  rw [deviceSlot, if_pos h]

theorem cuMemAlloc_fails (h : a < s.device.length) (hfails : driver.succeeds s.calls = false) :
    cuMemAlloc driver a s = .ok false { s with calls := s.calls + 1 } := by
  rw [cuMemAlloc, Gen.bind_of_ok (deviceSlot_run h)]
  simp only [hfails]
  rfl

theorem cuMemAlloc_succeeds (h : a < s.device.length)
    (hsucceeds : driver.succeeds s.calls = true) :
    cuMemAlloc driver a s = .ok true { s with
      calls := s.calls + 1
      device := s.device.set a (driver.address s.calls)
      allocated := s.allocated ++ [driver.address s.calls] } := by
  rw [cuMemAlloc, Gen.bind_of_ok (deviceSlot_run h)]
  simp only [hsucceeds, if_true]

theorem copyBounds_run (hdevice : a < s.device.length)
    (hshape : s.shape[a]? = some elementCount.toNat) :
    ∃ row, row.length = elementCount.toNat ∧ copyBounds elementCount a s = .ok row s := by
  obtain ⟨row, hlength, hrow⟩ := Launch.row_of_shape hshape
  have hbytes : (bytes elementCount).toNat ≤ 8 * row.length := by
    rw [bytes, UInt64.toNat_mul, hlength, Nat.mul_comm 8]
    exact Nat.mod_le _ _
  refine ⟨row, hlength, ?_⟩
  rw [copyBounds, Gen.bind_of_ok (deviceSlot_run hdevice), Gen.bind_of_ok hrow, if_pos hbytes]
  rfl

theorem cuMemcpyHtoD_run (hdevice : a < s.device.length)
    (hshape : s.shape[a]? = some elementCount.toNat) :
    cuMemcpyHtoD driver elementCount a s =
      .ok (driver.succeeds s.calls) { s with calls := s.calls + 1 } := by
  obtain ⟨row, -, hbounds⟩ := copyBounds_run hdevice hshape
  rw [cuMemcpyHtoD, Gen.bind_of_ok hbounds, checkCuda]

theorem setArg_run (h : a < s.args.length) :
    setArg a s = .ok () { s with args := s.args.set a (some a) } := by
  rw [setArg, if_pos h]

/-! ## One argument after the other -/

/-- The buffers of the first `a` arguments. -/
def addresses (driver : CudaDriver D) (a : Nat) : List Nat :=
  (List.range a).map fun i => driver.address (1 + 2 * i)

/-- `a` arguments are prepared, `rest` are not. -/
structure Launch.Prepared (driver : CudaDriver D) (elementCount : UInt64) (a rest : Nat)
    (s : Launch D) : Prop where
  calls : s.calls = 1 + 2 * a
  shape : s.shape = List.replicate a elementCount.toNat ++ List.replicate rest 0
  device : s.device = addresses driver a ++ List.replicate rest 0
  args : s.args.length = a + rest
  allocated : s.allocated = addresses driver a
  freed : s.freed = []

theorem addresses_succ (a : Nat) :
    addresses driver (a + 1) = addresses driver a ++ [driver.address (1 + 2 * a)] := by
  simp [addresses, List.range_succ]

theorem addresses_length (a : Nat) : (addresses driver a).length = a := by simp [addresses]

theorem addresses_nodup (a : Nat) : (addresses driver a).Nodup := by
  refine List.Nodup.map ?_ List.nodup_range
  intro i j hij
  have := driver.address_injective _ _ hij
  omega

theorem addresses_filter (a : Nat) :
    (addresses driver a).filter (· ≠ 0) = addresses driver a := by
  refine List.filter_eq_self.mpr fun p hp => ?_
  obtain ⟨i, -, rfl⟩ := List.mem_map.mp hp
  simpa using driver.address_ne_zero (1 + 2 * i)

/-- The size of the vector that stands where the prepared ones end. -/
theorem set_boundary {α : Type} {xs : List α} (h : xs.length = a) (rest : Nat) (x y : α) :
    (xs ++ List.replicate (rest + 1) y).set a x = xs ++ x :: List.replicate rest y := by
  subst h
  simp [List.replicate_succ]

theorem getElem?_boundary {α : Type} {xs : List α} (h : xs.length = a) (x : α) (ys : List α) :
    (xs ++ x :: ys)[a]? = some x := by
  subst h
  simp

/-- One argument: its allocation fails, or its copy does, or it is prepared. -/
theorem prepareArg_run (argCount : UInt32) {rest : Nat}
    (h : s.Prepared driver elementCount a (rest + 1))
    (he : elementCount.toNat ≤ maxSize) :
    (driver.succeeds (1 + 2 * a) = false ∧ ∃ s', prepareArg driver argCount elementCount a s =
      .null s' ∧ s'.allocated = addresses driver a ∧ s'.freed = []) ∨
    (driver.succeeds (1 + 2 * a) = true ∧ driver.succeeds (2 + 2 * a) = false ∧
      ∃ s', prepareArg driver argCount elementCount a s = .null s' ∧
        s'.allocated = addresses driver (a + 1) ∧ s'.freed = []) ∨
    (driver.succeeds (1 + 2 * a) = true ∧ driver.succeeds (2 + 2 * a) = true ∧
      ∃ s', prepareArg driver argCount elementCount a s = .ok () s' ∧
        s'.Prepared driver elementCount (a + 1) rest) := by
  have hsize : s.shape[a]? = some 0 := by
    rw [h.shape, List.replicate_succ]
    exact getElem?_boundary List.length_replicate _ _
  have hshape : s.shape.set a elementCount.toNat =
      List.replicate (a + 1) elementCount.toNat ++ List.replicate rest 0 := by
    rw [h.shape, set_boundary List.length_replicate, List.replicate_succ', List.append_assoc]
    rfl
  have hdevice : a < s.device.length := by
    rw [h.device, List.length_append, addresses_length, List.length_replicate]
    omega
  obtain ⟨host, hresize, hresized⟩ :
      ∃ host, resizeHost driver elementCount a s = .ok () { s with host } ∧ _ :=
    resizeHost_run hsize he
  rw [hshape] at hresized
  have hrow : (Launch.shape { s with host })[a]? = some elementCount.toNat := by
    rw [hresized, List.replicate_succ', List.append_assoc]
    exact getElem?_boundary List.length_replicate _ _
  obtain ⟨host', hfill, hfilled⟩ : ∃ host', fillHost driver argCount a elementCount.toNat 0
      { s with host } = .ok () { s with host := host' } ∧ _ := fillHost_run hrow _ (Nat.zero_add _)
  rw [prepareArg, Gen.bind_of_ok hresize, Gen.bind_of_ok hfill]
  cases halloc : driver.succeeds (1 + 2 * a) with
  | false =>
    have hfails := cuMemAlloc_fails (s := { s with host := host' }) hdevice
      (by rw [← halloc, ← h.calls])
    exact .inl ⟨rfl, _, Gen.bind_of_ok hfails, h.allocated, h.freed⟩
  | true =>
    have hsucceeds := cuMemAlloc_succeeds (s := { s with host := host' }) hdevice
      (by rw [← halloc, ← h.calls])
    let s₃ : Launch D := { s with
      host := host'
      calls := s.calls + 1
      device := s.device.set a (driver.address s.calls)
      allocated := s.allocated ++ [driver.address s.calls] }
    have hdevice₃ : a < s₃.device.length := by rwa [List.length_set]
    have hshape₃ : s₃.shape = List.replicate (a + 1) elementCount.toNat ++ List.replicate rest 0 :=
      hfilled.trans hresized
    have hcopy : cuMemcpyHtoD driver elementCount a s₃ = _ :=
      cuMemcpyHtoD_run hdevice₃ (hfilled.symm ▸ hrow)
    have hallocated : s₃.allocated = addresses driver (a + 1) := by
      rw [addresses_succ, ← h.allocated, ← h.calls]
    have hcalls : s₃.calls = 2 + 2 * a := by
      have := h.calls
      show s.calls + 1 = 2 + 2 * a
      omega
    rw [hcalls] at hcopy
    rw [Gen.bind_of_ok hsucceeds]
    refine .inr ?_
    cases hcopied : driver.succeeds (2 + 2 * a) with
    | false =>
      rw [hcopied] at hcopy
      exact .inl ⟨rfl, rfl, _, Gen.bind_of_ok hcopy, hallocated, h.freed⟩
    | true =>
      rw [hcopied] at hcopy
      let s₄ : Launch D := { s₃ with calls := 2 + 2 * a + 1 }
      have hslot : deviceSlot a s₄ = .ok () s₄ := deviceSlot_run hdevice₃
      have harg : setArg a s₄ = .ok () { s₄ with args := s.args.set a (some a) } :=
        setArg_run (by show a < s.args.length; rw [h.args]; omega)
      have hreturn : orReturn true s₄ = .ok () s₄ := rfl
      refine .inr ⟨rfl, rfl, _, (Gen.bind_of_ok hcopy).trans ((Gen.bind_of_ok hreturn).trans
        ((Gen.bind_of_ok hslot).trans harg)), ?_⟩
      constructor
      · show 2 + 2 * a + 1 = 1 + 2 * (a + 1)
        omega
      · exact hshape₃
      · show s.device.set a (driver.address s.calls) = _
        rw [h.device, set_boundary (addresses_length a), addresses_succ, h.calls,
          List.append_assoc]
        rfl
      · show (s.args.set a (some a)).length = _
        rw [List.length_set, h.args]
        omega
      · exact hallocated
      · exact h.freed

/-- How the loop over the arguments ends when it starts at argument `a` of `n`. -/
def PreparesTo (driver : CudaDriver D) (elementCount : UInt64) (n a : Nat) :
    Outcome (Launch D) LaunchFault Unit → Prop
  | .ok _ s => s.Prepared driver elementCount n 0 ∧
      ∀ k, 2 * a < k → k ≤ 2 * n → driver.succeeds k = true
  | .null s => s.freed = [] ∧
      (∃ m, s.allocated = addresses driver m ∧ a ≤ m ∧
        (m = a ↔ driver.succeeds (1 + 2 * a) = false)) ∧
      ∃ k, 2 * a < k ∧ k ≤ 2 * n ∧ driver.succeeds k = false
  | .abort _ => False

theorem prepareArgs_run (argCount : UInt32) {rest : Nat}
    (h : s.Prepared driver elementCount a rest)
    (he : elementCount.toNat ≤ maxSize) :
    PreparesTo driver elementCount (a + rest) a
      (prepareArgs driver argCount elementCount rest a s) := by
  induction rest generalizing s a with
  | zero => exact ⟨h, fun k hlo hhi => absurd hlo (Nat.not_lt.mpr hhi)⟩
  | succ rest ih =>
    obtain ⟨hfails, s', hrun, hallocated, hfreed⟩ | ⟨halloc, hfails, s', hrun, hallocated, hfreed⟩ |
      ⟨halloc, hcopy, s', hrun, hnext⟩ := prepareArg_run argCount h he
    · rw [prepareArgs, Gen.bind_of_null hrun]
      exact ⟨hfreed, ⟨a, hallocated, Nat.le_refl a, by simp [hfails]⟩,
        1 + 2 * a, by omega, by omega, hfails⟩
    · rw [prepareArgs, Gen.bind_of_null hrun]
      exact ⟨hfreed, ⟨a + 1, hallocated, by omega, by simp [halloc]⟩,
        2 + 2 * a, by omega, by omega, hfails⟩
    · rw [prepareArgs, Gen.bind_of_ok hrun]
      have hends := ih hnext
      rw [show a + 1 + rest = a + (rest + 1) by omega] at hends
      cases hloop : prepareArgs driver argCount elementCount rest (a + 1) s' with
      | ok u t =>
        rw [hloop] at hends
        obtain ⟨hprepared, hall⟩ := hends
        refine ⟨hprepared, fun k hlo hhi => ?_⟩
        by_cases hk : k ≤ 2 + 2 * a
        · obtain rfl | rfl : k = 1 + 2 * a ∨ k = 2 + 2 * a := by omega
          · exact halloc
          · exact hcopy
        · exact hall k (by omega) hhi
      | null t =>
        rw [hloop] at hends
        obtain ⟨hfreed, ⟨m, hallocated, hm, -⟩, k, hlo, hhi, hk⟩ := hends
        have hne : m ≠ a := by omega
        exact ⟨hfreed, ⟨m, hallocated, by omega, by simp [hne, halloc]⟩, k, by omega, hhi, hk⟩
      | abort why =>
        rw [hloop] at hends
        exact hends.elim

/-- Too many elements for a vector: the first `resize` throws, before any driver call. -/
theorem prepareArgs_throws (argCount : UInt32) {rest : Nat}
    (h : s.Prepared driver elementCount a (rest + 1)) (he : maxSize < elementCount.toNat) :
    prepareArgs driver argCount elementCount (rest + 1) a s = .abort .lengthError := by
  have hsize : s.shape[a]? = some 0 := by
    rw [h.shape, List.replicate_succ]
    exact getElem?_boundary List.length_replicate _ _
  obtain ⟨row, -, hrow⟩ := Launch.row_of_shape hsize
  have hresize : resizeHost driver elementCount a s = .abort .lengthError := by
    rw [resizeHost, Gen.bind_of_ok hrow]
    simp only [if_pos he]
    rfl
  rw [prepareArgs, prepareArg]
  exact Gen.bind_of_abort (Gen.bind_of_abort hresize)

/-! ## The launch and what follows it -/

theorem launchAndWait_run (s : Launch D) : ∃ calls, launchAndWait driver s =
    .ok (driver.succeeds s.calls && driver.succeeds (s.calls + 1)) { s with calls } := by
  have hcall : checkCuda driver s = .ok (driver.succeeds s.calls) { s with calls := s.calls + 1 } :=
    rfl
  rw [launchAndWait, Gen.bind_of_ok hcall]
  cases driver.succeeds s.calls with
  | false => exact ⟨_, rfl⟩
  | true => exact ⟨_, rfl⟩

/-- The vectors are as they were when the arguments were prepared. -/
structure Launch.Launched (driver : CudaDriver D) (elementCount : UInt64) (n : Nat)
    (s : Launch D) : Prop where
  shape : s.shape = List.replicate n elementCount.toNat
  device : s.device = addresses driver n
  allocated : s.allocated = addresses driver n
  freed : s.freed = []

theorem cuMemcpyDtoH_run {n : Nat} (h : s.Launched driver elementCount n) (ha : a < n) :
    ∃ copied s', cuMemcpyDtoH driver elementCount a s = .ok copied s' ∧
      s'.Launched driver elementCount n := by
  have hdevice : a < s.device.length := by rwa [h.device, addresses_length]
  have hshape : s.shape[a]? = some elementCount.toNat := by
    rw [h.shape, List.getElem?_replicate, if_pos ha]
  obtain ⟨row, hrow, hbounds⟩ := copyBounds_run hdevice hshape
  rw [cuMemcpyDtoH, Gen.bind_of_ok hbounds]
  cases hcall : driver.succeeds s.calls with
  | false => exact ⟨false, _, rfl, h.shape, h.device, h.allocated, h.freed⟩
  | true =>
    refine ⟨true, _, rfl, ?_, h.device, h.allocated, h.freed⟩
    refine Eq.trans (Launch.shape_same ?_) h.shape
    rw [List.length_mapIdx, hrow, hshape]

theorem copyBack_run {n rest : Nat} (h : s.Launched driver elementCount n) (ha : a + rest = n)
    (ok : Bool) : ∃ ok' s', copyBack driver elementCount rest a ok s = .ok ok' s' ∧
      s'.Launched driver elementCount n := by
  induction rest generalizing s a ok with
  | zero => exact ⟨ok, s, rfl, h⟩
  | succ rest ih =>
    obtain ⟨copied, s₁, hcopy, h₁⟩ := cuMemcpyDtoH_run (a := a) h (by omega)
    obtain ⟨ok', s', hrest, h'⟩ := ih h₁ (a := a + 1) (by omega) (copied && ok)
    exact ⟨ok', s', (Gen.bind_of_ok hcopy).trans hrest, h'⟩

theorem copyAllBack_run (h : s.Launched driver elementCount argCount.toNat) (ran : Bool) :
    ∃ ok s', copyAllBack driver argCount elementCount ran s = .ok ok s' ∧
      s'.Launched driver elementCount argCount.toNat ∧ (argCount = 0 → ok = ran) := by
  cases ran with
  | false => exact ⟨false, s, rfl, h, fun _ => rfl⟩
  | true =>
    obtain ⟨ok, s', hcopy, h'⟩ := copyBack_run (a := 0) h (Nat.zero_add _) true
    refine ⟨ok, s', hcopy, h', fun hnone => ?_⟩
    rw [hnone] at hcopy
    cases hcopy
    rfl

theorem freeDevice_run {n : Nat} (h : s.Launched driver elementCount n) :
    ∃ s', freeDevice s = .ok () s' ∧ s'.Freed ∧ s'.shape = s.shape := by
  have hfreed : s.freed ++ s.device.filter (· ≠ 0) = s.allocated := by
    rw [h.freed, h.device, h.allocated, addresses_filter]
    rfl
  exact ⟨_, rfl, Launch.freed_of_eq (h.allocated ▸ addresses_nodup n) hfreed, rfl⟩

theorem printHost_run (h : s.shape[a]? = some size) (hi : i < size) :
    ∃ printed, printHost a i s = .ok () { s with printed } := by
  obtain ⟨row, rfl, hrow⟩ := Launch.row_of_shape h
  rw [printHost, Gen.bind_of_ok hrow, List.getElem?_eq_getElem hi]
  exact ⟨_, rfl⟩

theorem printRow_run (h : s.shape[a]? = some size) (rest : Nat) (hi : i + rest ≤ size) :
    ∃ printed, printRow a rest i s = .ok () { s with printed } := by
  induction rest generalizing s i with
  | zero => exact ⟨s.printed, rfl⟩
  | succ rest ih =>
    obtain ⟨printed, hprint⟩ := printHost_run (i := i) h (by omega)
    obtain ⟨printed', hrest⟩ := ih (s := { s with printed }) (i := i + 1) h (by omega)
    exact ⟨printed', (Gen.bind_of_ok hprint).trans hrest⟩

/-- From the launch on, the buffers are freed; the printing needs an argument. -/
theorem runPrepared_run (h : s.Launched driver elementCount argCount.toNat) :
    ∃ ok s', s'.Freed ∧ s'.shape = s.shape ∧
      runPrepared driver argCount elementCount s =
        (do orReturn ok; printRow (argCount - 1).toNat (min elementCount.toNat 8) 0) s' ∧
      (argCount = 0 → ok = (driver.succeeds s.calls && driver.succeeds (s.calls + 1))) := by
  obtain ⟨calls, hlaunch⟩ : ∃ calls, launchAndWait driver s = .ok _ { s with calls } :=
    launchAndWait_run s
  have h₁ : Launch.Launched driver elementCount argCount.toNat { s with calls } :=
    ⟨h.shape, h.device, h.allocated, h.freed⟩
  obtain ⟨ok, s₂, hcopy, h₂, hnone⟩ := copyAllBack_run h₁
    (driver.succeeds s.calls && driver.succeeds (s.calls + 1))
  obtain ⟨s', hfree, hfreed, hshape⟩ := freeDevice_run h₂
  refine ⟨ok, s', hfreed, hshape.trans (h₂.shape.trans h.shape.symm), ?_, hnone⟩
  rw [runPrepared, Gen.bind_of_ok hlaunch, Gen.bind_of_ok hcopy, Gen.bind_of_ok hfree]

/-- With an argument, whatever fails from the launch on, nothing is lost. -/
theorem runPrepared_within (h : s.Launched driver elementCount argCount.toNat)
    (hargs : argCount ≠ 0) :
    (runPrepared driver argCount elementCount s).Within Launch.Freed (· ≠ .outOfBounds) := by
  obtain ⟨ok, s', hfreed, hshape, hrun, -⟩ := runPrepared_run h
  rw [hrun]
  cases ok with
  | false => exact hfreed
  | true =>
    have hpos : argCount.toNat ≠ 0 := fun hzero => hargs (UInt32.toNat_inj.mp hzero)
    have hlt := argCount.toNat_lt
    have hout : (argCount - 1).toNat < argCount.toNat := by
      rw [UInt32.toNat_sub, UInt32.toNat_one]
      omega
    have hrow : s'.shape[(argCount - 1).toNat]? = some elementCount.toNat := by
      rw [hshape, h.shape, List.getElem?_replicate, if_pos hout]
    obtain ⟨printed, hprint⟩ := printRow_run hrow (min elementCount.toNat 8) (i := 0) (by omega)
    have hreturn : orReturn true s' = .ok () s' := rfl
    rw [Gen.bind_of_ok hreturn, hprint]
    exact ⟨hfreed.once, hfreed.only⟩

/-- Without one, a successful run with an element to print reads past the vectors. -/
theorem runPrepared_within_noArgs (h : s.Launched driver elementCount argCount.toNat)
    (hargs : argCount = 0) :
    (runPrepared driver argCount elementCount s).Within Launch.Freed (· ≠ .outOfBounds) ↔
      (elementCount ≠ 0 → driver.succeeds s.calls = true →
        driver.succeeds (s.calls + 1) = false) := by
  obtain ⟨ok, s', hfreed, hshape, hrun, hnone⟩ := runPrepared_run h
  rw [hrun, hnone hargs]
  cases hok : driver.succeeds s.calls && driver.succeeds (s.calls + 1) with
  | false =>
    refine iff_of_true hfreed fun _ hfirst => ?_
    rwa [hfirst, Bool.true_and] at hok
  | true =>
    obtain ⟨hfirst, hsecond⟩ := Bool.and_eq_true_iff.mp hok
    have hreturn : orReturn true s' = .ok () s' := rfl
    rw [Gen.bind_of_ok hreturn, hfirst, hsecond]
    have hprint : printHost (argCount - 1).toNat 0 s' = .abort .outOfBounds := by
      refine Gen.bind_of_abort ?_
      have hhost : s'.host = [] := by
        refine List.map_eq_nil_iff.mp (hshape.trans (h.shape.trans ?_))
        rw [hargs]
        rfl
      rw [hostRow, hhost]
      rfl
    by_cases he : elementCount = 0
    · subst he
      exact iff_of_true hfreed fun hne => absurd rfl hne
    · have hrest : min elementCount.toNat 8 = (min elementCount.toNat 8 - 1) + 1 := by
        have : elementCount.toNat ≠ 0 := fun hzero => he (UInt64.toNat_inj.mp hzero)
        omega
      rw [hrest, printRow, Gen.bind_of_abort hprint]
      exact iff_of_false (fun h => h rfl) fun h => absurd (h he rfl) (by decide)

theorem Launch.Prepared.launched {n : Nat} (h : s.Prepared driver elementCount n 0) :
    s.Launched driver elementCount n where
  shape := h.shape.trans (List.append_nil _)
  device := h.device.trans (List.append_nil _)
  allocated := h.allocated
  freed := h.freed

/-- A loop over the arguments that stops early has freed nothing. -/
theorem freed_iff_of_null (hfreed : s.freed = []) {m : Nat}
    (hallocated : s.allocated = addresses driver m) : s.Freed ↔ m = 0 := by
  constructor
  · intro h
    have hnil := Launch.allocated_of_freed h hfreed
    rw [hallocated] at hnil
    simpa [addresses_length] using congrArg List.length hnil
  · rintro rfl
    refine Launch.freed_of_eq ?_ (hfreed.trans hallocated.symm)
    rw [hallocated]
    exact addresses_nodup 0

theorem prepareArgs_within (h : s.Prepared driver elementCount 0 argCount.toNat)
    (hargs : argCount ≠ 0) :
    ((prepareArgs driver argCount elementCount argCount.toNat 0 >>= fun _ =>
        runPrepared driver argCount elementCount) s).Within Launch.Freed (· ≠ .outOfBounds) ↔
      (elementCount.toNat ≤ maxSize → driver.succeeds 1 = true →
        ∀ k, 1 < k → k ≤ 2 * argCount.toNat → driver.succeeds k = true) := by
  have hpos : argCount.toNat ≠ 0 := fun hzero => hargs (UInt32.toNat_inj.mp hzero)
  by_cases he : elementCount.toNat ≤ maxSize
  · have hends := prepareArgs_run argCount h he
    rw [Nat.zero_add] at hends
    cases hloop : prepareArgs driver argCount elementCount argCount.toNat 0 s with
    | ok u s' =>
      rw [hloop] at hends
      obtain ⟨hprepared, hall⟩ := hends
      rw [Gen.bind_of_ok hloop]
      exact iff_of_true (runPrepared_within hprepared.launched hargs)
        fun _ _ k hlo hhi => hall k (by omega) hhi
    | null s' =>
      rw [hloop] at hends
      obtain ⟨hfreed, ⟨m, hallocated, -, hm⟩, k, hlo, hhi, hk⟩ := hends
      rw [Gen.bind_of_null hloop]
      refine (freed_iff_of_null hfreed hallocated).trans (hm.trans ?_)
      constructor
      · intro hfirst _ hsucceeds
        exact absurd (hfirst.symm.trans hsucceeds) (by decide)
      · intro hall
        by_contra hfirst
        rw [Bool.not_eq_false] at hfirst
        have hne : k ≠ 1 := by
          rintro rfl
          exact absurd (hk.symm.trans hfirst) (by decide)
        exact absurd (hk.symm.trans (hall he hfirst k (by omega) hhi)) (by decide)
    | abort why =>
      rw [hloop] at hends
      exact hends.elim
  · obtain ⟨rest, hrest⟩ := Nat.exists_eq_succ_of_ne_zero hpos
    rw [hrest] at h
    have hthrows := prepareArgs_throws argCount h (Nat.not_le.mp he)
    rw [← Nat.succ_eq_add_one, ← hrest] at hthrows
    rw [Gen.bind_of_abort hthrows]
    exact iff_of_true (fun hout => by cases hout) fun hle => absurd hle he

/-- The runner frees exactly what it was given, inside the bounds of its vectors, on
the runs in which no call fails between the first allocation and the last copy to
the device, and in which a kernel with no argument has nothing to print. -/
theorem runKernel_frees_iff (driver : CudaDriver D) (argCount : UInt32) (elementCount : UInt64)
    (moduleLoaded : Bool) :
    (runKernel driver argCount elementCount moduleLoaded {}).Within Launch.Freed
      (· ≠ .outOfBounds) ↔ Spared driver argCount elementCount moduleLoaded := by
  cases moduleLoaded with
  | false => exact iff_of_true Launch.start_freed ⟨nofun, nofun⟩
  | true =>
  have hfound : checkCuda driver ({} : Launch D) = .ok (driver.succeeds 0) { calls := 1 } := rfl
  have hloaded : orReturn true ({} : Launch D) = .ok () {} := rfl
  rw [runKernel, Gen.bind_of_ok hloaded, Gen.bind_of_ok hfound]
  cases hlook : driver.succeeds 0 with
  | false =>
    have hreturn : orReturn false ({ calls := 1 } : Launch D) = .null { calls := 1 } := rfl
    rw [Gen.bind_of_null hreturn]
    refine iff_of_true Launch.start_freed ⟨fun _ h => ?_, fun _ h => ?_⟩
    · rw [hlook] at h
      cases h
    · rw [hlook] at h
      cases h
  | true =>
  let s : Launch D := {
    calls := 1
    host := List.replicate argCount.toNat []
    device := List.replicate argCount.toNat 0
    args := List.replicate argCount.toNat none }
  have hs : s.Prepared driver elementCount 0 argCount.toNat := by
    constructor <;> simp [s, Launch.shape, addresses]
  show ((prepareArgs driver argCount elementCount argCount.toNat 0 >>= fun _ =>
    runPrepared driver argCount elementCount) s).Within _ _ ↔ _
  by_cases hargs : argCount = 0
  · subst hargs
    have hrun := runPrepared_within_noArgs hs.launched rfl
    refine hrun.trans ⟨fun h => ⟨fun _ _ hne => absurd rfl hne, fun _ _ _ => h⟩, ?_⟩
    exact fun h => h.noArgs rfl hlook rfl
  · rw [prepareArgs_within hs hargs]
    exact ⟨fun h => ⟨fun _ _ _ => h, fun _ _ hnone => absurd hnone hargs⟩,
      fun h => h.someArgs rfl hlook hargs⟩

/-- A driver on which exactly the calls in `failing` fail. -/
def failingDriver (failing : List Nat) : CudaDriver Nat where
  toDouble n := n.toNat
  succeeds k := decide (k ∉ failing)
  address k := k + 1
  readBack _ i := i
  address_ne_zero _ := Nat.succ_ne_zero _
  address_injective _ _ h := Nat.succ.inj h

/-- `def kernel_f() 0` -/
def kernelNoArgs : FunctionAST Nat :=
  { proto := { name := text "kernel_f", args := [] }, body := .numberExpr 0 }

/-- The second allocation of two fails: the first buffer is lost. A kernel with no
argument runs: `host[4294967295]` is read. -/
theorem runKernel_leaks :
    ¬ (runKernel (failingDriver [3]) 2 1 true {}).Within Launch.Freed (· ≠ .outOfBounds) ∧
    ¬ (runKernel (failingDriver []) (findFirstKernel [kernelNoArgs]).argCount 1 true {}).Within
      Launch.Freed (· ≠ .outOfBounds) := by
  constructor
  · have hrun : ((runKernel (failingDriver [3]) 2 1 true {}).returned?.map
        fun s => (s.allocated, s.freed)) = some ([2], []) := by decide +kernel
    refine Outcome.not_within hrun fun s hs hfreed => ?_
    have hnil := Launch.allocated_of_freed hfreed (congrArg Prod.snd hs)
    rw [show s.allocated = [2] from congrArg Prod.fst hs] at hnil
    cases hnil
  · have hrun : runKernel (failingDriver []) (findFirstKernel [kernelNoArgs]).argCount 1 true {} =
        .abort .outOfBounds :=
      Outcome.abort_of_why (by decide +kernel)
    rw [hrun]
    exact fun h => h rfl

end

end

end AroundTheWorld.Cairo
