import Mathlib.Algebra.Group.Nat.Defs
import Mathlib.Algebra.Group.Int.Defs
import AroundTheWorld.Llvm.Ir

/-!
# Doubles and 64-bit integers

The conversions between doubles and `i64`, and the comparison that the back ends
with integer loops use. An `i64` is its signed value; addition wraps.
-/

namespace AroundTheWorld.Llvm

/-- `une` is "unordered or not equal"; `fptosi` truncates and `sitofp` converts
back; `toUnsigned` is the `static_cast<unsigned>` of a `double` in C++. -/
structure IntOps (D : Type) extends FloatOps D where
  une : D → D → Bool
  fptosi : D → Int
  sitofp : Int → D
  toUnsigned : D → Nat

/-- Whole numbers in place of doubles. -/
def wholeIntOps : IntOps Int where
  toFloatOps := wholeOps
  une x y := decide (x ≠ y)
  fptosi x := x
  sitofp x := x
  toUnsigned x := x.toNat

/-- The signed value of the low 64 bits. -/
def wrap64 (x : Int) : Int := Int.bmod x (2 ^ 64)

theorem wrap64_eq {x : Int} (hlow : -2 ^ 63 ≤ x) (hhigh : x < 2 ^ 63) : wrap64 x = x := by
  unfold wrap64
  rw [Int.bmod_def]
  omega

end AroundTheWorld.Llvm
