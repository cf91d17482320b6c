import AroundTheWorld.Base.Numerals
import AroundTheWorld.Lex.Token

/-!
# Decimal numbers in names

`std::to_string` and LLVM's `utostr` write a number in decimal.
-/

namespace AroundTheWorld.Lex

open AroundTheWorld.Base

def toText (n : Nat) : Text := text (toString n)

theorem toText_eq (n : Nat) : toText n = (Nat.toDigits 10 n).map byte := by
  rw [toText, text, Nat.toString_eq_ofList_toDigits, String.toList_ofList]

def isDecimalDigit (c : Byte) : Bool := byte '0' ≤ c && c ≤ byte '9'

/-- The decimal digit characters. -/
def digitChars : List Char := ['0', '1', '2', '3', '4', '5', '6', '7', '8', '9']

theorem ofNat_mem_digitChars : ∀ n < 58, 48 ≤ n → Char.ofNat n ∈ digitChars := by decide

theorem mem_digitChars {c : Char} (h : c.isDigit = true) : c ∈ digitChars := by
  simp only [Char.isDigit, Bool.and_eq_true, decide_eq_true_eq] at h
  have hlow : 48 ≤ c.toNat := h.1
  have hhigh : c.toNat ≤ 57 := h.2
  rw [← Char.ofNat_toNat c]
  exact ofNat_mem_digitChars c.toNat (by omega) hlow

theorem mem_toDigits {n : Nat} {c : Char} (h : c ∈ Nat.toDigits 10 n) : c ∈ digitChars :=
  mem_digitChars (Nat.isDigit_of_mem_toDigits (by decide) (by decide) h)

theorem isDecimalDigit_byte : ∀ c ∈ digitChars, isDecimalDigit (byte c) = true :=
  List.all_eq_true.mp (by decide)

/-- The character of a byte. -/
theorem ofNat_byte {c : Char} (hc : c ∈ digitChars) : Char.ofNat (byte c).toNat = c := by
  have h : digitChars.all (fun c => Char.ofNat (byte c).toNat == c) = true := by decide
  exact beq_iff_eq.mp (List.all_eq_true.mp h c hc)

theorem toText_injective : Function.Injective toText := by
  have hread : ∀ n, (toText n).map (fun c => Char.ofNat c.toNat) = Nat.toDigits 10 n := by
    intro n
    rw [toText_eq, List.map_map]
    refine (List.map_congr_left fun c hc => ?_).trans (List.map_id _)
    exact ofNat_byte (mem_toDigits hc)
  intro n m h
  have hdigits : Nat.toDigits 10 n = Nat.toDigits 10 m := by rw [← hread, ← hread, h]
  rw [← Nat.ofDigitChars_ten_toDigits (n := n), hdigits, Nat.ofDigitChars_ten_toDigits]

def decimal : Numerals Byte where
  numeral := toText
  isDigit c := isDecimalDigit c = true
  isDigit_of_mem := by
    intro n c h
    rw [toText_eq] at h
    obtain ⟨d, hd, rfl⟩ := List.mem_map.mp h
    exact isDecimalDigit_byte d (mem_toDigits hd)
  injective := toText_injective

end AroundTheWorld.Lex
