/-
Whole numbers in a text.

A numeral is an optional sign and one or more ASCII digits, with nothing before,
between or after them.  Two ranges are read: signed 64-bit integers, whose sign
may be either one, and counts below 2^32, which take no minus sign.  A numeral
outside its range is no numeral.
-/
namespace ShaderLink

namespace Text

/-- The value of one or more ASCII digits. -/
def natural? (digits : List Char) : Option Nat :=
  if digits ≠ [] ∧ digits.all Char.isDigit = true then some (Nat.ofDigitChars 10 digits 0)
  else none

/-- The value of digits after an optional plus sign. -/
def unsigned? : List Char → Option Nat
  | '+' :: digits => natural? digits
  | digits => natural? digits

/-- The value of digits after an optional sign. -/
def signed? : List Char → Option Int
  | '-' :: digits => (natural? digits).map fun n => -(n : Int)
  | text => (unsigned? text).map Int.ofNat

/-- The 64-bit integer that an integer is, when it is in range. -/
def int64OfInt? (i : Int) : Option Int64 :=
  if -0x8000000000000000 ≤ i ∧ i < 0x8000000000000000 then some (Int64.ofInt i) else none

/-- The 64-bit integer that a text spells. -/
def int64? (text : String) : Option Int64 :=
  (signed? text.toList).bind int64OfInt?

/-- The count below 2^32 that a text spells. -/
def count32? (text : String) : Option Nat :=
  (unsigned? text.toList).filter (· < 0x100000000)

/-- Printed decimals are read back. -/
theorem natural?_toDigits (n : Nat) : natural? (Nat.toDigits 10 n) = some n := by
  have nonempty : Nat.toDigits 10 n ≠ [] := Nat.toDigits_ne_nil
  have digits : (Nat.toDigits 10 n).all Char.isDigit = true := by
    rw [List.all_eq_true]
    intro c hc
    exact Nat.isDigit_of_mem_toDigits (by decide) (by decide) hc
  simp [natural?, nonempty, digits]

end Text

end ShaderLink
