/-
Rounding to a binary floating-point format.

A format has `precision` significant bits, a least exponent, and a magnitude
word that means infinity.  The magnitude words of a format count its values
upward from zero, so a word is the significand added to the exponent's offset in
steps of half the significand range; subnormal values need no case of their own
and a carry out of the significand is the next exponent.

`word` rounds an exact ratio once, to the nearest value, a tie to the even
one.  All arithmetic is on natural numbers.
-/
namespace ShaderLink

/-- A ratio of natural numbers, meant with a positive denominator. -/
structure Ratio where
  num : Nat
  den : Nat

namespace Ratio

/-- The ratio times a power of a base, whose exponent may be negative. -/
def scale (r : Ratio) (base : Nat) (exponent : Int) : Ratio :=
  if 0 ≤ exponent then ⟨r.num * Nat.pow base exponent.toNat, r.den⟩
  else ⟨r.num, r.den * Nat.pow base (-exponent).toNat⟩

def mul (a b : Ratio) : Ratio := ⟨a.num * b.num, a.den * b.den⟩

def div (a b : Ratio) : Ratio := ⟨a.num * b.den, a.den * b.num⟩

/-- The nearest natural number, a tie going to the even one. -/
def nearest (r : Ratio) : Nat :=
  let floor := r.num / r.den
  let rest := r.num % r.den
  if r.den < 2 * rest ∨ (2 * rest = r.den ∧ floor % 2 = 1) then floor + 1 else floor

/-- The greatest exponent of two whose power is at most a positive ratio. -/
def log2 (r : Ratio) : Int :=
  let estimate : Int := (r.num.log2 : Int) - r.den.log2
  let power := scale ⟨1, 1⟩ 2 estimate
  if power.num * r.den ≤ r.num * power.den then estimate else estimate - 1

end Ratio

/-- A binary floating-point format. -/
structure BinaryFormat where
  /-- Significant bits, the leading one included. -/
  precision : Nat
  /-- The exponent of the last bit of the smallest values. -/
  leastExponent : Int
  /-- The magnitude word of infinity. -/
  infinity : Nat

namespace BinaryFormat

def single : BinaryFormat := ⟨24, -149, 0x7F800000⟩

def double : BinaryFormat := ⟨53, -1074, 0x7FF0000000000000⟩

/-- How far the magnitude words of two neighbouring exponents lie apart. -/
def binade (format : BinaryFormat) : Nat := Nat.pow 2 (format.precision - 1)

/-- The magnitude word of the value nearest to a ratio. -/
def word (format : BinaryFormat) (r : Ratio) : Nat :=
  if r.num = 0 then 0
  else
    let exponent := max (r.log2 - (format.precision - 1 : Nat)) format.leastExponent
    let significand := (r.scale 2 (-exponent)).nearest
    min ((exponent - format.leastExponent).toNat * format.binade + significand) format.infinity

/-- The exact value of a finite magnitude word. -/
def value (format : BinaryFormat) (word : Nat) : Ratio :=
  let field := word / format.binade
  let fraction := word % format.binade
  if field = 0 then (⟨fraction, 1⟩ : Ratio).scale 2 format.leastExponent
  else (⟨fraction + format.binade, 1⟩ : Ratio).scale 2 (format.leastExponent + (field - 1 : Nat))

theorem word_le_infinity (format : BinaryFormat) (r : Ratio) :
    format.word r ≤ format.infinity := by
  unfold word
  split
  · exact Nat.zero_le _
  · exact Nat.min_le_right _ _

end BinaryFormat

end ShaderLink
