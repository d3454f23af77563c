/-
Decimal numbers as text.

A decimal is its significant digits, without zeros at either end, and the place
of its point: the digits stand behind the point, and the value is multiplied by
ten to the power `point`.  Zero has no digits.  Every spelling of one value is
read as one decimal, and a decimal is written either with its point in place or
with an exponent.
-/
import ShaderLink.Number.Rounding
import ShaderLink.Text.Blank
import ShaderLink.Text.Numeral

namespace ShaderLink

/-- A nonnegative decimal number: the value is `0.digits` times ten to the power `point`. -/
structure Decimal where
  digits : List Char
  point : Int
  deriving DecidableEq

namespace Decimal

def zero : Decimal := ⟨[], 0⟩

/-- The decimal with these digits behind a point in this place, zeros at the ends removed. -/
def ofDigits (digits : List Char) (point : Int) : Decimal :=
  let leading := (digits.takeWhile (· == '0')).length
  match Text.stripEnds (· == '0') digits with
  | [] => zero
  | significant => ⟨significant, point - leading⟩

/-- The decimal of a whole number times a power of ten. -/
def ofNat (n : Nat) (exponent : Int) : Decimal :=
  let digits := Nat.toDigits 10 n
  ofDigits digits (exponent + digits.length)

def value (d : Decimal) : Ratio :=
  (⟨Nat.ofDigitChars 10 d.digits 0, 1⟩ : Ratio).scale 10 (d.point - d.digits.length)

/-! ### Reading -/

/-- The exponent that a text spells: none, or the letter e and a whole number. -/
def exponent? : List Char → Option Int
  | [] => some 0
  | c :: rest => if c = 'e' ∨ c = 'E' then Text.signed? rest else none

/-- The decimal that a text without a sign spells: digits, one at least, with a point before, among
or behind them or none, and an exponent or none. -/
def read? (text : List Char) : Option Decimal :=
  let whole := text.takeWhile Char.isDigit
  let afterWhole := text.dropWhile Char.isDigit
  let afterPoint := afterWhole.drop 1
  let hasPoint := afterWhole.head? == some '.'
  let fraction := if hasPoint then afterPoint.takeWhile Char.isDigit else []
  let rest := if hasPoint then afterPoint.dropWhile Char.isDigit else afterWhole
  if whole = [] ∧ fraction = [] then none
  else (exponent? rest).map fun e => ofDigits (whole ++ fraction) (whole.length + e)

/-! ### Writing -/

/-- The least and the greatest place of the point at which a decimal has no exponent. -/
structure Layout where
  leastPoint : Int
  greatestPoint : Int

/-- The decimal with its point in place and a digit at least on either side of it. -/
def plain (d : Decimal) : List Char :=
  if d.point ≤ 0 then
    '0' :: '.' :: List.replicate (-d.point).toNat '0' ++ (if d.digits = [] then ['0'] else d.digits)
  else
    let width := d.point.toNat
    let whole := d.digits.take width
    let fraction := d.digits.drop width
    whole ++ List.replicate (width - whole.length) '0' ++ '.' ::
      (if fraction = [] then ['0'] else fraction)

/-- The decimal with one digit before the point, no point behind a lone digit, and an exponent. -/
def scientific (d : Decimal) : List Char :=
  d.digits.take 1 ++
    (match d.digits.drop 1 with
      | [] => []
      | fraction => '.' :: fraction) ++
    'e' :: (toString (d.point - 1)).toList

/-- The decimal in the notation that the layout asks for. -/
def write (layout : Layout) (d : Decimal) : List Char :=
  if d.digits = [] ∨ (layout.leastPoint ≤ d.point ∧ d.point ≤ layout.greatestPoint) then d.plain
  else d.scientific

end Decimal

end ShaderLink
