/-
Reading JSON numbers.

A number without fraction and exponent that fits 64 bits, signed or unsigned, is
that integer, except negative zero.  Every other number is read in double
precision: the significand is the digits read so far, as long as they fit 64
bits, later digits counting only by their place; it is rounded to double
precision, and multiplied or divided by a rounded power of ten.  A number beyond
double precision is malformed.
-/
import ShaderLink.Json.Text
import ShaderLink.Number.Rounding

namespace ShaderLink

namespace Json

/-- A number as it is read. -/
inductive Number where
  | int (value : Int64)
  /-- A whole number that only fits without a sign. -/
  | unsigned (value : UInt64)
  /-- A double-precision number, by its sign and its magnitude word. -/
  | double (negative : Bool) (word : Nat)
  deriving DecidableEq

/-- A run of digits below 2^64, read as far as it fits. -/
structure DigitRun where
  value : Nat
  /-- How many digits were taken. -/
  taken : Nat
  rest : List Char

/-- Digits taken onto a value as long as the result stays below 2^64. -/
def digitRun (value taken : Nat) : List Char → DigitRun
  | [] => ⟨value, taken, []⟩
  | c :: rest =>
    let next := value * 10 + (c.toNat - 48)
    if c.isDigit = true ∧ next < 0x10000000000000000 then digitRun next (taken + 1) rest
    else ⟨value, taken, c :: rest⟩

/-- The power of ten as a double-precision magnitude word. -/
def powerOfTen (exponent : Nat) : Nat := BinaryFormat.double.word ⟨Nat.pow 10 exponent, 1⟩

def mulDouble (a b : Nat) : Nat :=
  BinaryFormat.double.word ((BinaryFormat.double.value a).mul (BinaryFormat.double.value b))

def divDouble (a b : Nat) : Nat :=
  BinaryFormat.double.word ((BinaryFormat.double.value a).div (BinaryFormat.double.value b))

def greatestPower : Nat := 308

/-- A magnitude divided by powers of ten that exceed double precision, at most so many times; it
is zero after three. -/
def shrink : Nat → Nat → Nat → Nat
  | 0, _, _ => 0
  | times + 1, word, exponent =>
    if exponent ≤ greatestPower then divDouble word (powerOfTen exponent)
    else shrink times (divDouble word (powerOfTen greatestPower)) (exponent - greatestPower)

/-- The double-precision magnitude of a significand and a power of ten. -/
def doubleOf? (significand : Nat) (exponent : Int) : Option Nat :=
  let word := BinaryFormat.double.word ⟨significand, 1⟩
  if exponent < 0 then some (shrink 3 word (-exponent).toNat)
  else if word = 0 then some 0
  else if greatestPower < exponent then none
  else
    let product := mulDouble word (powerOfTen exponent.toNat)
    if product = BinaryFormat.double.infinity then none else some product

/-- The number of a significand and a power of ten. -/
def scaledNumber (negative : Bool) (significand : Nat) (exponent : Int) : Except Flaw Number :=
  match doubleOf? significand exponent with
  | some word => .ok (.double negative word)
  | none => .error .malformed

/-- The greatest exponent that is read digit by digit. -/
def greatestExponent : Nat := 0x7FFFFFFF

/-- The value of a run of digits, or nothing from the place on where it passes the greatest
exponent. -/
def exponentDigits (value : Nat) : List Char → Option Nat
  | [] => some value
  | c :: rest =>
    let next := value * 10 + (c.toNat - 48)
    if next ≤ greatestExponent then exponentDigits next rest else none

/-- The number whose exponent part comes next, the letter e already read. -/
def numberWithExponent (negative : Bool) (significand : Nat) (exponent : Int)
    (text : List Char) : Except Flaw (Number × List Char) :=
  let down := text.head? == some '-'
  let unsigned := if down ∨ text.head? = some '+' then text.drop 1 else text
  let digits := unsigned.takeWhile Char.isDigit
  let rest := unsigned.dropWhile Char.isDigit
  if digits = [] then .error (wrongAt unsigned)
  else
    match exponentDigits 0 digits with
    | some n => do
      let number ← scaledNumber negative significand (if down then exponent - n else exponent + n)
      .ok (number, rest)
    | none =>
      if significand ≠ 0 ∧ down = false then .error .malformed
      else .ok (.double negative 0, rest)

/-- The number whose exponent part may come next. -/
def numberAtExponent (negative : Bool) (significand : Nat) (exponent : Int)
    (text : List Char) : Except Flaw (Number × List Char) :=
  match text with
  | 'e' :: rest | 'E' :: rest => numberWithExponent negative significand exponent rest
  | rest => do
    let number ← scaledNumber negative significand exponent
    .ok (number, rest)

/-- The number whose fraction comes next, the point already read.  Digits that no longer fit are
passed over. -/
def numberWithFraction (negative : Bool) (significand : Nat) (exponent : Int)
    (text : List Char) : Except Flaw (Number × List Char) :=
  if (text.takeWhile Char.isDigit).isEmpty then .error (wrongAt text)
  else
    let run := digitRun significand 0 text
    numberAtExponent negative run.value (exponent - run.taken) (run.rest.dropWhile Char.isDigit)

/-- The number that a whole number without fraction and exponent is. -/
def wholeNumber (negative : Bool) (n : Nat) : Except Flaw Number :=
  if negative then
    if n = 0 ∨ 0x8000000000000000 < n then scaledNumber true n 0
    else .ok (.int (Int64.ofInt (-(n : Int))))
  else if n < 0x8000000000000000 then .ok (.int (Int64.ofInt n))
  else .ok (.unsigned (UInt64.ofNat n))

/-- The number whose whole part has been read, with so many further digits that did not fit. -/
def numberAfterWhole (negative : Bool) (significand further : Nat) (text : List Char) :
    Except Flaw (Number × List Char) :=
  match text with
  | '.' :: rest => numberWithFraction negative significand further rest
  | 'e' :: rest | 'E' :: rest => numberWithExponent negative significand further rest
  | rest => do
    let number ←
      if further = 0 then wholeNumber negative significand
      else scaledNumber negative significand further
    .ok (number, rest)

/-- The number that a text begins with, a minus sign already read when it is negative. -/
def number (negative : Bool) (text : List Char) : Except Flaw (Number × List Char) :=
  match text with
  | [] => .error .truncated
  | '0' :: rest =>
    if (rest.takeWhile Char.isDigit).isEmpty then numberAfterWhole negative 0 0 rest
    else .error .malformed
  | c :: rest =>
    if c.isDigit then
      let run := digitRun 0 0 (c :: rest)
      let further := run.rest.takeWhile Char.isDigit
      numberAfterWhole negative run.value further.length (run.rest.drop further.length)
    else .error .malformed

end Json

end ShaderLink
