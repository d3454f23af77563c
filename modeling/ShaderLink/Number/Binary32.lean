/-
Single-precision numbers.

A `Binary32` is its 32 bits.  Two of them are equal when their bits are, so zero
and negative zero differ and a NaN is equal to itself; this is the equality by
which literals share constants.  Numbers are read from text and made from
integers with a single rounding to the nearest value.
-/
import ShaderLink.Number.Decimal

namespace ShaderLink

/-- A single-precision number, told by its bits. -/
structure Binary32 where
  bits : UInt32
  deriving DecidableEq

namespace Binary32

/-- The number with a sign and a magnitude word. -/
def ofWord (negative : Bool) (word : Nat) : Binary32 :=
  ⟨UInt32.ofNat (if negative then 0x80000000 + word else word)⟩

def isNegative (x : Binary32) : Bool := 0x80000000 ≤ x.bits.toNat

/-- The bits below the sign. -/
def magnitude (x : Binary32) : Nat := x.bits.toNat % 0x80000000

/-- Neither an infinity nor a NaN. -/
def isFinite (x : Binary32) : Bool := x.magnitude < BinaryFormat.single.infinity

def isNaN (x : Binary32) : Bool := BinaryFormat.single.infinity < x.magnitude

def nan : Binary32 := ⟨0x7FC00000⟩

/-- The number nearest to a signed ratio. -/
def ofRatio (negative : Bool) (r : Ratio) : Binary32 :=
  ofWord negative (BinaryFormat.single.word r)

def ofInt (i : Int) : Binary32 := ofRatio (i < 0) ⟨i.natAbs, 1⟩

/-- The place of the point from which on every decimal is infinite. -/
def overflowPoint : Int := 40

/-- The place of the point up to which every decimal rounds to zero. -/
def underflowPoint : Int := -46

/-- The magnitude word nearest to a decimal.  Far outside the range of the format the place of the
point alone settles it. -/
def wordOfDecimal (d : Decimal) : Nat :=
  if d.digits = [] ∨ d.point ≤ underflowPoint then 0
  else if overflowPoint ≤ d.point then BinaryFormat.single.infinity
  else BinaryFormat.single.word d.value

def ofDecimal (negative : Bool) (d : Decimal) : Binary32 :=
  ofWord negative (wordOfDecimal d)

/-- The number that a text without a sign spells. -/
def readMagnitude? (negative : Bool) (text : List Char) : Option Binary32 :=
  let lower := text.map Char.toLower
  if lower = "inf".toList ∨ lower = "infinity".toList then
    some (ofWord negative BinaryFormat.single.infinity)
  else if lower = "nan".toList then some nan
  else (Decimal.read? text).map (ofDecimal negative)

/-- The number that a text spells, after an optional sign. -/
def read? (text : String) : Option Binary32 :=
  match text.toList with
  | '-' :: rest => readMagnitude? true rest
  | '+' :: rest => readMagnitude? false rest
  | rest => readMagnitude? false rest

/-- The finite number that a text spells. -/
def readFinite? (text : String) : Option Binary32 := (read? text).filter isFinite

end Binary32

end ShaderLink
