/-
The shortest decimal of a number.

Among the decimals that are read back as a given finite number, the shortest has
the fewest digits, and among those of one length it is the nearest; of two
equally near the greater one is taken.  For each count of digits only the two
neighbours of the value on the grid of that many digits can qualify, so the
search tests these two, nearer first, and ends at the first grid with a hit.
Nine digits always suffice; the exact decimal stands behind them.
-/
import ShaderLink.Number.Binary32

namespace ShaderLink

namespace Binary32

/-- The place of the point of a positive ratio: the least power of ten that exceeds it, at most
ten to the power 40. -/
def pointOf (r : Ratio) : Int :=
  let exceeds (i : Nat) : Bool :=
    let power := (⟨1, 1⟩ : Ratio).scale 10 ((i : Int) - 46)
    r.num * power.den < power.num * r.den
  ((((List.range 86).find? exceeds).getD 86 : Nat) : Int) - 46

/-- The neighbours of a positive ratio among the decimals of a number of digits, nearer first. -/
def neighbours (r : Ratio) (count : Nat) : List Decimal :=
  let exponent := pointOf r - count
  let scaled := r.scale 10 (-exponent)
  let floor := scaled.num / scaled.den
  let rest := scaled.num % scaled.den
  let below := Decimal.ofNat floor exponent
  let above := Decimal.ofNat (floor + 1) exponent
  if rest = 0 then [below]
  else if scaled.den ≤ 2 * rest then [above, below]
  else [below, above]

/-- The exact decimal of a finite magnitude word. -/
def exactDecimal (word : Nat) : Decimal :=
  let value := BinaryFormat.single.value word
  let places := value.den.log2
  Decimal.ofNat (value.num * Nat.pow 5 places) (-(places : Int))

/-- The shortest decimal that is read back as a magnitude word. -/
def shortest (word : Nat) : Decimal :=
  if word = 0 then Decimal.zero
  else
    let value := BinaryFormat.single.value word
    let hit (i : Nat) : Option Decimal :=
      (neighbours value (i + 1)).find? fun d => wordOfDecimal d == word
    ((List.range 9).findSome? hit).getD (exactDecimal word)

/-- Decimals from one ten-thousandth up to ten to the sixteenth are written without an exponent. -/
def layout : Decimal.Layout := ⟨-3, 16⟩

/-- The text of a number, which always carries a point or an exponent when the number is finite. -/
def toText (x : Binary32) : String :=
  if x.isNaN then "NaN"
  else
    let sign := if x.isNegative then ['-'] else []
    let magnitude :=
      if x.isFinite then (shortest x.magnitude).write layout else "inf".toList
    String.ofList (sign ++ magnitude)

end Binary32

end ShaderLink
