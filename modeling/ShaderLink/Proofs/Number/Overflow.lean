/-
Where single precision ends.

A number is rounded to infinity exactly when it is not below the bound that lies half a
step above the greatest finite number.  In the last binade the significand is then rounded
up to the next power of two, at the bound itself too, since the greatest significand is
odd.  From the next binade on no word is left, and below the last one none is missed.

Integers of 64 bits lie far below the bound.
-/
import ShaderLink.Number.Binary32
import ShaderLink.Proofs.Number.Rounding

namespace ShaderLink

namespace Ratio

variable {q : ℚ} {n : Nat}

private theorem floor_le_roundEven (q : ℚ) : ⌊q⌋₊ ≤ roundEven q := by
  unfold roundEven
  split
  · exact Nat.le_succ _
  · exact Nat.le_refl _

private theorem roundEven_le_succ_floor (q : ℚ) : roundEven q ≤ ⌊q⌋₊ + 1 := by
  unfold roundEven
  split
  · exact Nat.le_refl _
  · exact Nat.le_succ _

/-- A number is rounded up to an even one from half a step below it on. -/
private theorem le_roundEven_iff (even : n % 2 = 0) (hq : 0 ≤ q) :
    n ≤ roundEven q ↔ (n : ℚ) - 1 / 2 ≤ q := by
  have hfloor := Nat.floor_le hq
  have hlt := Nat.lt_floor_add_one q
  by_cases hle : n ≤ ⌊q⌋₊
  · have hcast : (n : ℚ) ≤ ⌊q⌋₊ := Nat.cast_le.mpr hle
    refine iff_of_true (hle.trans (floor_le_roundEven q)) ?_
    linarith
  · have hcast : (⌊q⌋₊ : ℚ) + 1 ≤ n := by exact_mod_cast not_le.mp hle
    constructor
    · intro hround
      have hsucc : n = ⌊q⌋₊ + 1 := by
        have hbound := roundEven_le_succ_floor q
        omega
      have hup : 1 / 2 < q - ⌊q⌋₊ ∨ (q - ⌊q⌋₊ = 1 / 2 ∧ ⌊q⌋₊ % 2 = 1) := by
        by_contra hdown
        rw [roundEven, if_neg hdown] at hround
        exact hle hround
      rw [hsucc, Nat.cast_add_one]
      rcases hup with hover | ⟨htie, -⟩
      · linarith
      · linarith
    · intro hhalf
      have hsucc : n = ⌊q⌋₊ + 1 := by
        have hnext : n < ⌊q⌋₊ + 2 := by
          have hreal : (n : ℚ) < ⌊q⌋₊ + 2 := by linarith
          exact_mod_cast hreal
        omega
      have hrest : 1 / 2 ≤ q - ⌊q⌋₊ := by
        rw [hsucc, Nat.cast_add_one] at hhalf
        linarith
      have hup : 1 / 2 < q - ⌊q⌋₊ ∨ (q - ⌊q⌋₊ = 1 / 2 ∧ ⌊q⌋₊ % 2 = 1) := by
        rcases hrest.lt_or_eq with hover | htie
        · exact .inl hover
        · exact .inr ⟨htie.symm, by omega⟩
      rw [roundEven, if_pos hup, hsucc]

end Ratio

namespace BinaryFormat

/-- The least number that single precision rounds to infinity. -/
def overflowBound : ℚ := (2 ^ 25 - 1) * 2 ^ 103

section Word

variable {r : Ratio} {q : ℚ} {log e : Int}

private theorem zpow_mul_zpow_neg (k e : Int) : (2 : ℚ) ^ k * 2 ^ (-e) = 2 ^ (k - e) := by
  rw [← zpow_add₀ two_ne_zero, sub_eq_add_neg]

/-- A significand of 24 bits is rounded up to the next power of two at most. -/
private theorem roundEven_significand_le (hpos : 0 < q) (hhigh : q < 2 ^ (log + 1))
    (hexponent : log - 23 ≤ e) : Ratio.roundEven (q * 2 ^ (-e)) ≤ 2 ^ 24 := by
  refine (Ratio.roundEven_le_succ_floor _).trans ?_
  refine (Nat.floor_lt (mul_nonneg hpos.le (zpow_nonneg (by norm_num) _))).mpr ?_
  calc q * 2 ^ (-e) < 2 ^ (log + 1) * 2 ^ (-e) := mul_lt_mul_of_pos_right hhigh (zpow_pos two_pos _)
    _ = 2 ^ (log + 1 - e) := zpow_mul_zpow_neg _ _
    _ ≤ 2 ^ (24 : Int) := zpow_le_zpow_right₀ (by norm_num) (by omega)
    _ = ((2 ^ 24 : Nat) : ℚ) := by norm_num

/-- A significand of 24 bits has its leading bit. -/
private theorem le_roundEven_significand (hpos : 0 < q) (hlow : 2 ^ log ≤ q) :
    2 ^ 23 ≤ Ratio.roundEven (q * 2 ^ (-(log - 23))) := by
  have hscaled : 0 ≤ q * 2 ^ (-(log - 23)) := mul_nonneg hpos.le (zpow_nonneg (by norm_num) _)
  refine (Ratio.le_roundEven_iff (by norm_num) hscaled).mpr ?_
  calc ((2 ^ 23 : Nat) : ℚ) - 1 / 2 ≤ 2 ^ (23 : Int) := by norm_num
    _ = 2 ^ log * 2 ^ (-(log - 23)) := by rw [zpow_mul_zpow_neg, sub_sub_cancel]
    _ ≤ q * 2 ^ (-(log - 23)) := mul_le_mul_of_nonneg_right hlow (zpow_nonneg (by norm_num) _)

/-- In the last binade the significand is rounded up to the next power of two from the bound on. -/
private theorem le_roundEven_last_iff (hpos : 0 < q) :
    2 ^ 24 ≤ Ratio.roundEven (q * 2 ^ (-104 : Int)) ↔ overflowBound ≤ q := by
  have hscaled : 0 ≤ q * 2 ^ (-104 : Int) := mul_nonneg hpos.le (zpow_nonneg (by norm_num) _)
  rw [Ratio.le_roundEven_iff (by norm_num) hscaled, zpow_neg, ← div_eq_mul_inv,
    le_div_iff₀ (zpow_pos two_pos _)]
  norm_num [overflowBound]

/-- The word of a positive ratio, as its value determines it. -/
theorem single_word_eq (hnum : r.num ≠ 0) (hden : 0 < r.den) :
    single.word r =
      min ((max (Int.log 2 r.toRat - 23) (-149) + 149).toNat * 2 ^ 23 +
        Ratio.roundEven (r.toRat * 2 ^ (-max (Int.log 2 r.toRat - 23) (-149)))) 0x7F800000 := by
  unfold word
  rw [if_neg hnum, Ratio.log2_eq_log (Nat.pos_of_ne_zero hnum) hden]
  dsimp only
  rw [Ratio.nearest_eq_roundEven (Ratio.den_scale_pos hden two_pos _),
    Ratio.toRat_scale r two_ne_zero]
  rfl

/-- **A ratio is rounded to infinity exactly when it reaches the bound.** -/
theorem single_word_eq_infinity_iff (hden : 0 < r.den) :
    single.word r = single.infinity ↔ overflowBound ≤ r.toRat := by
  by_cases hnum : r.num = 0
  · have hzero : r.toRat = 0 := (Ratio.num_eq_zero_iff hden).mp hnum
    have hword : single.word r = 0 := by rw [word, if_pos hnum]
    rw [hzero, hword]
    exact iff_of_false (by decide) (by norm_num [overflowBound])
  · have hpos : 0 < r.toRat :=
      div_pos (Nat.cast_pos.mpr (Nat.pos_of_ne_zero hnum)) (Nat.cast_pos.mpr hden)
    have hlow : (2 : ℚ) ^ Int.log 2 r.toRat ≤ r.toRat := by
      exact_mod_cast Int.zpow_log_le_self (b := 2) (by norm_num) hpos
    have hhigh : r.toRat < (2 : ℚ) ^ (Int.log 2 r.toRat + 1) := by
      exact_mod_cast Int.lt_zpow_succ_log_self (b := 2) (by norm_num) r.toRat
    have hinfinity : single.infinity = 255 * 2 ^ 23 := rfl
    rw [single_word_eq hnum hden, hinfinity]
    generalize Int.log 2 r.toRat = log at hlow hhigh
    generalize r.toRat = q at hpos hlow hhigh
    rcases lt_trichotomy log 127 with hbelow | rfl | habove
    · -- Even a significand that is rounded up to the next power of two leaves a binade above it.
      have hsignificand := roundEven_significand_le hpos hhigh (le_max_left (log - 23) (-149))
      refine iff_of_false (by omega) (not_le.mpr ?_)
      calc q < 2 ^ (log + 1) := hhigh
        _ ≤ 2 ^ (127 : Int) := zpow_le_zpow_right₀ (by norm_num) (by omega)
        _ ≤ overflowBound := by norm_num [overflowBound]
    · -- The last binade, of which only the carry of the significand is infinity.
      have hexponent : max ((127 : Int) - 23) (-149) = 104 := rfl
      rw [hexponent, ← le_roundEven_last_iff hpos]
      omega
    · have hexponent : max (log - 23) (-149) = log - 23 := by omega
      have hsignificand := le_roundEven_significand hpos hlow
      rw [hexponent]
      refine iff_of_true (by omega) ?_
      calc overflowBound ≤ 2 ^ (128 : Int) := by norm_num [overflowBound]
        _ ≤ 2 ^ log := zpow_le_zpow_right₀ (by norm_num) (by omega)
        _ ≤ q := hlow

end Word

end BinaryFormat

namespace Binary32

open BinaryFormat (overflowBound)

/-- A number made of a finite word is finite, and one made of infinity is not. -/
theorem isFinite_ofWord (negative : Bool) {word : Nat}
    (hword : word ≤ BinaryFormat.single.infinity) :
    (ofWord negative word).isFinite = decide (word < BinaryFormat.single.infinity) := by
  have hinfinity : BinaryFormat.single.infinity = 0x7F800000 := rfl
  have hmagnitude : (ofWord negative word).magnitude = word := by
    unfold ofWord magnitude
    rw [UInt32.toNat_ofNat']
    split <;> omega
  rw [isFinite, hmagnitude]

/-- **A rounded ratio is finite exactly when it is below the bound.** -/
theorem isFinite_ofRatio_iff (negative : Bool) {r : Ratio} (hden : 0 < r.den) :
    (ofRatio negative r).isFinite = true ↔ r.toRat < overflowBound := by
  have hle := BinaryFormat.word_le_infinity BinaryFormat.single r
  rw [ofRatio, isFinite_ofWord negative hle, decide_eq_true_iff, lt_iff_le_and_ne,
    and_iff_right hle, Ne, BinaryFormat.single_word_eq_infinity_iff hden, not_le]

/-- Whole numbers of 64 bits are below the bound. -/
theorem isFinite_ofNat (negative : Bool) {n : Nat} (hn : n ≤ 2 ^ 64) :
    (ofRatio negative ⟨n, 1⟩).isFinite = true := by
  refine (isFinite_ofRatio_iff negative one_pos).mpr ?_
  calc (⟨n, 1⟩ : Ratio).toRat = n := by simp [Ratio.toRat]
    _ ≤ 2 ^ 64 := by exact_mod_cast hn
    _ < overflowBound := by norm_num [overflowBound]

theorem isFinite_ofInt64 (i : Int64) : (ofInt i.toInt).isFinite = true := by
  have hlow := i.le_toInt
  have hhigh := i.toInt_lt
  exact isFinite_ofNat _ (by omega)

end Binary32

end ShaderLink
