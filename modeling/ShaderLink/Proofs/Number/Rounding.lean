/-
Rounding goes by the value of a ratio.

A ratio stands for a rational number.  Its exponent of two and the nearest natural
number are those of the rational number, so ratios of one value are rounded to one
word.  And the value of a finite word is rounded to this word: it lies on the grid of
its binade, where nothing is left to round.
-/
import Mathlib.Algebra.Order.Floor.Semifield
import Mathlib.Data.Int.Log
import Mathlib.Data.Rat.Floor
import ShaderLink.Number.Rounding

namespace ShaderLink

namespace Ratio

/-- The rational number that a ratio stands for. -/
def toRat (r : Ratio) : ℚ := r.num / r.den

variable {r other : Ratio}

theorem toRat_scale (r : Ratio) {base : Nat} (hbase : base ≠ 0) (exponent : Int) :
    (r.scale base exponent).toRat = r.toRat * (base : ℚ) ^ exponent := by
  have hbase : (base : ℚ) ≠ 0 := Nat.cast_ne_zero.mpr hbase
  unfold scale toRat
  split
  · rename_i hnonneg
    have hexponent : (base : ℚ) ^ exponent = (base : ℚ) ^ exponent.toNat := by
      rw [← zpow_natCast, Int.toNat_of_nonneg hnonneg]
    rw [hexponent]
    push_cast [Nat.pow_eq]
    ring
  · rename_i hneg
    have hexponent : (base : ℚ) ^ exponent = ((base : ℚ) ^ (-exponent).toNat)⁻¹ := by
      rw [← zpow_natCast, Int.toNat_of_nonneg (by omega), zpow_neg, inv_inv]
    rw [hexponent]
    push_cast [Nat.pow_eq]
    rw [div_mul_eq_div_div, div_eq_mul_inv]

theorem den_scale_pos (hden : 0 < r.den) {base : Nat} (hbase : 0 < base) (exponent : Int) :
    0 < (r.scale base exponent).den := by
  unfold scale
  split
  · exact hden
  · exact Nat.mul_pos hden (Nat.pow_pos hbase)

theorem num_eq_zero_iff (hden : 0 < r.den) : r.num = 0 ↔ r.toRat = 0 := by
  have hden : (r.den : ℚ) ≠ 0 := Nat.cast_ne_zero.mpr hden.ne'
  rw [toRat, div_eq_zero_iff, or_iff_left hden, Nat.cast_eq_zero]

/-! ### The exponent of two -/

/-- An exponent between whose power of two and the next a positive number lies is its logarithm. -/
private theorem log_eq_of_bounds {q : ℚ} {k : Int} (hlow : (2 : ℚ) ^ k ≤ q)
    (hhigh : q < (2 : ℚ) ^ (k + 1)) : Int.log 2 q = k := by
  have hpos : 0 < q := lt_of_lt_of_le (zpow_pos (by norm_num) k) hlow
  have hle := (Int.zpow_le_iff_le_log (b := 2) (by norm_num) hpos).mp (by exact_mod_cast hlow)
  have hlt := (Int.lt_zpow_iff_log_lt (b := 2) (by norm_num) hpos).mp (by exact_mod_cast hhigh)
  omega

/-- The logarithm of a ratio is that of its numerator less that of its denominator, or one less. -/
private theorem toRat_bounds (hnum : 0 < r.num) (hden : 0 < r.den) :
    (2 : ℚ) ^ ((r.num.log2 : Int) - r.den.log2 - 1) ≤ r.toRat ∧
      r.toRat < (2 : ℚ) ^ ((r.num.log2 : Int) - r.den.log2 + 1) := by
  have hdenPos : (0 : ℚ) < r.den := Nat.cast_pos.mpr hden
  have hnumLow : (2 : ℚ) ^ r.num.log2 ≤ r.num := by exact_mod_cast Nat.log2_self_le hnum.ne'
  have hnumHigh : (r.num : ℚ) < 2 ^ (r.num.log2 + 1) := by exact_mod_cast Nat.lt_log2_self
  have hdenLow : (2 : ℚ) ^ r.den.log2 ≤ r.den := by exact_mod_cast Nat.log2_self_le hden.ne'
  have hdenHigh : (r.den : ℚ) < 2 ^ (r.den.log2 + 1) := by exact_mod_cast Nat.lt_log2_self
  have hsum (a b : Int) : (2 : ℚ) ^ (a + b) = 2 ^ a * 2 ^ b := zpow_add₀ two_ne_zero a b
  constructor
  · rw [toRat, le_div_iff₀ hdenPos]
    calc (2 : ℚ) ^ ((r.num.log2 : Int) - r.den.log2 - 1) * r.den
        ≤ 2 ^ ((r.num.log2 : Int) - r.den.log2 - 1) * 2 ^ ((r.den.log2 : Int) + 1) := by
          refine mul_le_mul_of_nonneg_left ?_ (zpow_nonneg (by norm_num) _)
          exact_mod_cast hdenHigh.le
      _ = 2 ^ r.num.log2 := by
          rw [← hsum, ← zpow_natCast]
          congr 1
          ring
      _ ≤ r.num := hnumLow
  · rw [toRat, div_lt_iff₀ hdenPos]
    calc (r.num : ℚ) < 2 ^ (r.num.log2 + 1) := hnumHigh
      _ = 2 ^ ((r.num.log2 : Int) - r.den.log2 + 1) * 2 ^ (r.den.log2 : Int) := by
          rw [← hsum, ← zpow_natCast]
          congr 1
          push_cast
          ring
      _ ≤ 2 ^ ((r.num.log2 : Int) - r.den.log2 + 1) * r.den := by
          refine mul_le_mul_of_nonneg_left ?_ (zpow_nonneg (by norm_num) _)
          exact_mod_cast hdenLow

/-- **The exponent of a positive ratio is the binary logarithm of its value.** -/
theorem log2_eq_log (hnum : 0 < r.num) (hden : 0 < r.den) : r.log2 = Int.log 2 r.toRat := by
  obtain ⟨hlow, hhigh⟩ := toRat_bounds hnum hden
  have hcompare (k : Int) : (scale ⟨1, 1⟩ 2 k).num * r.den ≤ r.num * (scale ⟨1, 1⟩ 2 k).den ↔
      (2 : ℚ) ^ k ≤ r.toRat := by
    have hvalue := toRat_scale ⟨1, 1⟩ (two_ne_zero) k
    have hpower : (2 : ℚ) ^ k = (scale ⟨1, 1⟩ 2 k).num / (scale ⟨1, 1⟩ 2 k).den := by
      rw [toRat, toRat] at hvalue
      simpa using hvalue.symm
    have hpos : (0 : ℚ) < (scale ⟨1, 1⟩ 2 k).den :=
      Nat.cast_pos.mpr (@den_scale_pos ⟨1, 1⟩ one_pos 2 two_pos k)
    rw [hpower, toRat, div_le_div_iff₀ hpos (Nat.cast_pos.mpr hden)]
    exact_mod_cast Iff.rfl
  rw [log2]
  split
  · rename_i hle
    exact (log_eq_of_bounds ((hcompare _).mp hle) hhigh).symm
  · rename_i hlt
    refine (log_eq_of_bounds hlow ?_).symm
    rw [sub_add_cancel]
    exact not_le.mp fun hle => hlt ((hcompare _).mpr hle)

/-! ### The nearest natural number -/

/-- The natural number nearest to a nonnegative number, a tie going to the even one. -/
def roundEven (q : ℚ) : Nat :=
  if 1 / 2 < q - ⌊q⌋₊ ∨ (q - ⌊q⌋₊ = 1 / 2 ∧ ⌊q⌋₊ % 2 = 1) then ⌊q⌋₊ + 1 else ⌊q⌋₊

private theorem roundEven_natCast (n : Nat) : roundEven n = n := by
  have hzero : ¬ (1 / 2 < (0 : ℚ) ∨ (0 : ℚ) = 1 / 2 ∧ n % 2 = 1) := by norm_num
  rw [roundEven, Nat.floor_natCast, sub_self, if_neg hzero]

theorem nearest_eq_roundEven (hden : 0 < r.den) : r.nearest = roundEven r.toRat := by
  have hpos : (0 : ℚ) < r.den := Nat.cast_pos.mpr hden
  have hfloor : ⌊r.toRat⌋₊ = r.num / r.den := Nat.floor_div_eq_div r.num r.den
  have hrest : r.toRat - (r.num / r.den : Nat) = (r.num % r.den : Nat) / r.den := by
    have hsplit : (r.num : ℚ) = r.den * (r.num / r.den : Nat) + (r.num % r.den : Nat) := by
      exact_mod_cast (Nat.div_add_mod r.num r.den).symm
    rw [toRat, eq_div_iff hpos.ne', sub_mul, div_mul_cancel₀ _ hpos.ne', hsplit]
    ring
  have hover : 1 / 2 < r.toRat - (r.num / r.den : Nat) ↔ r.den < 2 * (r.num % r.den) := by
    rw [hrest, div_lt_div_iff₀ two_pos hpos, one_mul, mul_comm]
    exact_mod_cast Iff.rfl
  have htie : r.toRat - (r.num / r.den : Nat) = 1 / 2 ↔ 2 * (r.num % r.den) = r.den := by
    rw [hrest, div_eq_div_iff hpos.ne' two_ne_zero, one_mul, mul_comm]
    exact_mod_cast Iff.rfl
  rw [nearest, roundEven, hfloor]
  simp only [hover, htie]

end Ratio

namespace BinaryFormat

open Ratio (toRat)

variable (format : BinaryFormat)

/-- **Ratios of one value are rounded to one word.** -/
theorem word_congr {r other : Ratio} (hden : 0 < r.den) (hother : 0 < other.den)
    (h : r.toRat = other.toRat) : format.word r = format.word other := by
  unfold word
  by_cases hzero : r.num = 0
  · have hzero' : other.num = 0 := by
      rw [Ratio.num_eq_zero_iff hother, ← h, ← Ratio.num_eq_zero_iff hden, hzero]
    rw [if_pos hzero, if_pos hzero']
  · have hnonzero : other.num ≠ 0 := by
      rwa [Ne, Ratio.num_eq_zero_iff hother, ← h, ← Ratio.num_eq_zero_iff hden]
    have hlog : r.log2 = other.log2 := by
      rw [Ratio.log2_eq_log (Nat.pos_of_ne_zero hzero) hden,
        Ratio.log2_eq_log (Nat.pos_of_ne_zero hnonzero) hother, h]
    have hnearest (k : Int) : (r.scale 2 k).nearest = (other.scale 2 k).nearest := by
      rw [Ratio.nearest_eq_roundEven (Ratio.den_scale_pos hden two_pos k),
        Ratio.nearest_eq_roundEven (Ratio.den_scale_pos hother two_pos k),
        Ratio.toRat_scale r two_ne_zero, Ratio.toRat_scale other two_ne_zero, h]
    rw [if_neg hzero, if_neg hnonzero, hlog]
    dsimp only
    rw [hnearest]

/-! ### Words and their values -/

private theorem binade_pos : 0 < format.binade := Nat.pow_pos two_pos

theorem den_value_pos (word : Nat) : 0 < (format.value word).den := by
  unfold value
  dsimp only
  split
  all_goals exact Ratio.den_scale_pos one_pos two_pos _

/-- The significand and the exponent of a word. -/
theorem toRat_value (word : Nat) :
    (format.value word).toRat =
      if word / format.binade = 0 then (word % format.binade : Nat) * (2 : ℚ) ^ format.leastExponent
      else (word % format.binade + format.binade : Nat) *
        (2 : ℚ) ^ (format.leastExponent + (word / format.binade - 1 : Nat)) := by
  unfold value
  dsimp only
  split
  all_goals
    rw [Ratio.toRat_scale _ two_ne_zero, toRat]
    simp

theorem toRat_value_pos {word : Nat} (hword : 0 < word) : 0 < (format.value word).toRat := by
  rw [toRat_value]
  split
  · rename_i hfield
    have hsplit := Nat.div_add_mod word format.binade
    rw [hfield, mul_zero, zero_add] at hsplit
    rw [hsplit]
    exact mul_pos (Nat.cast_pos.mpr hword) (zpow_pos two_pos _)
  · have hsignificand : 0 < word % format.binade + format.binade :=
      Nat.add_pos_right _ format.binade_pos
    exact mul_pos (Nat.cast_pos.mpr hsignificand) (zpow_pos two_pos _)

/-- The word of a value on the grid of its exponent. -/
theorem word_of_grid {r : Ratio} (hden : 0 < r.den) {significand : Nat} (hpos : 0 < significand)
    {exponent : Int} (hvalue : r.toRat = significand * (2 : ℚ) ^ exponent)
    (hexponent : max (r.log2 - (format.precision - 1 : Nat)) format.leastExponent = exponent) :
    format.word r = min ((exponent - format.leastExponent).toNat * format.binade + significand)
      format.infinity := by
  have hnum : r.num ≠ 0 := by
    rw [Ne, Ratio.num_eq_zero_iff hden, hvalue]
    exact (mul_pos (Nat.cast_pos.mpr hpos) (zpow_pos two_pos exponent)).ne'
  have hsignificand : (r.scale 2 (-exponent)).nearest = significand := by
    rw [Ratio.nearest_eq_roundEven (Ratio.den_scale_pos hden two_pos _),
      Ratio.toRat_scale r two_ne_zero, hvalue, mul_assoc]
    have hcancel : (2 : ℚ) ^ exponent * ((2 : Nat) : ℚ) ^ (-exponent) = 1 := by
      rw [Nat.cast_ofNat, ← zpow_add₀ two_ne_zero, add_neg_cancel, zpow_zero]
    rw [hcancel, mul_one, Ratio.roundEven_natCast]
  unfold word
  rw [if_neg hnum]
  dsimp only
  rw [hexponent, hsignificand]

private theorem binade_eq : (format.binade : ℚ) = 2 ^ ((format.precision - 1 : Nat) : Int) := by
  rw [binade, Nat.pow_eq, Nat.cast_pow, zpow_natCast, Nat.cast_ofNat]

private theorem log2_value {word : Nat} (hword : 0 < word) :
    (format.value word).log2 = Int.log 2 (format.value word).toRat := by
  have hden := format.den_value_pos word
  have hnum : (format.value word).num ≠ 0 := by
    rw [Ne, Ratio.num_eq_zero_iff hden]
    exact (format.toRat_value_pos hword).ne'
  exact Ratio.log2_eq_log (Nat.pos_of_ne_zero hnum) hden

/-- A word of the lowest binade has a value below the powers of two with a full significand. -/
private theorem log2_value_lt {word : Nat} (hword : 0 < word) (lowest : word / format.binade = 0) :
    (format.value word).log2 < (format.precision - 1 : Nat) + format.leastExponent := by
  have hvalue := format.toRat_value word
  rw [if_pos lowest] at hvalue
  have hbelow : (format.value word).toRat <
      (2 : ℚ) ^ ((format.precision - 1 : Nat) + format.leastExponent) := by
    rw [hvalue, zpow_add₀ two_ne_zero, ← binade_eq]
    have hmod := Nat.mod_lt word format.binade_pos
    exact mul_lt_mul_of_pos_right (Nat.cast_lt.mpr hmod) (zpow_pos two_pos _)
  rw [log2_value format hword]
  exact (Int.lt_zpow_iff_log_lt (b := 2) one_lt_two (format.toRat_value_pos hword)).mp
    (by exact_mod_cast hbelow)

/-- The other binades have one exponent each. -/
private theorem log2_value_eq {word : Nat} (hfield : word / format.binade ≠ 0) :
    (format.value word).log2 = ((format.precision - 1 : Nat) : Int) +
      (format.leastExponent + (word / format.binade - 1 : Nat)) := by
  have hword : 0 < word := by
    refine Nat.pos_of_ne_zero fun hzero => hfield ?_
    rw [hzero, Nat.zero_div]
  have hvalue := format.toRat_value word
  rw [if_neg hfield] at hvalue
  rw [log2_value format hword]
  refine Ratio.log_eq_of_bounds ?_ ?_
  · rw [hvalue, zpow_add₀ two_ne_zero, ← binade_eq]
    refine mul_le_mul_of_nonneg_right ?_ (zpow_nonneg zero_le_two _)
    exact Nat.cast_le.mpr (Nat.le_add_left _ _)
  · have hmod := Nat.mod_lt word format.binade_pos
    have hdouble : word % format.binade + format.binade < format.binade * 2 := by omega
    rw [hvalue, add_right_comm, zpow_add₀ two_ne_zero _ (format.leastExponent + _),
      zpow_add_one₀ two_ne_zero, ← binade_eq]
    refine mul_lt_mul_of_pos_right ?_ (zpow_pos two_pos _)
    exact_mod_cast hdouble

/-- **The value of a finite word is rounded to the word.** -/
theorem word_value {word : Nat} (finite : word < format.infinity) :
    format.word (format.value word) = word := by
  have hden := format.den_value_pos word
  have hvalue := format.toRat_value word
  have hsplit := Nat.div_add_mod word format.binade
  by_cases hzero : word = 0
  · have hnum : (format.value word).num = 0 := by
      rw [Ratio.num_eq_zero_iff hden, hvalue, hzero]
      simp
    rw [BinaryFormat.word, if_pos hnum, hzero]
  by_cases hfield : word / format.binade = 0
  · -- A word of the lowest binade keeps the least exponent.
    have hlog := format.log2_value_lt (Nat.pos_of_ne_zero hzero) hfield
    rw [if_pos hfield] at hvalue
    rw [hfield, mul_zero, zero_add] at hsplit
    rw [format.word_of_grid hden (by omega) hvalue (by omega), sub_self, Int.toNat_zero, zero_mul,
      zero_add, hsplit]
    exact Nat.min_eq_left finite.le
  · have hlog := format.log2_value_eq hfield
    rw [if_neg hfield] at hvalue
    have hsignificand : 0 < word % format.binade + format.binade :=
      Nat.add_pos_right _ format.binade_pos
    have hoffset : (format.leastExponent + (word / format.binade - 1 : Nat) -
        format.leastExponent).toNat = word / format.binade - 1 := by omega
    have hsum : (word / format.binade - 1) * format.binade +
        (word % format.binade + format.binade) = word := by
      obtain ⟨field, hfield⟩ := Nat.exists_eq_succ_of_ne_zero hfield
      rw [hfield] at hsplit ⊢
      rw [Nat.succ_sub_one]
      rw [Nat.mul_succ, mul_comm] at hsplit
      omega
    rw [format.word_of_grid hden hsignificand hvalue (by omega), hoffset, hsum]
    exact Nat.min_eq_left finite.le

end BinaryFormat

end ShaderLink
