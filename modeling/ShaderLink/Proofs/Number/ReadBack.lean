/-
Printed numbers are read back.

The decimal that is printed for a word is read as this word: a candidate is taken only
when it is, and the exact decimal has the value of the word itself, which rounding
returns.  So the text of a finite number is read as this number, and no two finite
numbers have one text.
-/
import ShaderLink.Proofs.Number.Decimal

namespace ShaderLink

namespace BinaryFormat

/-- The denominator of a word's value is a power of two. -/
private theorem den_value_eq (format : BinaryFormat) (word : Nat) :
    (format.value word).den = 2 ^ (format.value word).den.log2 := by
  have hscale (n : Nat) (exponent : Int) :
      ((⟨n, 1⟩ : Ratio).scale 2 exponent).den =
        2 ^ ((⟨n, 1⟩ : Ratio).scale 2 exponent).den.log2 := by
    unfold Ratio.scale
    split
    · rfl
    · rw [one_mul, Nat.pow_eq, Nat.log2_two_pow]
  unfold value
  dsimp only
  split
  all_goals exact hscale _ _

private theorem single_bounds {word : Nat} (hword : 0 < word) (finite : word < single.infinity) :
    (2 : ℚ) ^ (-149 : Int) ≤ (single.value word).toRat ∧
      (single.value word).toRat < 2 ^ (128 : Int) := by
  have hbinade : single.binade = 8388608 := rfl
  have hleast : single.leastExponent = -149 := rfl
  have hinfinity : single.infinity = 2139095040 := rfl
  rw [hinfinity] at finite
  rw [toRat_value, hbinade, hleast]
  split
  · rename_i hfield
    have hfraction : 1 ≤ word % 8388608 := by omega
    have hbelow : word % 8388608 < 8388608 := Nat.mod_lt _ (by omega)
    constructor
    · exact le_mul_of_one_le_left (zpow_nonneg (by norm_num) _) (by exact_mod_cast hfraction)
    · calc ((word % 8388608 : Nat) : ℚ) * 2 ^ (-149 : Int) ≤ 8388608 * 2 ^ (-149 : Int) := by
            refine mul_le_mul_of_nonneg_right ?_ (zpow_nonneg (by norm_num) _)
            exact_mod_cast hbelow.le
        _ < 2 ^ (128 : Int) := by norm_num
  · rename_i hfield
    have hlow : 8388608 ≤ word % 8388608 + 8388608 := Nat.le_add_left _ _
    have hhigh : word % 8388608 + 8388608 < 16777216 := by omega
    have hexponent : (word / 8388608 - 1 : Nat) ≤ 253 := by omega
    constructor
    · calc (2 : ℚ) ^ (-149 : Int) ≤ 2 ^ (-149 + ((word / 8388608 - 1 : Nat) : Int)) :=
            zpow_le_zpow_right₀ (by norm_num) (by omega)
        _ ≤ _ := by
            refine le_mul_of_one_le_left (zpow_nonneg (by norm_num) _) ?_
            exact_mod_cast (by omega : 1 ≤ word % 8388608 + 8388608)
    · calc ((word % 8388608 + 8388608 : Nat) : ℚ) *
              2 ^ (-149 + ((word / 8388608 - 1 : Nat) : Int))
          < 16777216 * 2 ^ (-149 + ((word / 8388608 - 1 : Nat) : Int)) := by
            refine mul_lt_mul_of_pos_right ?_ (zpow_pos (by norm_num) _)
            exact_mod_cast hhigh
        _ ≤ 16777216 * 2 ^ (104 : Int) := by
            refine mul_le_mul_of_nonneg_left ?_ (by norm_num)
            exact zpow_le_zpow_right₀ (by norm_num) (by omega)
        _ = 2 ^ (128 : Int) := by norm_num

end BinaryFormat

namespace Decimal

/-- A canonical decimal is written with digits in front, one at least, and the first character that
is none is its only point or, when it has no point, the letter of the exponent. -/
private theorem exists_write {d : Decimal} (h : d.Canonical) (layout : Layout) :
    ∃ whole mark rest, d.write layout = whole ++ mark :: rest ∧ whole ≠ [] ∧
      (∀ c ∈ whole, c.isDigit = true) ∧ (mark = '.' ∨ mark = 'e') ∧ '.' ∉ rest := by
  have hpoint {part : List Char} (hpart : ∀ c ∈ part, c.isDigit = true) : '.' ∉ part :=
    fun hmem => absurd (hpart '.' hmem) (by decide)
  unfold write
  split
  · obtain ⟨whole, fraction, before, behind, hplain, nonempty, hall, -⟩ := exists_plain d
    have hdigits := h.spelled.padded before behind
    rw [← hall] at hdigits
    exact ⟨whole, '.', fraction, hplain, nonempty,
      fun c hc => hdigits c (List.mem_append_left _ hc), .inl rfl,
      hpoint fun c hc => hdigits c (List.mem_append_right _ hc)⟩
  · rename_i hlayout
    obtain ⟨first, fraction, hdigits, hscientific⟩ :=
      exists_scientific fun hnil => hlayout (.inl hnil)
    obtain ⟨hdigit, hfraction⟩ := h.spelled.cons hdigits
    have hfirst : ∀ c ∈ [first], c.isDigit = true := List.forall_mem_singleton.mpr hdigit
    have hexponent : '.' ∉ (toString (d.point - 1)).toList := by
      intro hmem
      rcases Text.mem_int_cases hmem with hminus | hdigit
      · exact absurd hminus (by decide)
      · exact absurd hdigit (by decide)
    rcases hscientific with ⟨-, hwrite⟩ | hwrite
    · exact ⟨[first], 'e', _, hwrite, List.cons_ne_nil _ _, hfirst, .inr rfl, hexponent⟩
    · refine ⟨[first], '.', _, hwrite, List.cons_ne_nil _ _, hfirst, .inl rfl, ?_⟩
      intro hmem
      rcases List.mem_append.mp hmem with hmem | hmem
      · exact hpoint hfraction hmem
      · rcases List.mem_cons.mp hmem with hletter | hmem
        · exact absurd hletter (by decide)
        · exact hexponent hmem

end Decimal

namespace Binary32

open BinaryFormat (single)

private theorem toRat_exactDecimal (word : Nat) :
    (exactDecimal word).value.toRat = (single.value word).toRat := by
  have hden := single.den_value_eq word
  unfold exactDecimal
  dsimp only
  generalize (single.value word).den.log2 = places at hden
  rw [Decimal.toRat_ofNat, Ratio.toRat, hden]
  have hten : (10 : ℚ) ^ (-(places : Int)) = (5 ^ places * 2 ^ places)⁻¹ := by
    rw [zpow_neg, zpow_natCast, ← mul_pow]
    norm_num
  have hfive : (5 : ℚ) ^ places ≠ 0 := pow_ne_zero _ (by norm_num)
  rw [hten]
  push_cast [Nat.pow_eq]
  rw [mul_inv, mul_assoc, mul_inv_cancel_left₀ hfive, div_eq_mul_inv]

/-- The exact decimal of a finite word is read as the word. -/
theorem wordOfDecimal_exactDecimal {word : Nat} (hword : 0 < word)
    (finite : word < single.infinity) : wordOfDecimal (exactDecimal word) = word := by
  have hcanonical : (exactDecimal word).Canonical := Decimal.canonical_ofNat _ _
  have hvalue := toRat_exactDecimal word
  obtain ⟨hlow, hhigh⟩ := BinaryFormat.single_bounds hword finite
  have hpositive := single.toRat_value_pos hword
  rw [← hvalue] at hlow hhigh hpositive
  have hdigits : (exactDecimal word).digits ≠ [] := by
    intro hnil
    rw [Decimal.toRat_value, hnil] at hpositive
    simp at hpositive
  obtain ⟨hfloor, hceiling⟩ := hcanonical.bounds hdigits
  have hunder : ¬ (exactDecimal word).point ≤ underflowPoint := by
    intro hpoint
    have hpower : (10 : ℚ) ^ (exactDecimal word).point ≤ 10 ^ (-46 : Int) :=
      zpow_le_zpow_right₀ (by norm_num) hpoint
    have htiny : (10 : ℚ) ^ (-46 : Int) < 2 ^ (-149 : Int) := by norm_num
    exact absurd (hlow.trans_lt (hceiling.trans_le hpower)) htiny.le.not_gt
  have hover : ¬ overflowPoint ≤ (exactDecimal word).point := by
    intro hpoint
    have hless : (39 : Int) ≤ (exactDecimal word).point - 1 := by
      have hforty : overflowPoint = 40 := rfl
      omega
    have hpower : (10 : ℚ) ^ (39 : Int) ≤ 10 ^ ((exactDecimal word).point - 1) :=
      zpow_le_zpow_right₀ (by norm_num) hless
    have hhuge : (2 : ℚ) ^ (128 : Int) < 10 ^ (39 : Int) := by norm_num
    exact absurd (hpower.trans (hfloor.trans hhigh.le)) hhuge.not_ge
  have hden : 0 < (exactDecimal word).value.den :=
    Ratio.den_scale_pos one_pos (by norm_num) _
  rw [wordOfDecimal, if_neg (not_or.mpr ⟨hdigits, hunder⟩), if_neg hover,
    single.word_congr hden (single.den_value_pos word) hvalue, single.word_value finite]

private theorem canonical_shortest (word : Nat) : (shortest word).Canonical := by
  rcases shortest_cases word with hzero | ⟨n, exponent, hnat⟩
  · rw [hzero]
    exact Decimal.canonical_zero
  · rw [hnat]
    exact Decimal.canonical_ofNat n exponent

/-- **The shortest decimal of a finite word is read as the word.** -/
theorem wordOfDecimal_shortest {word : Nat} (finite : word < single.infinity) :
    wordOfDecimal (shortest word) = word := by
  unfold shortest
  split
  · rename_i hzero
    rw [hzero]
    rfl
  · rename_i hzero
    dsimp only
    cases hfound : (List.range 9).findSome? _ with
    | none => exact wordOfDecimal_exactDecimal (Nat.pos_of_ne_zero hzero) finite
    | some d =>
        obtain ⟨i, -, hhit⟩ := List.exists_of_findSome?_eq_some hfound
        simpa using List.find?_some hhit

/-- The bits of a number are its sign and its magnitude. -/
theorem ofWord_magnitude (x : Binary32) : ofWord x.isNegative x.magnitude = x := by
  obtain ⟨bits⟩ := x
  have hbits := bits.toNat_lt
  have hword : (if isNegative ⟨bits⟩ then 0x80000000 + magnitude ⟨bits⟩ else magnitude ⟨bits⟩) =
      bits.toNat := by
    unfold isNegative magnitude
    dsimp only
    split
    · rename_i hnegative
      have hle := of_decide_eq_true hnegative
      omega
    · rename_i hnegative
      have hlt : ¬ 0x80000000 ≤ bits.toNat := fun hle => hnegative (decide_eq_true hle)
      omega
  rw [ofWord, hword, UInt32.ofNat_toNat]

/-- A text that begins with a digit spells no word, so it is read as a decimal. -/
private theorem readMagnitude?_of_digit (negative : Bool) {c : Char} (hc : c.isDigit = true)
    (rest : List Char) :
    readMagnitude? negative (c :: rest) = (Decimal.read? (c :: rest)).map (ofDecimal negative) := by
  have hlower : c.toLower.isDigit = true := by
    have hbounds := Char.isDigit_iff_toNat.mp hc
    have hnot : ¬ (c.val ≥ 'A'.val ∧ c.val ≤ 'Z'.val) := by
      intro hupper
      have hge : 65 ≤ c.toNat := UInt32.le_iff_toNat_le.mp hupper.1
      have hnine : '9'.toNat = 57 := rfl
      omega
    have hsame : c.toLower = c := by
      unfold Char.toLower
      rw [dif_neg hnot]
    rwa [hsame]
  have hword (first : Char) (more : List Char) (hfirst : first.isDigit = false) :
      (c :: rest).map Char.toLower ≠ first :: more := by
    intro heq
    rw [List.map_cons, List.cons.injEq] at heq
    rw [heq.1, hfirst] at hlower
    exact absurd hlower (by simp)
  have hinf : "inf".toList = ['i', 'n', 'f'] := rfl
  have hinfinity : "infinity".toList = 'i' :: "nfinity".toList := rfl
  have hnan : "nan".toList = ['n', 'a', 'n'] := rfl
  unfold readMagnitude?
  dsimp only
  rw [hinf, hinfinity, hnan, if_neg (not_or.mpr ⟨hword _ _ rfl, hword _ _ rfl⟩),
    if_neg (hword _ _ rfl)]

/-- **The text of a finite number is read as the number.** -/
theorem read?_toText {x : Binary32} (finite : x.isFinite = true) : read? x.toText = some x := by
  have hlt : x.magnitude < single.infinity := of_decide_eq_true finite
  have hcanonical := canonical_shortest x.magnitude
  obtain ⟨whole, mark, more, hwrite, hwhole, hdigits, -, -⟩ :=
    Decimal.exists_write hcanonical layout
  obtain ⟨c, whole, rfl⟩ := List.exists_cons_of_ne_nil hwhole
  have hc := hdigits c (List.mem_cons_self ..)
  rw [List.cons_append] at hwrite
  generalize whole ++ mark :: more = rest at hwrite
  have hmagnitude (negative : Bool) : readMagnitude? negative (c :: rest) =
      some (ofWord negative x.magnitude) := by
    rw [readMagnitude?_of_digit negative hc, ← hwrite, Decimal.read?_write hcanonical,
      Option.map_some, ofDecimal, wordOfDecimal_shortest hlt]
  have hnumber := ofWord_magnitude x
  rw [toText_of_finite finite, hwrite, read?, String.toList_ofList]
  cases hnegative : x.isNegative with
  | true =>
      rw [hnegative] at hnumber
      rw [← hnumber]
      exact hmagnitude true
  | false =>
      rw [hnegative] at hnumber
      rw [if_neg (by simp), List.nil_append]
      split
      · rename_i more heq
        rw [(List.cons.inj heq).1] at hc
        exact absurd hc (by decide)
      · rename_i more heq
        rw [(List.cons.inj heq).1] at hc
        exact absurd hc (by decide)
      · rw [hmagnitude false, hnumber]

/-- The first character of a finite number's text that is neither a sign nor a digit is its only
point or, when it has no point, the letter of the exponent. -/
theorem exists_toText {x : Binary32} (finite : x.isFinite = true) :
    ∃ whole mark rest, x.toText.toList = whole ++ mark :: rest ∧
      (∀ c ∈ whole, c = '-' ∨ c.isDigit = true) ∧ (mark = '.' ∨ mark = 'e') ∧ '.' ∉ rest := by
  obtain ⟨whole, mark, rest, hwrite, -, hdigits, hmark, hrest⟩ :=
    Decimal.exists_write (canonical_shortest x.magnitude) layout
  refine ⟨(if x.isNegative then ['-'] else []) ++ whole, mark, rest, ?_, ?_, hmark, hrest⟩
  · rw [toText_of_finite finite, String.toList_ofList, hwrite, List.append_assoc]
  · intro c hc
    rcases List.mem_append.mp hc with hsign | hc
    · split at hsign
      · exact .inl (List.mem_singleton.mp hsign)
      · exact absurd hsign List.not_mem_nil
    · exact .inr (hdigits c hc)

/-- No two finite numbers have one text. -/
theorem toText_injective {x y : Binary32} (hx : x.isFinite = true) (hy : y.isFinite = true)
    (h : x.toText = y.toText) : x = y := by
  have hread := read?_toText hx
  rw [h, read?_toText hy] at hread
  exact (Option.some.inj hread).symm

end Binary32

end ShaderLink
