/-
Decimals and their spellings.

Zeros at the ends of digits do not count, so every decimal that is made is canonical:
it has none.  A canonical decimal that is written, in whatever layout, is read back as
it was; its value lies below the power of ten that its point tells and not below the
one before.
-/
import Mathlib.Data.List.TakeWhile
import Mathlib.Tactic.Ring
import ShaderLink.Proofs.Number.Rounding
import ShaderLink.Proofs.Number.Spelling

namespace ShaderLink

namespace Text

/-- Printed integers are read back. -/
theorem signed?_toString (i : Int) : signed? (toString i).toList = some i := by
  have hunsigned (n : Nat) : signed? (Nat.toDigits 10 n) = some (n : Int) := by
    have hdigit : ∀ c ∈ Nat.toDigits 10 n, c.isDigit = true :=
      fun c hc => Nat.isDigit_of_mem_toDigits (by omega) (by omega) hc
    have hnatural := natural?_toDigits n
    obtain ⟨c, rest, hcons⟩ := List.exists_cons_of_ne_nil (@Nat.toDigits_ne_nil n 10)
    rw [hcons] at hdigit hnatural ⊢
    have hc := hdigit c (List.mem_cons_self ..)
    unfold signed? unsigned?
    split
    · exact absurd hc (by simp_all)
    · split
      · exact absurd hc (by simp_all)
      · rw [hnatural]
        rfl
  rw [Int.toString_eq_repr, Int.repr_eq_if]
  split
  · rename_i hnonneg
    rw [Nat.repr_eq_ofList_toDigits, String.toList_ofList, hunsigned, Int.toNat_of_nonneg hnonneg]
  · rename_i hneg
    rw [String.toList_append, Nat.repr_eq_ofList_toDigits, String.toList_ofList,
      String.toList_ofList, List.cons_append, List.nil_append, signed?, natural?_toDigits]
    show some (-((-i).toNat : Int)) = some i
    rw [Int.toNat_of_nonneg (by omega), neg_neg]

end Text

namespace Decimal

open Ratio (toRat)

/-! ### Zeros at the ends -/

/-- A decimal as every one is made: of digits, with no zero at either end. -/
structure Canonical (d : Decimal) : Prop where
  spelled : d.Spelled
  first : d.digits.head? ≠ some '0'
  last : d.digits.getLast? ≠ some '0'
  point : d.digits = [] → d.point = 0

variable {core digits : List Char}

private theorem ofDigits_replicate (count : Nat) (point : Int) :
    ofDigits (List.replicate count '0') point = zero := by
  have hstrip : Text.stripEnds (· == '0') (List.replicate count '0') = [] := by
    simp [Text.stripEnds]
  rw [ofDigits, hstrip]

/-- Zeros before the digits move the point, and zeros behind them mean nothing. -/
private theorem ofDigits_zeros (nonempty : core ≠ []) (first : core.head? ≠ some '0')
    (last : core.getLast? ≠ some '0') (before behind : Nat) (point : Int) :
    ofDigits (List.replicate before '0' ++ core ++ List.replicate behind '0') point =
      ⟨core, point - before⟩ := by
  obtain ⟨c, rest, hfront⟩ := List.exists_cons_of_ne_nil nonempty
  obtain ⟨d, back, hback⟩ := List.exists_cons_of_ne_nil
    (List.reverse_ne_nil_iff.mpr nonempty)
  have hc : c ≠ '0' := by
    rintro rfl
    exact first (by rw [hfront]; rfl)
  have hd : d ≠ '0' := by
    rintro rfl
    exact last (by rw [← List.head?_reverse, hback]; rfl)
  have hleading : (List.replicate before '0' ++ core ++ List.replicate behind '0').takeWhile
      (· == '0') = List.replicate before '0' := by
    rw [List.append_assoc, List.takeWhile_append_of_pos (by simp), hfront, List.cons_append,
      List.takeWhile_cons_of_neg (by simpa using hc), List.append_nil]
  have hstrip : Text.stripEnds (· == '0')
      (List.replicate before '0' ++ core ++ List.replicate behind '0') = core := by
    rw [Text.stripEnds, List.append_assoc, List.dropWhile_append_of_pos (by simp), hfront,
      List.cons_append, List.dropWhile_cons_of_neg (by simpa using hc), ← List.cons_append,
      ← hfront, List.reverse_append, List.reverse_replicate, List.dropWhile_append_of_pos (by simp),
      hback, List.dropWhile_cons_of_neg (by simpa using hd), ← hback, List.reverse_reverse]
  rw [ofDigits, hleading, hstrip, List.length_replicate, hfront]

/-- Digits are zeros, digits without zeros at their ends, and zeros. -/
private theorem exists_core (digits : List Char) : ∃ (before behind : Nat) (core : List Char),
    digits = List.replicate before '0' ++ core ++ List.replicate behind '0' ∧
      core.head? ≠ some '0' ∧ core.getLast? ≠ some '0' := by
  have hzeros (text : List Char) : text.takeWhile (· == '0') =
      List.replicate (text.takeWhile (· == '0')).length '0' := by
    refine List.eq_replicate_of_mem ?_
    intro c hc
    simpa using List.mem_takeWhile_imp hc
  have hfirst (text : List Char) : (text.dropWhile (· == '0')).head? ≠ some '0' := by
    intro hhead
    have hnot := List.head?_dropWhile_not (· == '0') text
    rw [hhead] at hnot
    exact absurd hnot (by decide)
  generalize hrest : digits.dropWhile (· == '0') = rest
  have hsplit : rest = (rest.reverse.dropWhile (· == '0')).reverse ++
      List.replicate (rest.reverse.takeWhile (· == '0')).length '0' := by
    rw [← List.reverse_replicate, ← hzeros, ← List.reverse_append, List.takeWhile_append_dropWhile,
      List.reverse_reverse]
  refine ⟨(digits.takeWhile (· == '0')).length, (rest.reverse.takeWhile (· == '0')).length,
    (rest.reverse.dropWhile (· == '0')).reverse, ?_, ?_, ?_⟩
  · rw [List.append_assoc, ← hsplit, ← hzeros, ← hrest, List.takeWhile_append_dropWhile]
  · intro hhead
    refine hfirst digits ?_
    rw [hrest, hsplit, List.head?_append, hhead]
    rfl
  · rw [List.getLast?_reverse]
    exact hfirst _

theorem canonical_zero : zero.Canonical :=
  ⟨spelled_zero, by simp [zero], by simp [zero], fun _ => rfl⟩

private theorem canonical_ofDigits (h : ∀ c ∈ digits, c.isDigit = true) (point : Int) :
    (ofDigits digits point).Canonical := by
  obtain ⟨before, behind, core, hdigits, hfirst, hlast⟩ := exists_core digits
  by_cases hcore : core = []
  · rw [hdigits, hcore, List.append_nil, List.replicate_append_replicate, ofDigits_replicate]
    exact canonical_zero
  · rw [hdigits, ofDigits_zeros hcore hfirst hlast]
    refine ⟨?_, hfirst, hlast, fun hnil => absurd hnil hcore⟩
    intro c hc
    refine h c ?_
    rw [hdigits]
    exact List.mem_append_left _ (List.mem_append_right _ hc)

theorem canonical_ofNat (n : Nat) (exponent : Int) : (ofNat n exponent).Canonical :=
  canonical_ofDigits (fun _ hc => Nat.isDigit_of_mem_toDigits (by omega) (by omega) hc) _

variable {d : Decimal}

private theorem Canonical.ofDigits (h : d.Canonical) (before behind : Nat) (point : Int)
    (hpoint : d.digits ≠ [] → point = d.point + before) :
    Decimal.ofDigits (List.replicate before '0' ++ d.digits ++ List.replicate behind '0') point =
      d := by
  by_cases hdigits : d.digits = []
  · rw [hdigits, List.append_nil, List.replicate_append_replicate, ofDigits_replicate]
    have hpoint := h.point hdigits
    cases d with
    | mk digits point =>
        cases hdigits
        cases hpoint
        rfl
  · rw [ofDigits_zeros hdigits h.first h.last, hpoint hdigits, Int.add_sub_cancel]

/-! ### Values -/

theorem toRat_value (d : Decimal) :
    d.value.toRat = (Nat.ofDigitChars 10 d.digits 0 : ℚ) * 10 ^ (d.point - d.digits.length) := by
  rw [value, Ratio.toRat_scale _ (by omega), toRat]
  simp

private theorem ofDigitChars_zeros (count start : Nat) :
    Nat.ofDigitChars 10 (List.replicate count '0') start = 10 ^ count * start := by
  induction count generalizing start with
  | zero => simp
  | succ count ih =>
      rw [List.replicate_succ, Nat.ofDigitChars_cons, ih, pow_succ, mul_assoc]
      rfl

/-- Taking away zeros at the ends leaves the value as it is. -/
theorem toRat_ofDigits (digits : List Char) (point : Int) :
    (ofDigits digits point).value.toRat =
      (Nat.ofDigitChars 10 digits 0 : ℚ) * 10 ^ (point - digits.length) := by
  obtain ⟨before, behind, core, hdigits, hfirst, hlast⟩ := exists_core digits
  have hvalue : Nat.ofDigitChars 10 digits 0 = 10 ^ behind * Nat.ofDigitChars 10 core 0 := by
    rw [hdigits, Nat.ofDigitChars_append, Nat.ofDigitChars_append, ofDigitChars_zeros,
      ofDigitChars_zeros, mul_zero]
  rw [hvalue]
  by_cases hcore : core = []
  · rw [hdigits, hcore, List.append_nil, List.replicate_append_replicate, ofDigits_replicate,
      toRat_value]
    simp [zero]
  · have hlength : (digits.length : Int) = before + core.length + behind := by
      rw [hdigits, List.length_append, List.length_append, List.length_replicate,
        List.length_replicate]
      push_cast
      ring
    have hshift : (10 : ℚ) ^ (point - before - core.length) =
        10 ^ behind * 10 ^ (point - digits.length) := by
      rw [← zpow_natCast, ← zpow_add₀ (by norm_num), hlength]
      congr 1
      ring
    rw [hdigits, ofDigits_zeros hcore hfirst hlast, ← hdigits, toRat_value]
    dsimp only
    rw [hshift]
    push_cast
    ring

theorem toRat_ofNat (n : Nat) (exponent : Int) :
    (ofNat n exponent).value.toRat = (n : ℚ) * 10 ^ exponent := by
  rw [ofNat, toRat_ofDigits, Nat.ofDigitChars_toDigits (by omega) (by omega), add_sub_cancel_right]

private theorem ofDigitChars_lt (h : ∀ c ∈ digits, c.isDigit = true) :
    Nat.ofDigitChars 10 digits 0 < 10 ^ digits.length := by
  induction digits with
  | nil => simp
  | cons c rest ih =>
      have hrest := ih fun d hd => h d (List.mem_cons_of_mem _ hd)
      have hc := (Char.isDigit_iff_toNat.mp (h c (List.mem_cons_self ..))).2
      have hzero : '0'.toNat = 48 := rfl
      have hnine : '9'.toNat = 57 := rfl
      have hdigit : c.toNat - '0'.toNat ≤ 9 := by omega
      have hpower := Nat.mul_le_mul_left (10 ^ rest.length) hdigit
      rw [Nat.ofDigitChars_cons, Nat.ofDigitChars_eq_ofDigitChars_zero, List.length_cons, pow_succ,
        mul_zero, zero_add]
      omega

private theorem le_ofDigitChars (h : ∀ c ∈ digits, c.isDigit = true) (nonempty : digits ≠ [])
    (first : digits.head? ≠ some '0') :
    10 ^ (digits.length - 1) ≤ Nat.ofDigitChars 10 digits 0 := by
  obtain ⟨c, rest, rfl⟩ := List.exists_cons_of_ne_nil nonempty
  have hc := (Char.isDigit_iff_toNat.mp (h c (List.mem_cons_self ..))).1
  have hzero : '0'.toNat = 48 := rfl
  have hne : c.toNat ≠ '0'.toNat := fun heq => first (congrArg some (Char.toNat_inj.mp heq))
  have hdigit : 1 ≤ c.toNat - '0'.toNat := by omega
  have hpower := Nat.mul_le_mul_left (10 ^ rest.length) hdigit
  rw [Nat.ofDigitChars_cons, Nat.ofDigitChars_eq_ofDigitChars_zero, List.length_cons,
    Nat.add_sub_cancel, mul_zero, zero_add]
  omega

/-- **The point tells the power of ten that the value lies below, but not below the one before.** -/
theorem Canonical.bounds (h : d.Canonical) (nonempty : d.digits ≠ []) :
    (10 : ℚ) ^ (d.point - 1) ≤ d.value.toRat ∧ d.value.toRat < 10 ^ d.point := by
  have hlow := le_ofDigitChars h.spelled nonempty h.first
  have hhigh := ofDigitChars_lt h.spelled
  have hlength := List.length_pos_iff.mpr nonempty
  rw [toRat_value]
  constructor
  · have hpower : (10 : ℚ) ^ (d.point - 1) =
        10 ^ (d.digits.length - 1) * 10 ^ (d.point - d.digits.length) := by
      rw [← zpow_natCast, ← zpow_add₀ (by norm_num)]
      congr 1
      omega
    rw [hpower]
    refine mul_le_mul_of_nonneg_right ?_ (zpow_nonneg (by norm_num) _)
    exact_mod_cast hlow
  · have hpower : (10 : ℚ) ^ d.point = 10 ^ d.digits.length * 10 ^ (d.point - d.digits.length) := by
      rw [← zpow_natCast, ← zpow_add₀ (by norm_num)]
      congr 1
      omega
    rw [hpower]
    refine mul_lt_mul_of_pos_right ?_ (zpow_pos (by norm_num) _)
    exact_mod_cast hhigh

/-! ### Reading what was written -/

/-- Digits, a point, digits and an exponent or none are read as these digits. -/
private theorem read?_point {whole fraction rest : List Char} {e : Int}
    (hwhole : ∀ c ∈ whole, c.isDigit = true) (hfraction : ∀ c ∈ fraction, c.isDigit = true)
    (nonempty : whole ≠ []) (hrest : rest.takeWhile Char.isDigit = [])
    (hexponent : exponent? rest = some e) :
    read? (whole ++ '.' :: (fraction ++ rest)) =
      some (ofDigits (whole ++ fraction) (whole.length + e)) := by
  have hpoint : ¬ (Char.isDigit '.' = true) := by decide
  have htake : (whole ++ '.' :: (fraction ++ rest)).takeWhile Char.isDigit = whole := by
    rw [List.takeWhile_append_of_pos hwhole, List.takeWhile_cons_of_neg hpoint, List.append_nil]
  have hdrop : (whole ++ '.' :: (fraction ++ rest)).dropWhile Char.isDigit =
      '.' :: (fraction ++ rest) := by
    rw [List.dropWhile_append_of_pos hwhole, List.dropWhile_cons_of_neg hpoint]
  have hdropRest : rest.dropWhile Char.isDigit = rest := by
    have hboth := List.takeWhile_append_dropWhile (p := Char.isDigit) (l := rest)
    rwa [hrest, List.nil_append] at hboth
  unfold read?
  simp only [htake, hdrop, List.head?_cons, List.drop_succ_cons, List.drop_zero, beq_self_eq_true,
    if_true, List.takeWhile_append_of_pos hfraction, List.dropWhile_append_of_pos hfraction, hrest,
    hdropRest, List.append_nil, nonempty, false_and, if_false, hexponent, Option.map_some]

/-- Digits and an exponent are read as these digits. -/
private theorem read?_whole {whole rest : List Char} {e : Int}
    (hwhole : ∀ c ∈ whole, c.isDigit = true) (nonempty : whole ≠ [])
    (hrest : rest.takeWhile Char.isDigit = []) (hpoint : rest.head? ≠ some '.')
    (hexponent : exponent? rest = some e) :
    read? (whole ++ rest) = some (ofDigits whole (whole.length + e)) := by
  have hdropRest : rest.dropWhile Char.isDigit = rest := by
    have hboth := List.takeWhile_append_dropWhile (p := Char.isDigit) (l := rest)
    rwa [hrest, List.nil_append] at hboth
  have hhead : (rest.head? == some '.') = false := by simpa using hpoint
  unfold read?
  simp only [List.takeWhile_append_of_pos hwhole, List.dropWhile_append_of_pos hwhole, hrest,
    hdropRest, hhead, List.append_nil, nonempty, false_and, if_false, Bool.false_eq_true,
    hexponent, Option.map_some]

private theorem read?_plain (h : d.Canonical) : read? d.plain = some d := by
  obtain ⟨whole, fraction, before, behind, hplain, nonempty, hall, hlength⟩ := exists_plain d
  have hdigits := h.spelled.padded before behind
  rw [← hall] at hdigits
  have hread := @read?_point whole fraction [] 0 (fun c hc => hdigits c (List.mem_append_left _ hc))
    (fun c hc => hdigits c (List.mem_append_right _ hc)) nonempty rfl rfl
  rw [List.append_nil] at hread
  rw [hplain, hread, hall, add_zero, h.ofDigits before behind _ fun _ => hlength]

private theorem read?_scientific (h : d.Canonical) (nonempty : d.digits ≠ []) :
    read? d.scientific = some d := by
  obtain ⟨first, fraction, hdigits, hscientific⟩ := exists_scientific nonempty
  obtain ⟨hdigit, hfraction⟩ := h.spelled.cons hdigits
  have hfirst : ∀ c ∈ [first], c.isDigit = true := List.forall_mem_singleton.mpr hdigit
  have hexponent : exponent? ('e' :: (toString (d.point - 1)).toList) = some (d.point - 1) :=
    Text.signed?_toString _
  have hall : Decimal.ofDigits ([first] ++ fraction) (([first].length : Int) + (d.point - 1)) =
      d := by
    have hsame := h.ofDigits 0 0 d.point (fun _ => by simp)
    rw [List.replicate_zero, List.nil_append, List.append_nil, hdigits] at hsame
    rw [List.length_singleton, Nat.cast_one, add_sub_cancel]
    exact hsame
  rcases hscientific with ⟨hnil, hwrite⟩ | hwrite <;> rw [hwrite]
  · rw [hnil, List.append_nil] at hall
    rw [read?_whole hfirst (List.cons_ne_nil first []) (by simp) (by simp) hexponent, hall]
  · rw [read?_point hfirst hfraction (List.cons_ne_nil first []) (by simp) hexponent, hall]

/-- **A decimal that is written is read back.** -/
theorem read?_write (h : d.Canonical) (layout : Layout) : read? (d.write layout) = some d := by
  unfold write
  split
  · exact read?_plain h
  · rename_i hlayout
    exact read?_scientific h fun hnil => hlayout (.inl hnil)

end Decimal

end ShaderLink
