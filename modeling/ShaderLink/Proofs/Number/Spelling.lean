/-
The characters that numbers are spelled with.

Integers and finite numbers are written in digits, points, minus signs and the letter
of an exponent.  A number that is not finite is written as a word, so in any case a
spelling consists of word characters, points and minus signs: it holds no blank, and
with the points and signs replaced it can stand in a name.
-/
import ShaderLink.Number.Shortest
import ShaderLink.Text.WordChar

namespace ShaderLink

/-- A character that may stand in the spelling of a finite number. -/
def Text.isNumeralChar (c : Char) : Bool := c.isDigit || c == '.' || c == '-' || c == 'e'

/-- A character that may stand in the spelling of a number. -/
def Text.isNumberChar (c : Char) : Bool := isPlainWordChar c || c == '.' || c == '-'

namespace Text

theorem isNumeralChar_of_isDigit {c : Char} (h : c.isDigit = true) : isNumeralChar c = true := by
  simp [isNumeralChar, h]

theorem isNumberChar_of_isNumeralChar {c : Char} (h : isNumeralChar c = true) :
    isNumberChar c = true := by
  simp only [isNumeralChar, Bool.or_eq_true, beq_iff_eq] at h
  rcases h with ((hdigit | rfl) | rfl) | rfl
  · simp [isNumberChar, isPlainWordChar_of_isDigit hdigit]
  · rfl
  · rfl
  · rfl

theorem isDigit_of_mem_nat {n : Nat} {c : Char} (hc : c ∈ (toString n).toList) :
    c.isDigit = true := by
  rw [Nat.toString_eq_ofList_toDigits, String.toList_ofList] at hc
  exact Nat.isDigit_of_mem_toDigits (by omega) (by omega) hc

/-- An integer is written in digits behind a minus sign or none. -/
theorem mem_int_cases {i : Int} {c : Char} (hc : c ∈ (toString i).toList) :
    c = '-' ∨ c.isDigit = true := by
  rw [Int.toString_eq_repr, Int.repr_eq_if] at hc
  split at hc
  · exact .inr (isDigit_of_mem_nat hc)
  · rw [String.toList_append] at hc
    rcases List.mem_append.mp hc with hsign | hdigits
    · exact .inl (List.mem_singleton.mp hsign)
    · exact .inr (isDigit_of_mem_nat hdigits)

theorem isNumeralChar_of_mem_int {i : Int} {c : Char} (hc : c ∈ (toString i).toList) :
    isNumeralChar c = true := by
  rcases mem_int_cases hc with rfl | hdigit
  · rfl
  · exact isNumeralChar_of_isDigit hdigit

end Text

namespace Decimal

/-- The digits of the decimal are digits. -/
def Spelled (d : Decimal) : Prop := ∀ c ∈ d.digits, c.isDigit = true

theorem spelled_zero : zero.Spelled := by
  intro c hc
  exact absurd hc (List.not_mem_nil)

private theorem mem_of_mem_stripEnds {outer : Char → Bool} {text : List Char} {c : Char}
    (hc : c ∈ Text.stripEnds outer text) : c ∈ text := by
  unfold Text.stripEnds at hc
  have hback := (List.dropWhile_sublist outer).subset (List.mem_reverse.mp hc)
  exact (List.dropWhile_sublist outer).subset (List.mem_reverse.mp hback)

private theorem spelled_ofNat (n : Nat) (exponent : Int) : (ofNat n exponent).Spelled := by
  intro c hc
  unfold ofNat ofDigits at hc
  dsimp only at hc
  split at hc
  · exact absurd hc (List.not_mem_nil)
  · exact Nat.isDigit_of_mem_toDigits (by omega) (by omega) (mem_of_mem_stripEnds hc)

private theorem isDigit_of_mem_zeros {count : Nat} {c : Char} (hc : c ∈ List.replicate count '0') :
    c.isDigit = true := by
  rw [(List.mem_replicate.mp hc).2]
  rfl

/-- A decimal without an exponent is its digits with zeros at either end, a point between two of
them, and the point stands where the decimal has it. -/
theorem exists_plain (d : Decimal) : ∃ (whole fraction : List Char) (before behind : Nat),
    d.plain = whole ++ '.' :: fraction ∧ whole ≠ [] ∧
      whole ++ fraction = List.replicate before '0' ++ d.digits ++ List.replicate behind '0' ∧
        (whole.length : Int) = d.point + before := by
  -- The part behind the point is the digits there, or the zero that stands for none.
  have hpart (part : List Char) : ∃ behind, (if part = [] then ['0'] else part) =
      part ++ List.replicate behind '0' := by
    by_cases hpart : part = []
    · exact ⟨1, by rw [if_pos hpart, hpart]; rfl⟩
    · exact ⟨0, by rw [if_neg hpart, List.replicate_zero, List.append_nil]⟩
  unfold plain
  dsimp only
  split
  · rename_i hpoint
    obtain ⟨behind, hbehind⟩ := hpart d.digits
    refine ⟨['0'], List.replicate (-d.point).toNat '0' ++ (d.digits ++ List.replicate behind '0'),
      1 + (-d.point).toNat, behind, ?_, List.cons_ne_nil _ _, ?_, ?_⟩
    · rw [hbehind]
      rfl
    · rw [← List.append_assoc, ← List.append_assoc, ← List.replicate_one,
        List.replicate_append_replicate]
    · rw [List.length_singleton]
      omega
  · rename_i hpoint
    generalize hwidth : d.point.toNat = width
    obtain ⟨behind, hbehind⟩ := hpart (d.digits.drop width)
    have hlength : (d.digits.take width ++
        List.replicate (width - (d.digits.take width).length) '0').length = width := by
      rw [List.length_append, List.length_replicate, List.length_take]
      omega
    -- The zeros that fill up the whole part stand behind all digits.
    have hall : ∃ zeros, d.digits.take width ++
        List.replicate (width - (d.digits.take width).length) '0' ++ (d.digits.drop width ++
          List.replicate behind '0') = d.digits ++ List.replicate zeros '0' := by
      rcases Nat.le_total width d.digits.length with hle | hle
      · refine ⟨behind, ?_⟩
        rw [List.length_take, Nat.min_eq_left hle, Nat.sub_self, List.replicate_zero,
          List.append_nil, ← List.append_assoc, List.take_append_drop]
      · refine ⟨width - d.digits.length + behind, ?_⟩
        rw [List.take_of_length_le hle, List.drop_eq_nil_of_le hle, List.nil_append,
          List.append_assoc, List.replicate_append_replicate]
    obtain ⟨zeros, hzeros⟩ := hall
    refine ⟨_, _, 0, zeros, rfl, ?_, ?_, ?_⟩
    · rw [← List.length_pos_iff, hlength]
      omega
    · rw [hbehind, hzeros, List.replicate_zero, List.nil_append]
    · rw [hlength]
      omega

/-- A decimal with an exponent is its first digit, the others behind a point if there are others,
and the exponent. -/
theorem exists_scientific {d : Decimal} (nonempty : d.digits ≠ []) :
    ∃ first fraction, d.digits = first :: fraction ∧
      (fraction = [] ∧ d.scientific = [first] ++ 'e' :: (toString (d.point - 1)).toList ∨
        d.scientific =
          [first] ++ '.' :: (fraction ++ 'e' :: (toString (d.point - 1)).toList)) := by
  obtain ⟨first, fraction, hdigits⟩ := List.exists_cons_of_ne_nil nonempty
  refine ⟨first, fraction, hdigits, ?_⟩
  unfold scientific
  rw [hdigits, List.take_succ_cons, List.take_zero, List.drop_succ_cons, List.drop_zero]
  cases fraction with
  | nil => exact .inl ⟨rfl, by simp⟩
  | cons next more => exact .inr (by simp)

/-- Zeros at the ends of digits are digits. -/
theorem Spelled.padded {d : Decimal} (h : d.Spelled) (before behind : Nat) :
    ∀ c ∈ List.replicate before '0' ++ d.digits ++ List.replicate behind '0',
      c.isDigit = true := by
  intro c hc
  rcases List.mem_append.mp hc with hfront | hzeros
  · rcases List.mem_append.mp hfront with hzeros | hdigits
    · exact isDigit_of_mem_zeros hzeros
    · exact h c hdigits
  · exact isDigit_of_mem_zeros hzeros

theorem Spelled.cons {d : Decimal} (h : d.Spelled) {first : Char} {fraction : List Char}
    (hdigits : d.digits = first :: fraction) :
    first.isDigit = true ∧ ∀ c ∈ fraction, c.isDigit = true := by
  unfold Spelled at h
  rw [hdigits] at h
  exact List.forall_mem_cons.mp h

private theorem isNumeralChar_of_mem_plain {d : Decimal} (h : d.Spelled) {c : Char}
    (hc : c ∈ d.plain) : Text.isNumeralChar c = true := by
  obtain ⟨whole, fraction, before, behind, hplain, -, hall, -⟩ := exists_plain d
  have hdigits := h.padded before behind
  rw [← hall] at hdigits
  rw [hplain] at hc
  rcases List.mem_append.mp hc with hwhole | hc
  · exact Text.isNumeralChar_of_isDigit (hdigits c (List.mem_append_left _ hwhole))
  · rcases List.mem_cons.mp hc with rfl | hfraction
    · rfl
    · exact Text.isNumeralChar_of_isDigit (hdigits c (List.mem_append_right _ hfraction))

private theorem isNumeralChar_of_mem_scientific {d : Decimal} (h : d.Spelled)
    (nonempty : d.digits ≠ []) {c : Char} (hc : c ∈ d.scientific) :
    Text.isNumeralChar c = true := by
  obtain ⟨first, fraction, hdigits, hscientific⟩ := exists_scientific nonempty
  obtain ⟨hfirst, hfraction⟩ := h.cons hdigits
  have hexponent (hc : c ∈ 'e' :: (toString (d.point - 1)).toList) :
      Text.isNumeralChar c = true := by
    rcases List.mem_cons.mp hc with rfl | hexponent
    · rfl
    · exact Text.isNumeralChar_of_mem_int hexponent
  rcases hscientific with ⟨-, hwrite⟩ | hwrite <;> rw [hwrite] at hc
  · rcases List.mem_cons.mp hc with rfl | hc
    · exact Text.isNumeralChar_of_isDigit hfirst
    · exact hexponent hc
  · rcases List.mem_cons.mp hc with rfl | hc
    · exact Text.isNumeralChar_of_isDigit hfirst
    · rcases List.mem_cons.mp hc with rfl | hc
      · rfl
      · rcases List.mem_append.mp hc with hmem | hc
        · exact Text.isNumeralChar_of_isDigit (hfraction c hmem)
        · exact hexponent hc

private theorem isNumeralChar_of_mem_write {d : Decimal} (h : d.Spelled) {layout : Layout}
    {c : Char} (hc : c ∈ d.write layout) : Text.isNumeralChar c = true := by
  unfold write at hc
  split at hc
  · exact isNumeralChar_of_mem_plain h hc
  · rename_i hlayout
    exact isNumeralChar_of_mem_scientific h (fun hnil => hlayout (.inl hnil)) hc

end Decimal

namespace Binary32

/-- A neighbour is a whole number times a power of ten. -/
private theorem exists_of_mem_neighbours {r : Ratio} {count : Nat} {d : Decimal}
    (hd : d ∈ neighbours r count) : ∃ n exponent, d = Decimal.ofNat n exponent := by
  unfold neighbours at hd
  dsimp only at hd
  split at hd
  · exact ⟨_, _, List.mem_singleton.mp hd⟩
  · split at hd
    all_goals
      rcases List.mem_cons.mp hd with rfl | hd
      · exact ⟨_, _, rfl⟩
      · exact ⟨_, _, List.mem_singleton.mp hd⟩

/-- So is the shortest decimal, unless it is zero. -/
theorem shortest_cases (word : Nat) :
    shortest word = Decimal.zero ∨ ∃ n exponent, shortest word = Decimal.ofNat n exponent := by
  unfold shortest
  split
  · exact .inl rfl
  · dsimp only
    cases hfound : (List.range 9).findSome? _ with
    | none => exact .inr ⟨_, _, rfl⟩
    | some d =>
        obtain ⟨i, -, hhit⟩ := List.exists_of_findSome?_eq_some hfound
        exact .inr (exists_of_mem_neighbours (List.mem_of_find?_eq_some hhit))

theorem spelled_shortest (word : Nat) : (shortest word).Spelled := by
  rcases shortest_cases word with hzero | ⟨n, exponent, hnat⟩
  · rw [hzero]
    exact Decimal.spelled_zero
  · rw [hnat]
    exact Decimal.spelled_ofNat n exponent

/-- The text of a finite number: the sign and the shortest decimal. -/
theorem toText_of_finite {x : Binary32} (finite : x.isFinite = true) :
    x.toText = String.ofList
      ((if x.isNegative then ['-'] else []) ++ (shortest x.magnitude).write layout) := by
  have hlt : x.magnitude < BinaryFormat.single.infinity := of_decide_eq_true finite
  have hnan : x.isNaN = false := decide_eq_false (by omega)
  unfold toText
  rw [hnan, finite]
  rfl

theorem isNumeralChar_of_mem_toText {x : Binary32} (finite : x.isFinite = true) {c : Char}
    (hc : c ∈ x.toText.toList) : Text.isNumeralChar c = true := by
  rw [toText_of_finite finite, String.toList_ofList] at hc
  rcases List.mem_append.mp hc with hsign | hmagnitude
  · split at hsign
    · rw [List.mem_singleton.mp hsign]
      rfl
    · exact absurd hsign List.not_mem_nil
  · exact Decimal.isNumeralChar_of_mem_write (spelled_shortest _) hmagnitude

theorem isNumberChar_of_mem_toText {x : Binary32} {c : Char} (hc : c ∈ x.toText.toList) :
    Text.isNumberChar c = true := by
  cases hfinite : x.isFinite with
  | true => exact Text.isNumberChar_of_isNumeralChar (isNumeralChar_of_mem_toText hfinite hc)
  | false =>
      have hwords : ∀ word ∈ ["NaN", "inf", "-inf"],
          word.toList.all Text.isNumberChar = true := by decide
      unfold toText at hc
      rw [hfinite] at hc
      split at hc
      · exact List.all_eq_true.mp (hwords "NaN" (by simp)) c hc
      · dsimp only at hc
        split at hc
        · exact List.all_eq_true.mp (hwords "-inf" (by simp)) c hc
        · exact List.all_eq_true.mp (hwords "inf" (by simp)) c hc

end Binary32

end ShaderLink
