/-
Literals of the shading language.

A floating-point literal is digits with a point before, among or behind them and an
exponent or none, or digits without a point and an exponent; so it carries one of the
two, which tells it from an integer.  A negative number is a literal behind a minus sign.

The text of a number is such a literal exactly when the number is finite.  An infinity
and a NaN are written as words.
-/
import ShaderLink.Proofs.Number.Spelling

namespace ShaderLink

namespace Text

/-- One or more digits. -/
def Digits (text : List Char) : Prop := text ≠ [] ∧ ∀ c ∈ text, c.isDigit = true

/-- The letter e and a whole number with a sign or none. -/
inductive IsExponent : List Char → Prop
  | intro {letter : Char} {sign digits : List Char} (lettered : letter = 'e' ∨ letter = 'E')
      (signed : sign = [] ∨ sign = ['+'] ∨ sign = ['-']) (spelled : Digits digits) :
      IsExponent (letter :: (sign ++ digits))

/-- A floating-point literal. -/
inductive IsFloatLiteral : List Char → Prop
  | point {whole fraction exponent : List Char} (spelled : Digits (whole ++ fraction))
      (ended : exponent = [] ∨ IsExponent exponent) :
      IsFloatLiteral (whole ++ '.' :: (fraction ++ exponent))
  | scaled {whole exponent : List Char} (spelled : Digits whole) (ended : IsExponent exponent) :
      IsFloatLiteral (whole ++ exponent)

/-- A floating-point literal, behind a minus sign or not. -/
def IsSignedLiteral (text : List Char) : Prop :=
  ∃ sign literal, text = sign ++ literal ∧ (sign = [] ∨ sign = ['-']) ∧ IsFloatLiteral literal

/-- A character that may stand in a signed literal. -/
def isLiteralChar (c : Char) : Bool := c.isDigit || ['.', 'e', 'E', '+', '-'].contains c

private theorem isLiteralChar_of_digits {text : List Char} (h : Digits text) {c : Char}
    (hc : c ∈ text) : isLiteralChar c = true := by
  simp [isLiteralChar, h.2 c hc]

private theorem IsExponent.isLiteralChar {text : List Char} (h : IsExponent text) {c : Char}
    (hc : c ∈ text) : isLiteralChar c = true := by
  obtain ⟨lettered, signed, spelled⟩ := h
  rcases List.mem_cons.mp hc with rfl | hc
  · rcases lettered with rfl | rfl <;> rfl
  · rcases List.mem_append.mp hc with hsign | hdigit
    · rcases signed with rfl | rfl | rfl
      · exact absurd hsign List.not_mem_nil
      · rw [List.mem_singleton.mp hsign]
        rfl
      · rw [List.mem_singleton.mp hsign]
        rfl
    · exact isLiteralChar_of_digits spelled hdigit

private theorem IsFloatLiteral.isLiteralChar {text : List Char} (h : IsFloatLiteral text) {c : Char}
    (hc : c ∈ text) : isLiteralChar c = true := by
  cases h with
  | point spelled ended =>
      rcases List.mem_append.mp hc with hwhole | hc
      · exact isLiteralChar_of_digits spelled (List.mem_append_left _ hwhole)
      · rcases List.mem_cons.mp hc with rfl | hc
        · rfl
        · rcases List.mem_append.mp hc with hfraction | hexponent
          · exact isLiteralChar_of_digits spelled (List.mem_append_right _ hfraction)
          · rcases ended with rfl | ended
            · exact absurd hexponent List.not_mem_nil
            · exact ended.isLiteralChar hexponent
  | scaled spelled ended =>
      rcases List.mem_append.mp hc with hwhole | hexponent
      · exact isLiteralChar_of_digits spelled hwhole
      · exact ended.isLiteralChar hexponent

theorem IsSignedLiteral.isLiteralChar {text : List Char} (h : IsSignedLiteral text) {c : Char}
    (hc : c ∈ text) : isLiteralChar c = true := by
  obtain ⟨sign, literal, rfl, hsign, hliteral⟩ := h
  rcases List.mem_append.mp hc with hminus | hc
  · rcases hsign with rfl | rfl
    · exact absurd hminus List.not_mem_nil
    · rw [List.mem_singleton.mp hminus]
      rfl
  · exact hliteral.isLiteralChar hc

private theorem digits_toString (n : Nat) : Digits (toString n).toList := by
  refine ⟨?_, fun c hc => isDigit_of_mem_nat hc⟩
  rw [Nat.toString_eq_ofList_toDigits, String.toList_ofList]
  exact Nat.toDigits_ne_nil

/-- An integer behind the letter e is an exponent. -/
private theorem isExponent_toString (i : Int) : IsExponent ('e' :: (toString i).toList) := by
  rw [Int.toString_eq_repr, Int.repr_eq_if]
  split
  · exact .intro (.inl rfl) (.inl rfl) (digits_toString _)
  · rw [String.toList_append]
    exact .intro (.inl rfl) (.inr (.inr rfl)) (digits_toString _)

end Text

open Text (IsFloatLiteral IsSignedLiteral)

namespace Decimal

variable {d : Decimal}

private theorem isFloatLiteral_plain (h : d.Spelled) : IsFloatLiteral d.plain := by
  obtain ⟨whole, fraction, before, behind, hplain, hwhole, hall, -⟩ := exists_plain d
  have hdigits := h.padded before behind
  rw [← hall] at hdigits
  rw [hplain, ← List.append_nil fraction]
  exact .point ⟨by simp [hwhole], hdigits⟩ (.inl rfl)

private theorem isFloatLiteral_scientific (h : d.Spelled) (nonempty : d.digits ≠ []) :
    IsFloatLiteral d.scientific := by
  obtain ⟨first, fraction, hdigits, hscientific⟩ := exists_scientific nonempty
  obtain ⟨hfirst, hfraction⟩ := h.cons hdigits
  have hexponent := Text.isExponent_toString (d.point - 1)
  rcases hscientific with ⟨-, hwrite⟩ | hwrite
  · rw [hwrite]
    exact .scaled ⟨by simp, by simpa using hfirst⟩ hexponent
  · rw [hwrite]
    exact .point ⟨by simp, by simpa using ⟨hfirst, hfraction⟩⟩ (.inr hexponent)

/-- Decimals are written as literals. -/
theorem isFloatLiteral_write (h : d.Spelled) (layout : Layout) :
    IsFloatLiteral (d.write layout) := by
  unfold write
  split
  · exact isFloatLiteral_plain h
  · rename_i hlayout
    exact isFloatLiteral_scientific h fun hnil => hlayout (.inl hnil)

end Decimal

namespace Binary32

variable {x : Binary32}

/-- A number that is not finite is written with a letter that no literal has. -/
private theorem exists_letter_of_not_finite (h : x.isFinite = false) :
    ∃ c ∈ x.toText.toList, Text.isLiteralChar c = false := by
  unfold toText
  rw [h]
  split
  · exact ⟨'N', by decide, by decide⟩
  · refine ⟨'i', ?_, by decide⟩
    have hword : 'i' ∈ "inf".toList := by decide
    rw [String.toList_ofList]
    exact List.mem_append_right _ hword

/-- **The text of a number is a literal exactly when the number is finite.** -/
theorem isSignedLiteral_toText_iff : IsSignedLiteral x.toText.toList ↔ x.isFinite = true := by
  constructor
  · intro hliteral
    cases hfinite : x.isFinite with
    | true => rfl
    | false =>
        obtain ⟨c, hc, hnot⟩ := exists_letter_of_not_finite hfinite
        rw [hliteral.isLiteralChar hc] at hnot
        exact absurd hnot (by simp)
  · intro hfinite
    refine ⟨if x.isNegative then ['-'] else [], (shortest x.magnitude).write layout, ?_, ?_,
      Decimal.isFloatLiteral_write (spelled_shortest _) layout⟩
    · rw [toText_of_finite hfinite, String.toList_ofList]
    · split
      · exact .inr rfl
      · exact .inl rfl

end Binary32

end ShaderLink
