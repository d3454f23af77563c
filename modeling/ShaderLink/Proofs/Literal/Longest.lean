/-
Lexemes are longest matches.

A number of the language is digits, or a floating-point literal.  Where one begins, a
lexeme begins, and the lexeme is a number too; no number that begins there is longer.  So
the scanner, which looks at most at two characters ahead, has found the longest match of
the grammar.

All characters of a number attach, but for the sign of its exponent.  So a place inside a
number that could begin a literal is the one behind that sign.
-/
import Mathlib.Data.List.Basic
import ShaderLink.Proofs.Literal.Cut
import ShaderLink.Proofs.Number.Notation

namespace ShaderLink

namespace Literal

open Text (Digits IsExponent IsFloatLiteral)

variable {word text tail more whole fraction exponent : List Char} {kind : ConstKind}

/-! ### Numbers -/

/-- Digits, or a floating-point literal. -/
def IsNumber (word : List Char) : Prop := Digits word ∨ IsFloatLiteral word

/-- The longest number that a text begins with. -/
structure Longest (word text : List Char) : Prop where
  front : word <+: text
  number : IsNumber word
  longest : ∀ other, other <+: text → IsNumber other → other.length ≤ word.length

/-- The three parts of a number, each of which may be missing, but not all digits. -/
structure Parts (whole fraction exponent : List Char) : Prop where
  counted : ∀ c ∈ whole, c.isDigit = true
  pointed : fraction = [] ∨ ∃ digits, fraction = '.' :: digits ∧ ∀ c ∈ digits, c.isDigit = true
  scaled : exponent = [] ∨ IsExponent exponent
  spelled : whole ≠ [] ∨ 1 < fraction.length

theorem isNumber_iff : IsNumber word ↔
    ∃ whole fraction exponent, word = whole ++ (fraction ++ exponent) ∧
      Parts whole fraction exponent := by
  constructor
  · rintro (digits | ⟨spelled, ended⟩ | ⟨spelled, ended⟩)
    · exact ⟨word, [], [], by simp, digits.2, .inl rfl, .inl rfl, .inl digits.1⟩
    · rename_i whole fraction exponent
      refine ⟨whole, '.' :: fraction, exponent, by simp, ?_, .inr ⟨fraction, rfl, ?_⟩, ended, ?_⟩
      · exact fun c hc => spelled.2 c (List.mem_append_left _ hc)
      · exact fun c hc => spelled.2 c (List.mem_append_right _ hc)
      · cases fraction with
        | nil => exact .inl (by simpa using spelled.1)
        | cons d more => exact .inr (by simp)
    · rename_i whole exponent
      exact ⟨whole, [], exponent, by simp, spelled.2, .inl rfl, .inr ended, .inl spelled.1⟩
  · rintro ⟨whole, fraction, exponent, rfl, parts⟩
    rcases parts.pointed with rfl | ⟨digits, rfl, hdigits⟩
    · have hwhole : Digits whole := ⟨by simpa using parts.spelled, parts.counted⟩
      rcases parts.scaled with rfl | ended
      · exact .inl (by simpa using hwhole)
      · exact .inr (.scaled hwhole ended)
    · refine .inr (.point ⟨?_, ?_⟩ parts.scaled)
      · intro hnil
        have hspelled := parts.spelled
        simp_all
      · intro c hc
        exact (List.mem_append.mp hc).elim (parts.counted c) (hdigits c)

namespace Parts

/-- No part but the exponent has a character that a literal may touch. -/
private theorem attaches_of_mem (parts : Parts whole fraction exponent) {c : Char}
    (hc : c ∈ whole ++ fraction) : attaches (some c) = true := by
  rcases List.mem_append.mp hc with hwhole | hfraction
  · exact attaches_of_isDigit (parts.counted c hwhole)
  · rcases parts.pointed with rfl | ⟨digits, rfl, hdigits⟩
    · exact absurd hfraction List.not_mem_nil
    · rcases List.mem_cons.mp hfraction with rfl | hdigit
      · rfl
      · exact attaches_of_isDigit (hdigits c hdigit)

/-- A number with a fraction or an exponent has a character that shows it. -/
private theorem marked_iff (parts : Parts whole fraction exponent) :
    ('.' ∈ whole ++ (fraction ++ exponent) ∨ 'e' ∈ whole ++ (fraction ++ exponent) ∨
      'E' ∈ whole ++ (fraction ++ exponent)) ↔ fraction ≠ [] ∨ exponent ≠ [] := by
  constructor
  · intro hmem
    by_cases hnone : fraction = [] ∧ exponent = []
    · rw [hnone.1, hnone.2, List.append_nil, List.append_nil] at hmem
      rcases hmem with hmem | hmem | hmem
      all_goals exact absurd (parts.counted _ hmem) (by decide)
    · exact Decidable.not_and_iff_not_or_not.mp hnone
  · rintro (hfraction | hexponent)
    · obtain ⟨digits, rfl, -⟩ := parts.pointed.resolve_left hfraction
      exact .inl (by simp)
    · obtain ⟨lettered, -, -⟩ := parts.scaled.resolve_left hexponent
      rcases lettered with rfl | rfl
      · exact .inr (.inl (by simp))
      · exact .inr (.inr (by simp))

end Parts

/-! ### The lexeme is a number -/

theorem takeWhile_digits (text : List Char) : ∀ c ∈ text.takeWhile Char.isDigit, c.isDigit = true :=
  fun c hc => List.all_eq_true.mp List.all_takeWhile c hc

theorem take_takeWhile (text : List Char) :
    text.take (text.takeWhile Char.isDigit).length = text.takeWhile Char.isDigit :=
  (List.prefix_iff_eq_take.mp (text.takeWhile_prefix Char.isDigit)).symm

private theorem take_fractionLength (text : List Char) :
    text.take (fractionLength text) = [] ∨
      ∃ digits, text.take (fractionLength text) = '.' :: digits ∧
        ∀ c ∈ digits, c.isDigit = true := by
  unfold fractionLength
  split
  · rename_i rest
    refine .inr ⟨rest.takeWhile Char.isDigit, ?_, takeWhile_digits rest⟩
    rw [Nat.add_comm, List.take_succ_cons, take_takeWhile]
  · exact .inl rfl

private theorem take_exponentLength (text : List Char) :
    text.take (exponentLength text) = [] ∨ IsExponent (text.take (exponentLength text)) := by
  cases text with
  | nil => exact .inl rfl
  | cons letter rest =>
      rw [exponentLength_cons]
      split
      · rename_i hexponent
        right
        rw [Nat.add_assoc, Nat.add_comm, List.take_succ_cons, List.take_add, digitsBehindSign,
          take_takeWhile]
        refine .intro hexponent.1 ?_ ⟨?_, takeWhile_digits _⟩
        · unfold signLength
          split <;> simp
        · intro hnil
          exact hexponent.2 (by rw [digitsBehindSign, hnil]; rfl)
      · exact .inl rfl

private theorem one_lt_fractionLength {c : Char} {rest : List Char} (h : c.isDigit = true) :
    1 < fractionLength ('.' :: c :: rest) := by
  rw [fractionLength, List.takeWhile_cons_of_pos h, List.length_cons]
  omega

private theorem take_fractionLength_eq_nil_iff : text.take (fractionLength text) = [] ↔
    fractionLength text = 0 := by
  rw [← List.length_eq_zero_iff, List.length_take_of_le (fractionLength_le text)]

private theorem take_exponentLength_eq_nil_iff : text.take (exponentLength text) = [] ↔
    exponentLength text = 0 := by
  rw [← List.length_eq_zero_iff, List.length_take_of_le (exponentLength_le text)]

/-- The parts of a lexeme, and its kind by them. -/
theorem parts_lexeme (starts : startsLexeme text = true) :
    ∃ whole fraction exponent, text.take (lexeme text).2 = whole ++ (fraction ++ exponent) ∧
      Parts whole fraction exponent ∧
      ((lexeme text).1 = .float ↔ fraction ≠ [] ∨ exponent ≠ []) := by
  have hspelled : text.takeWhile Char.isDigit ≠ [] ∨
      1 < fractionLength (text.drop (text.takeWhile Char.isDigit).length) := by
    unfold startsLexeme at starts
    split at starts
    · rename_i rest
      cases rest with
      | nil => exact absurd starts (by simp)
      | cons c rest => exact .inr (one_lt_fractionLength starts)
    · rw [List.takeWhile_cons_of_pos starts]
      exact .inl (by simp)
    · exact absurd starts (by simp)
  unfold lexeme
  dsimp only
  rw [List.take_add, List.take_add, List.append_assoc, take_takeWhile]
  simp only [← List.drop_drop]
  generalize text.drop (text.takeWhile Char.isDigit).length = behind at hspelled ⊢
  refine ⟨_, _, _, rfl, ⟨takeWhile_digits text, take_fractionLength behind,
    take_exponentLength _, ?_⟩, ?_⟩
  · rwa [List.length_take_of_le (fractionLength_le behind)]
  · rw [Ne, take_fractionLength_eq_nil_iff, Ne, take_exponentLength_eq_nil_iff,
      ← Decidable.not_and_iff_not_or_not]
    split
    · rename_i hnone
      exact iff_of_false (by simp) (not_not_intro hnone)
    · rename_i hsome
      exact iff_of_true rfl hsome

/-! ### No number is longer -/

private theorem length_takeWhile_append_digits {digits : List Char}
    (h : ∀ c ∈ digits, c.isDigit = true) (tail : List Char) :
    ((digits ++ tail).takeWhile Char.isDigit).length =
      digits.length + (tail.takeWhile Char.isDigit).length := by
  rw [List.takeWhile_append_of_pos h, List.length_append]

/-- In front of an exponent neither digits nor a fraction go on. -/
private theorem ends_of_isExponent (h : IsExponent exponent) (tail : List Char) :
    (exponent ++ tail).takeWhile Char.isDigit = [] ∧ fractionLength (exponent ++ tail) = 0 := by
  obtain ⟨lettered, -, -⟩ := h
  rcases lettered with rfl | rfl
  all_goals exact ⟨List.takeWhile_cons_of_neg (by decide), fractionLength_eq_zero_iff.mpr (by simp)⟩

private theorem length_le_exponentLength (h : IsExponent exponent) (tail : List Char) :
    exponent.length ≤ exponentLength (exponent ++ tail) := by
  obtain ⟨lettered, signed, spelled⟩ := h
  rename_i letter sign digits
  have hsign : signLength (sign ++ digits ++ tail) = sign.length := by
    rcases signed with rfl | rfl | rfl
    · -- The first digit is no sign.
      obtain ⟨d, more, rfl⟩ := List.exists_cons_of_ne_nil spelled.1
      have hd := spelled.2 d (List.mem_cons_self ..)
      show signLength (d :: (more ++ tail)) = 0
      rw [signLength_cons, if_neg]
      rintro (rfl | rfl) <;> exact absurd hd (by decide)
    · rfl
    · rfl
  have hdigits : digits.length ≤ digitsBehindSign (sign ++ digits ++ tail) := by
    rw [digitsBehindSign, hsign, List.append_assoc, List.drop_left,
      length_takeWhile_append_digits spelled.2]
    exact Nat.le_add_right ..
  have hpos := List.length_pos_iff.mpr spelled.1
  rw [List.cons_append, exponentLength_cons, if_pos ⟨lettered, by omega⟩, hsign, List.length_cons,
    List.length_append]
  omega

namespace Parts

private theorem length_fraction_le (parts : Parts whole fraction exponent) (tail : List Char) :
    fraction.length ≤ fractionLength (fraction ++ tail) := by
  rcases parts.pointed with rfl | ⟨digits, rfl, hdigits⟩
  · exact Nat.zero_le _
  · rw [List.cons_append, fractionLength, length_takeWhile_append_digits hdigits, List.length_cons]
    omega

/-- Behind the fraction of a number neither digits nor another fraction go on when neither does
without it. -/
private theorem fraction_ends (parts : Parts whole fraction exponent)
    (noDigit : tail.takeWhile Char.isDigit = []) (noPoint : fractionLength tail = 0) :
    (fraction ++ tail).takeWhile Char.isDigit = [] ∧
      fractionLength (fraction ++ tail) = fraction.length := by
  rcases parts.pointed with rfl | ⟨digits, rfl, hdigits⟩
  · exact ⟨noDigit, noPoint⟩
  · refine ⟨List.takeWhile_cons_of_neg (by decide), ?_⟩
    rw [List.cons_append, fractionLength, length_takeWhile_append_digits hdigits, List.length_cons,
      noDigit, List.length_nil]
    omega

/-- A number that a text begins with is no longer than the lexeme there. -/
private theorem length_le_lexeme (parts : Parts whole fraction exponent) (tail : List Char) :
    (whole ++ (fraction ++ exponent)).length ≤
      (lexeme (whole ++ (fraction ++ (exponent ++ tail)))).2 := by
  unfold lexeme
  dsimp only
  rw [length_takeWhile_append_digits parts.counted, List.length_append, List.length_append]
  rcases parts.scaled with rfl | scaled
  · rcases parts.pointed with rfl | ⟨digits, rfl, -⟩
    · simp only [List.length_nil]
      omega
    · -- The point ends the digits before it.
      have hfraction := parts.length_fraction_le tail
      have hstop : ('.' :: digits ++ ([] ++ tail)).takeWhile Char.isDigit = [] :=
        List.takeWhile_cons_of_neg (by decide)
      rw [hstop, List.length_nil]
      simp only [Nat.add_zero, List.nil_append, List.drop_left]
      omega
  · obtain ⟨hdigits, hpoint⟩ := ends_of_isExponent scaled tail
    obtain ⟨hstop, hfraction⟩ := parts.fraction_ends hdigits hpoint
    have hexponent := length_le_exponentLength scaled tail
    rw [hstop, List.length_nil, Nat.add_zero, List.drop_left, hfraction, ← List.drop_drop,
      List.drop_left, List.drop_left]
    omega

private theorem startsLexeme (parts : Parts whole fraction exponent) (tail : List Char) :
    startsLexeme (whole ++ (fraction ++ tail)) = true := by
  cases whole with
  | nil =>
      rcases parts.pointed with rfl | ⟨digits, rfl, hdigits⟩
      · exact absurd parts.spelled (by simp)
      · cases digits with
        | nil => exact absurd parts.spelled (by simp)
        | cons d more => exact hdigits d (List.mem_cons_self ..)
  | cons d more =>
      have hd := parts.counted d (List.mem_cons_self ..)
      rw [List.cons_append, startsLexeme_cons]
      · exact hd
      · rintro rfl
        exact absurd hd (by decide)

end Parts

/-! ### Longest matches -/

private theorem isNumber_lexeme (starts : startsLexeme text = true) :
    IsNumber (text.take (lexeme text).2) := by
  obtain ⟨whole, fraction, exponent, htake, parts, -⟩ := parts_lexeme starts
  exact isNumber_iff.mpr ⟨whole, fraction, exponent, htake, parts⟩

theorem startsLexeme_of_isNumber (h : IsNumber word) (tail : List Char) :
    startsLexeme (word ++ tail) = true := by
  obtain ⟨whole, fraction, exponent, rfl, parts⟩ := isNumber_iff.mp h
  rw [List.append_assoc, List.append_assoc]
  exact parts.startsLexeme _

private theorem length_le_of_isNumber (h : IsNumber word) (tail : List Char) :
    word.length ≤ (lexeme (word ++ tail)).2 := by
  obtain ⟨whole, fraction, exponent, rfl, parts⟩ := isNumber_iff.mp h
  rw [List.append_assoc, List.append_assoc]
  exact parts.length_le_lexeme tail

/-- **A word is the longest number that a text begins with exactly when it is the lexeme there.** -/
theorem longest_iff : Longest word text ↔
    startsLexeme text = true ∧ word = text.take (lexeme text).2 := by
  constructor
  · rintro ⟨⟨tail, rfl⟩, number, longest⟩
    have hstarts := startsLexeme_of_isNumber number tail
    have hlength := longest _ (List.take_prefix _ _) (isNumber_lexeme hstarts)
    rw [List.length_take_of_le (length_lexeme_le _)] at hlength
    refine ⟨hstarts, ?_⟩
    rw [Nat.le_antisymm hlength (length_le_of_isNumber number tail), List.take_left]
  · rintro ⟨starts, rfl⟩
    refine ⟨List.take_prefix _ _, isNumber_lexeme starts, ?_⟩
    rintro other ⟨tail, rfl⟩ number
    rw [List.length_take_of_le (length_lexeme_le _)]
    exact length_le_of_isNumber number tail

/-- A word in front of a tail is its lexeme exactly when it is the longest number there. -/
theorem spans_iff : Spans kind word tail ↔
    Longest word (word ++ tail) ∧ (lexeme (word ++ tail)).1 = kind := by
  rw [longest_iff]
  constructor
  · intro spans
    refine ⟨⟨spans.starts, ?_⟩, ?_⟩
    · rw [spans.covers, List.take_left]
    · rw [spans.covers]
  · rintro ⟨⟨starts, hword⟩, rfl⟩
    refine ⟨starts, Prod.ext rfl ?_⟩
    have hlength := congrArg List.length hword
    rw [List.length_take_of_le (length_lexeme_le _)] at hlength
    exact hlength.symm

theorem Spans.kind_iff (spans : Spans kind word tail) :
    kind = .float ↔ '.' ∈ word ∨ 'e' ∈ word ∨ 'E' ∈ word := by
  obtain ⟨whole, fraction, exponent, htake, parts, hkind⟩ := parts_lexeme spans.starts
  rw [spans.covers, List.take_left] at htake
  rw [spans.covers] at hkind
  rw [htake, parts.marked_iff]
  exact hkind

/-! ### Places inside a number -/

private theorem attaches_getLast?_of_all (nonempty : text ≠ [])
    (attached : ∀ c ∈ text, attaches (some c) = true) : attaches text.getLast? = true := by
  rw [List.getLast?_eq_some_getLast nonempty]
  exact attached _ (List.getLast_mem nonempty)

/-- A place in an exponent, behind a character that a literal may touch, is behind its sign. -/
private theorem exists_sign_of_isExponent (h : IsExponent (text ++ tail)) (nonempty : text ≠ [])
    (free : attaches text.getLast? = false) :
    ∃ letter sign, text = [letter, sign] ∧ (sign = '+' ∨ sign = '-') := by
  have hfree {front back : List Char} (hback : back ≠ []) (hsplit : text = front ++ back) :
      ¬ ∀ c ∈ back, attaches (some c) = true := by
    intro attached
    have hlast := attaches_getLast?_of_all hback attached
    rw [hsplit, List.getLast?_append_of_ne_nil _ hback, hlast] at free
    exact absurd free (by simp)
  generalize hall : text ++ tail = all at h
  obtain ⟨lettered, signed, spelled⟩ := h
  rename_i letter sign digits
  have hletter : attaches (some letter) = true := by
    rcases lettered with rfl | rfl <;> rfl
  have hdigits {front : List Char} (hfront : digits = front ++ tail) :
      ∀ c ∈ front, attaches (some c) = true :=
    fun c hc => attaches_of_isDigit (spelled.2 c (hfront ▸ List.mem_append_left _ hc))
  obtain ⟨c, front, rfl⟩ := List.exists_cons_of_ne_nil nonempty
  obtain ⟨rfl, hfront⟩ := List.cons.inj hall
  rcases signed with rfl | signed
  · -- Without a sign the letter and the digits attach.
    refine absurd (fun d hd => ?_) (hfree nonempty (List.nil_append _).symm)
    exact (List.mem_cons.mp hd).elim (fun h => h ▸ hletter) (hdigits hfront.symm d)
  obtain ⟨s, rfl, hs⟩ : ∃ s, sign = [s] ∧ (s = '+' ∨ s = '-') := by
    rcases signed with rfl | rfl
    · exact ⟨'+', rfl, .inl rfl⟩
    · exact ⟨'-', rfl, .inr rfl⟩
  cases front with
  | nil => exact absurd (by simpa using hletter) (hfree (by simp) (List.nil_append [c]).symm)
  | cons d front =>
      obtain ⟨rfl, hbehind⟩ := List.cons.inj hfront
      by_cases hnil : front = []
      · exact ⟨c, d, by rw [hnil], hs⟩
      · have hsplit : c :: d :: front = [c, d] ++ front := rfl
        exact absurd (hdigits hbehind.symm) (hfree hnil hsplit)

/-- A place in a number, behind a character of it that a literal may touch, is behind the sign of
its exponent. -/
theorem IsNumber.exists_sign (h : IsNumber (text ++ tail)) (nonempty : text ≠ [])
    (free : attaches text.getLast? = false) :
    ∃ mantissa letter sign, text = mantissa ++ [letter, sign] ∧ (sign = '+' ∨ sign = '-') ∧
      IsExponent (letter :: sign :: tail) := by
  obtain ⟨whole, fraction, exponent, hsplit, parts⟩ := isNumber_iff.mp h
  have hbody : ¬ text <+: whole ++ fraction := by
    intro hfront
    have hlast := attaches_getLast?_of_all nonempty fun c hc =>
      parts.attaches_of_mem (hfront.subset hc)
    rw [hlast] at free
    exact absurd free (by simp)
  rw [← List.append_assoc, List.append_eq_append_iff] at hsplit
  rcases hsplit with ⟨more, hmore, -⟩ | ⟨front, rfl, rfl⟩
  · exact absurd (hmore ▸ List.prefix_append _ _) hbody
  have hfront : front ≠ [] := by
    rintro rfl
    exact hbody (by simp)
  have hexponent : IsExponent (front ++ tail) := parts.scaled.resolve_left (by simp [hfront])
  rw [List.getLast?_append_of_ne_nil _ hfront] at free
  obtain ⟨letter, sign, rfl, hsign⟩ := exists_sign_of_isExponent hexponent hfront free
  exact ⟨whole ++ fraction, letter, sign, rfl, hsign, hexponent⟩

end Literal

end ShaderLink
