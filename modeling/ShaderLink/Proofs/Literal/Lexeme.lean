/-
Where a lexeme ends.

A lexeme is the longest at its start, so its end depends on what stands behind it,
but on very little of that: on whether a digit or a point follows at once, and on
whether an exponent does.  Two tails that are alike in this (`BoundsAlike`) bound the
same lexeme.

`Spans` says that a word is the lexeme in front of a tail.  Its last character is a
digit or a point, one that a literal may not touch.
-/
import ShaderLink.Literal.Scan

namespace ShaderLink

namespace Literal

variable {word tail other : List Char}

/-! ### Tails that a lexeme cannot tell apart -/

/-- A tail and another that a lexeme before the first can stand before as well. -/
structure BoundsAlike (tail other : List Char) : Prop where
  /-- Both go on with a digit, or neither does. -/
  digit : other.head?.any Char.isDigit = tail.head?.any Char.isDigit
  /-- Both go on with a point, or neither does. -/
  point : other.head? = some '.' ↔ tail.head? = some '.'
  /-- Where the first is no exponent, the other is none. -/
  exponent : exponentLength tail = 0 → exponentLength other = 0

theorem fractionLength_eq_zero_iff {text : List Char} :
    fractionLength text = 0 ↔ text.head? ≠ some '.' := by
  unfold fractionLength
  split
  · simp
  · rename_i hpoint
    cases text with
    | nil => simp
    | cons c rest =>
        have hc : c ≠ '.' := fun heq => hpoint rest (by rw [heq])
        simpa using hc

/-- A run of digits that ends within a word ends there before every tail that goes on likewise. -/
private theorem length_takeWhile_append (word : List Char)
    (digit : other.head?.any Char.isDigit = tail.head?.any Char.isDigit)
    (within : ((word ++ tail).takeWhile Char.isDigit).length ≤ word.length) :
    ((word ++ other).takeWhile Char.isDigit).length =
      ((word ++ tail).takeWhile Char.isDigit).length := by
  induction word with
  | nil =>
      -- The tail begins with no digit, so the other does not either.
      have hnone (text : List Char) :
          (text.takeWhile Char.isDigit).length = 0 ↔ text.head?.any Char.isDigit = false := by
        cases text with
        | nil => simp
        | cons c rest => by_cases hc : c.isDigit = true <;> simp [hc]
      have htail : (tail.takeWhile Char.isDigit).length = 0 := by simpa using within
      rw [List.nil_append, List.nil_append, htail, hnone, digit]
      exact (hnone tail).mp htail
  | cons c rest ih =>
      by_cases hc : c.isDigit = true
      · simp only [List.cons_append, List.takeWhile_cons_of_pos hc, List.length_cons] at within ⊢
        rw [ih (by omega)]
      · simp only [List.cons_append, List.takeWhile_cons_of_neg hc]

private theorem fractionLength_append (word : List Char) (alike : BoundsAlike tail other)
    (within : fractionLength (word ++ tail) ≤ word.length) :
    fractionLength (word ++ other) = fractionLength (word ++ tail) := by
  cases word with
  | nil =>
      have htail : fractionLength tail = 0 := by simpa using within
      rw [List.nil_append, List.nil_append, htail, fractionLength_eq_zero_iff, Ne, alike.point]
      exact fractionLength_eq_zero_iff.mp htail
  | cons c rest =>
      by_cases hc : c = '.'
      · subst hc
        simp only [List.cons_append, fractionLength, List.length_cons] at within ⊢
        rw [length_takeWhile_append rest alike.digit (by omega)]
      · have hzero (text : List Char) : fractionLength (c :: text) = 0 := by
          rw [fractionLength_eq_zero_iff]
          simpa using hc
        rw [List.cons_append, List.cons_append, hzero, hzero]

/-- The number of digits that follow the sign of an exponent. -/
def digitsBehindSign (text : List Char) : Nat :=
  ((text.drop (signLength text)).takeWhile Char.isDigit).length

theorem exponentLength_cons (c : Char) (rest : List Char) :
    exponentLength (c :: rest) =
      if (c = 'e' ∨ c = 'E') ∧ digitsBehindSign rest ≠ 0 then
        1 + signLength rest + digitsBehindSign rest
      else 0 := by
  unfold exponentLength digitsBehindSign
  dsimp only
  generalize (rest.drop (signLength rest)).takeWhile Char.isDigit = digits
  by_cases hletter : c = 'e' ∨ c = 'E'
  · rw [if_pos hletter]
    cases digits with
    | nil => simp
    | cons d more => rw [if_neg (by simp), if_pos ⟨hletter, by simp⟩]
  · rw [if_neg hletter, if_neg fun h => hletter h.1]

theorem signLength_cons (c : Char) (rest : List Char) :
    signLength (c :: rest) = if c = '+' ∨ c = '-' then 1 else 0 := by
  unfold signLength
  split <;> simp_all

/-- An exponent that a word ends with ends there before every tail that is alike. -/
private theorem exponentLength_append (alike : BoundsAlike tail other)
    (covers : exponentLength (word ++ tail) = word.length) :
    exponentLength (word ++ other) = word.length := by
  cases word with
  | nil => exact alike.exponent covers
  | cons c rest =>
      rw [List.cons_append, exponentLength_cons, List.length_cons] at covers
      rw [List.cons_append, exponentLength_cons, List.length_cons]
      split at covers
      · rename_i hexponent
        -- The letter is not the whole word, so the sign is in it, and the digits are.
        have hrest : rest ≠ [] := by
          intro hnil
          subst hnil
          simp only [List.nil_append, List.length_nil] at covers hexponent
          omega
        have hsign : signLength (rest ++ other) = signLength (rest ++ tail) := by
          obtain ⟨d, more, rfl⟩ := List.exists_cons_of_ne_nil hrest
          rw [List.cons_append, List.cons_append, signLength_cons, signLength_cons]
        have hdigits : digitsBehindSign (rest ++ other) = digitsBehindSign (rest ++ tail) := by
          have hle : signLength (rest ++ tail) ≤ rest.length := by omega
          unfold digitsBehindSign at covers ⊢
          rw [hsign]
          rw [List.drop_append_of_le_length hle] at covers ⊢
          rw [List.drop_append_of_le_length hle]
          exact length_takeWhile_append _ alike.digit (by rw [List.length_drop]; omega)
        rw [hsign, hdigits, if_pos hexponent]
        exact covers
      · exact absurd covers (by omega)

/-- **A lexeme ends at the same place before every tail that is alike.** -/
theorem lexeme_append (alike : BoundsAlike tail other)
    (covers : (lexeme (word ++ tail)).2 = word.length) :
    lexeme (word ++ other) = lexeme (word ++ tail) := by
  have hwhole := length_takeWhile_append word alike.digit
  unfold lexeme at covers ⊢
  dsimp only at covers ⊢
  generalize ((word ++ tail).takeWhile Char.isDigit).length = whole at covers hwhole ⊢
  have hle : whole ≤ word.length := by omega
  rw [hwhole hle, List.drop_append_of_le_length hle]
  rw [List.drop_append_of_le_length hle] at covers ⊢
  have hfraction := fractionLength_append (word.drop whole) alike
    (by rw [List.length_drop]; omega)
  rw [hfraction]
  generalize fractionLength (word.drop whole ++ tail) = fraction at covers ⊢
  have hle' : whole + fraction ≤ word.length := by omega
  rw [List.drop_append_of_le_length hle'] at covers ⊢
  rw [List.drop_append_of_le_length hle']
  have hexponent : exponentLength (word.drop (whole + fraction) ++ tail) =
      (word.drop (whole + fraction)).length := by
    rw [List.length_drop]
    omega
  rw [exponentLength_append alike hexponent, hexponent]

/-! ### The length of a lexeme -/

theorem fractionLength_le (text : List Char) : fractionLength text ≤ text.length := by
  unfold fractionLength
  split
  · rename_i rest
    have := (rest.takeWhile_sublist Char.isDigit).length_le
    rw [List.length_cons]
    omega
  · exact Nat.zero_le _

theorem exponentLength_le (text : List Char) : exponentLength text ≤ text.length := by
  cases text with
  | nil => exact Nat.le_refl _
  | cons c rest =>
      rw [exponentLength_cons, List.length_cons]
      split
      · rename_i hexponent
        have hdigits : digitsBehindSign rest ≤ rest.length - signLength rest := by
          unfold digitsBehindSign
          have := ((rest.drop (signLength rest)).takeWhile_sublist Char.isDigit).length_le
          rwa [List.length_drop] at this
        omega
      · exact Nat.zero_le _

theorem length_lexeme_le (text : List Char) : (lexeme text).2 ≤ text.length := by
  unfold lexeme
  dsimp only
  generalize hwhole : (text.takeWhile Char.isDigit).length = whole
  have := (text.takeWhile_sublist Char.isDigit).length_le
  have hfraction := fractionLength_le (text.drop whole)
  have hexponent := exponentLength_le (text.drop (whole + fractionLength (text.drop whole)))
  rw [List.length_drop] at hfraction hexponent
  omega

/-! ### The last character of a lexeme -/

/-- A text that is empty or ends in a character that a literal may not touch. -/
def EndsAttached (text : List Char) : Prop :=
  ∀ c, text.getLast? = some c → attaches (some c) = true

theorem attaches_of_isDigit {c : Char} (h : c.isDigit = true) : attaches (some c) = true := by
  simp [attaches, Text.isPlainWordChar_of_isDigit h]

namespace EndsAttached

private theorem of_all {text : List Char} (h : ∀ c ∈ text, attaches (some c) = true) :
    EndsAttached text :=
  fun c hc => h c (List.mem_of_getLast? hc)

private theorem append {text more : List Char} (h : EndsAttached text) (hmore : EndsAttached more) :
    EndsAttached (text ++ more) := by
  intro c hc
  rw [List.getLast?_append] at hc
  rcases Option.or_eq_some_iff.mp hc with hlast | ⟨-, hlast⟩
  · exact hmore c hlast
  · exact h c hlast

private theorem digits (text : List Char) :
    EndsAttached (text.take (text.takeWhile Char.isDigit).length) := by
  rw [← List.prefix_iff_eq_take.mp (text.takeWhile_prefix Char.isDigit)]
  exact of_all fun c hc => attaches_of_isDigit (List.all_eq_true.mp List.all_takeWhile c hc)

private theorem fraction (text : List Char) : EndsAttached (text.take (fractionLength text)) := by
  unfold fractionLength
  split
  · rename_i rest
    rw [Nat.add_comm, List.take_succ_cons]
    have hpoint : EndsAttached ['.'] := of_all fun c hc => by rw [List.mem_singleton.mp hc]; rfl
    exact hpoint.append (digits rest)
  · intro c hc
    simp at hc

private theorem exponent (text : List Char) : EndsAttached (text.take (exponentLength text)) := by
  cases text with
  | nil =>
      intro c hc
      simp at hc
  | cons letter rest =>
      rw [exponentLength_cons]
      split
      · rename_i hexponent
        -- The digits are there, so the last character is one of them.
        have hdigits := digits (rest.drop (signLength rest))
        intro c hc
        rw [Nat.add_assoc, Nat.add_comm, List.take_succ_cons, List.take_add, ← List.cons_append,
          List.getLast?_append] at hc
        refine hdigits c ?_
        rcases Option.or_eq_some_iff.mp hc with hlast | ⟨hnone, -⟩
        · exact hlast
        · rw [List.getLast?_eq_none_iff, List.take_eq_nil_iff] at hnone
          rcases hnone with hzero | hnil
          · exact absurd hzero hexponent.2
          · exact absurd (by simp [digitsBehindSign, hnil]) hexponent.2
      · intro c hc
        simp at hc

end EndsAttached

/-! ### Words that are lexemes -/

/-- Whether a lexeme begins is seen at its first character, unless that is a point. -/
theorem startsLexeme_cons {c : Char} (hpoint : c ≠ '.') (rest : List Char) :
    startsLexeme (c :: rest) = c.isDigit := by
  unfold startsLexeme
  split <;> simp_all

/-- A word is the lexeme at the start of code that goes on with a tail. -/
structure Spans (kind : ConstKind) (word tail : List Char) : Prop where
  starts : startsLexeme (word ++ tail) = true
  covers : lexeme (word ++ tail) = (kind, word.length)

theorem spans_lexeme {text : List Char} (starts : startsLexeme text = true) :
    Spans (lexeme text).1 (text.take (lexeme text).2) (text.drop (lexeme text).2) := by
  refine ⟨?_, ?_⟩
  · rw [List.take_append_drop]
    exact starts
  · rw [List.take_append_drop, List.length_take_of_le (length_lexeme_le text)]

namespace Spans

variable {kind : ConstKind}

theorem ne_nil (h : Spans kind word tail) : word ≠ [] := by
  have hpos := lexeme_pos h.starts
  rw [h.covers] at hpos
  exact List.length_pos_iff.mp hpos

theorem attaches_getLast? (h : Spans kind word tail) : attaches word.getLast? = true := by
  have hends : EndsAttached ((word ++ tail).take (lexeme (word ++ tail)).2) := by
    unfold lexeme
    dsimp only
    rw [List.take_add, List.take_add]
    exact ((EndsAttached.digits _).append (.fraction _)).append (.exponent _)
  rw [h.covers, List.take_left] at hends
  cases hlast : word.getLast? with
  | none => exact absurd (List.getLast?_eq_none_iff.mp hlast) h.ne_nil
  | some c => exact hends c hlast

theorem of_boundsAlike (h : Spans kind word tail) (alike : BoundsAlike tail other) :
    Spans kind word other := by
  refine ⟨?_, ?_⟩
  · have hstarts := h.starts
    obtain ⟨c, rest, rfl⟩ := List.exists_cons_of_ne_nil h.ne_nil
    rw [List.cons_append] at hstarts ⊢
    by_cases hc : c = '.'
    · subst hc
      cases rest with
      | nil =>
          show other.head?.any Char.isDigit = true
          rw [alike.digit]
          exact hstarts
      | cons d more => exact hstarts
    · rw [startsLexeme_cons hc] at hstarts ⊢
      exact hstarts
  · rw [lexeme_append alike (by rw [h.covers]), h.covers]

end Spans

end Literal

end ShaderLink
