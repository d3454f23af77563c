/-
Spacing works line by line.

Setting marks apart looks at one character to either side and joining keywords at what
one line can hold, so a text is spaced by spacing its lines.  Whether a mark is set apart
never changes what the characters beside blanks are, only which of them begin a word.
-/
import ShaderLink.Proofs.Source.Keywords
import ShaderLink.Proofs.Text.Words

namespace ShaderLink
namespace Spacing

open Text

/-! ### Marks -/

/-- Whether a character between its neighbours gets a space on either side. -/
def standsApart (before : Option Char) (c : Char) (after : Option Char) : Bool :=
  c == ';' || c == '(' || c == ')' || (c == '=' && !isCompound before after)

theorem spacedChar_eq (before : Option Char) (c : Char) (after : Option Char) :
    spacedChar before c after = if standsApart before c after then [' ', c, ' '] else [c] := by
  unfold spacedChar standsApart
  by_cases hmark : c = ';' ∨ c = '(' ∨ c = ')'
  · have hapart : (c == ';' || c == '(' || c == ')' ||
        (c == '=' && !isCompound before after)) = true := by
      rcases hmark with rfl | rfl | rfl <;> rfl
    rw [if_pos hmark, if_pos hapart]
  · simp only [not_or] at hmark
    simp [hmark]

theorem standsApart_eq_true_iff {before after : Option Char} {c : Char} :
    standsApart before c after = true ↔
      (c = ';' ∨ c = '(' ∨ c = ')') ∨ c = '=' ∧ isCompound before after = false := by
  simp [standsApart, or_assoc]

theorem not_isBlank_of_standsApart {before after : Option Char} {c : Char}
    (h : standsApart before c after = true) : isBlank c = false := by
  rcases standsApart_eq_true_iff.mp h with (rfl | rfl | rfl) | ⟨rfl, -⟩ <;> rfl

/-- Line ends are blanks, and so are gaps. -/
theorem not_isLineEnd_of_not_isBlank {c : Char} (h : isBlank c = false) : isLineEnd c = false := by
  rw [Bool.eq_false_iff]
  intro hend
  have heq : c = '\n' ∨ c = '\r' := by simpa [isLineEnd] using hend
  rcases heq with rfl | rfl
  all_goals exact absurd h (by decide)

theorem not_isGap_of_not_isBlank {c : Char} (h : isBlank c = false) : isGap c = false := by
  rw [Bool.eq_false_iff]
  intro hgap
  have heq : c = ' ' ∨ c = '\t' := by simpa [isGap] using hgap
  rcases heq with rfl | rfl
  all_goals exact absurd h (by decide)

/-- An equals sign counts only as the neighbour of another. -/
theorem isCompound_of_ne {after : Option Char} (h : after ≠ some '=') (before : Option Char) :
    isCompound before after = before.any operatorChars.contains := by
  have hafter : (after == some '=') = false := by simpa using h
  rw [isCompound, hafter, Bool.or_false]

theorem setApart_cons (before : Option Char) (c : Char) (rest : List Char) :
    setApart before (c :: rest) =
      spacedChar before c rest.head? ++ setApart (some c) rest := rfl

theorem inked_spacedChar (before : Option Char) (c : Char) (after : Option Char) :
    inked (spacedChar before c after) = inked [c] := by
  rw [spacedChar_eq]
  split
  · rename_i hapart
    have hblank : isBlank ' ' = true := rfl
    simp [inked, hblank, not_isBlank_of_standsApart hapart]
  · rfl

/-- Setting marks apart adds blanks only. -/
theorem inked_setApart (before : Option Char) (text : List Char) :
    inked (setApart before text) = inked text := by
  induction text generalizing before with
  | nil => rfl
  | cons c rest ih =>
      rw [setApart_cons, inked_append, inked_spacedChar, ih, ← inked_append]
      rfl

theorem mem_setApart {before : Option Char} {text : List Char} {c : Char}
    (h : c ∈ setApart before text) : c ∈ text ∨ c = ' ' := by
  induction text generalizing before with
  | nil => exact .inl h
  | cons d rest ih =>
      rw [setApart_cons, List.mem_append, spacedChar_eq] at h
      rcases h with h | h
      · split at h
        · rcases List.mem_cons.mp h with rfl | h
          · exact .inr rfl
          rcases List.mem_cons.mp h with rfl | h
          · exact .inl (List.mem_cons_self ..)
          · exact .inr (List.mem_singleton.mp h)
        · exact .inl (by simp [List.mem_singleton.mp h])
      · exact (ih h).imp_left fun h => List.mem_cons_of_mem _ h

/-- Only whether it can be part of an operator counts of the character to the left. -/
theorem setApart_before {before other : Option Char}
    (h : before.any operatorChars.contains = other.any operatorChars.contains)
    (text : List Char) : setApart before text = setApart other text := by
  cases text with
  | nil => rfl
  | cons c rest =>
      rw [setApart_cons, setApart_cons, spacedChar_eq, spacedChar_eq, standsApart, standsApart,
        isCompound, isCompound, h]

/-- A character that is no mark ends the text for the marks in front of it. -/
theorem setApart_append_cons {e : Char} (plain : ∀ before after, standsApart before e after = false)
    (before : Option Char) (text rest : List Char) :
    setApart before (text ++ e :: rest) =
      setApart before text ++ e :: setApart (some e) rest := by
  induction text generalizing before with
  | nil =>
      show setApart before (e :: rest) = e :: setApart (some e) rest
      rw [setApart_cons, spacedChar_eq, plain, if_neg (by simp)]
      rfl
  | cons c text ih =>
      have hafter : spacedChar before c (text ++ e :: rest).head? =
          spacedChar before c text.head? := by
        cases text with
        | nil =>
            have he : e ≠ '=' := by
              rintro rfl
              exact absurd (plain none none) (by decide)
            rw [spacedChar_eq, spacedChar_eq, standsApart, standsApart,
              isCompound_of_ne (by simpa using he), isCompound_of_ne (by simp)]
        | cons d text => rfl
      rw [List.cons_append, setApart_cons, setApart_cons, hafter, ih, List.append_assoc]

/-! ### Lines -/

/-- Marks are set apart line by line. -/
theorem linewise_setApart : Linewise (setApart none) where
  nil := rfl
  full := by
    intro text hfull hnil
    cases text with
    | nil => exact hfull rfl
    | cons c rest =>
        rw [setApart_cons, spacedChar_eq, List.append_eq_nil_iff] at hnil
        split at hnil <;> exact absurd hnil.1 (by simp)
  free := by
    intro text hfree c hc
    rcases mem_setApart hc with hc | rfl
    · exact hfree c hc
    · rfl
  across := by
    intro text e rest he
    have heq : e = '\n' ∨ e = '\r' := by simpa [isLineEnd] using he
    have plain : ∀ before after, standsApart before e after = false := by
      intro before after
      rcases heq with rfl | rfl <;> rfl
    have hbehind : (some e).any operatorChars.contains = none.any operatorChars.contains := by
      rcases heq with rfl | rfl <;> rfl
    rw [setApart_append_cons plain, setApart_before hbehind]

end Spacing

theorem linewise_spaced :
    Text.Linewise fun text => Spacing.setApart none (Spacing.joinKeywords none 0 text) :=
  Spacing.linewise_setApart.comp Spacing.linewise_joinKeywords

namespace SourceLine

open Text

/-- The line with its text spaced. -/
def spaced (line : SourceLine) : SourceLine := { line with text := ShaderLink.spaced line.text }

/-- **Spacing a text spaces its lines.** -/
theorem read_eq_map (path text : String) : read path text = (split path text).map spaced := by
  have hlines := linewise_spaced.fileLines_eq text.toList
  rw [read, split, split, ShaderLink.spaced, String.toList_ofList, hlines, List.zipIdx_map,
    List.map_map, List.map_map]
  refine List.map_congr_left fun line hline => ?_
  simp [spaced, ShaderLink.spaced]

/--
**Spacing a text moves no line.**  The spaced text has as many lines as the text, with the numbers
from one on and no line end within any of them, and each is the line of the text spaced on its own.
-/
theorem lines_read (path text : String) :
    (read path text).length = (split path text).length ∧
      (read path text).map (·.number) = List.range' 1 (split path text).length ∧
      (∀ line ∈ read path text, line.file = path ∧ ∀ c ∈ line.text.toList, c ≠ '\r' ∧ c ≠ '\n') ∧
      (read path text).map (·.text) =
        (split path text).map fun line => ShaderLink.spaced line.text := by
  have hread := read_eq_map path text
  refine ⟨?_, ?_, ?_, ?_⟩
  · rw [hread, List.length_map]
  · rw [hread, List.map_map, ← List.length_map]
    show (split path text).map (·.number) = _
    rw [split, List.map_map, List.length_map, List.length_zipIdx]
    exact List.zipIdx_map_snd 1 _
  · intro line hline
    rw [hread] at hline
    obtain ⟨raw, hraw, rfl⟩ := List.mem_map.mp hline
    obtain ⟨⟨chars, number⟩, hchars, rfl⟩ := List.mem_map.mp hraw
    refine ⟨rfl, ?_⟩
    have hfree := (lined_fileLines text.toList).free chars (List.fst_mem_of_mem_zipIdx hchars)
    intro c hc
    have hend : isLineEnd c = false := by
      refine linewise_spaced.free hfree c ?_
      simpa [spaced, ShaderLink.spaced] using hc
    simpa [isLineEnd, and_comm] using hend
  · rw [hread, List.map_map]
    rfl

end SourceLine

end ShaderLink
