/-
Marks that are words.

A mark that is set apart stands between blanks, so it is a word of its own, and the text to
its left and the text to its right are spaced as if the other were not there
(`setApart_append_apart`).  Semicolons and parentheses are set apart wherever they stand,
and taking out comments leaves them their blanks: whatever a comment hides, no word holds
one of them together with another character (`SetOff.eq_singleton`).

With an equals sign it is different, for what stands beside it decides.  A word that is
spaced on its own stays one word exactly when none of its characters is set apart in it,
or it is the only one.
-/
import ShaderLink.Proofs.Lists
import ShaderLink.Proofs.Source.Outline
import ShaderLink.Proofs.Text.Fields

namespace ShaderLink

namespace Spacing

open Text

/-! ### Beside a mark that is set apart -/

theorem fullFields_apart {c : Char} (hc : isBlank c = false) (text rest : List Char) :
    fullFields isBlank (text ++ ' ' :: c :: ' ' :: rest) =
      fullFields isBlank text ++ [c] :: fullFields isBlank rest := by
  have hspace : isBlank ' ' = true := rfl
  have hmark : fullFields isBlank [c] = [[c]] := by
    rw [fullFields, fields_of_free (by simpa using hc)]
    rfl
  rw [fullFields_append_separator hspace]
  refine congrArg _ ?_
  rw [show c :: ' ' :: rest = [c] ++ ' ' :: rest from rfl, fullFields_append_separator hspace, hmark]
  rfl

/-- What stands behind a mark that is set apart changes nothing in front of it: it is no equals
sign, or the character in front of it is none. -/
private theorem standsApart_of_apart {d c : Char} {after : Option Char}
    (h : standsApart (some d) c after = true) (before : Option Char) :
    standsApart before d (some c) = standsApart before d none := by
  by_cases hc : c = '='
  · have hd : d ≠ '=' := by
      rintro rfl
      rw [hc] at h
      exact absurd h (by simp [standsApart, isCompound, operatorChars])
    have hsign : (d == '=') = false := by simpa using hd
    rw [standsApart, standsApart, hsign, Bool.false_and, Bool.false_and]
  · rw [standsApart, standsApart, isCompound_of_ne (by simpa using hc), isCompound_of_ne (by simp)]

/-- **A mark that is set apart cuts the text in two that are spaced each on its own.** -/
theorem setApart_append_apart {before : Option Char} {text rest : List Char} {c : Char}
    (h : standsApart (text.getLast?.or before) c rest.head? = true) :
    setApart before (text ++ c :: rest) =
      setApart before text ++ ' ' :: c :: ' ' :: setApart (some c) rest := by
  induction text generalizing before with
  | nil =>
      show setApart before (c :: rest) = ' ' :: c :: ' ' :: setApart (some c) rest
      have hc : standsApart before c rest.head? = true := h
      rw [setApart_cons, spacedChar_eq, if_pos hc]
      rfl
  | cons d text ih =>
      rw [getLast?_cons_or] at h
      have hfirst : spacedChar before d (text ++ c :: rest).head? =
          spacedChar before d text.head? := by
        cases text with
        | nil =>
            have hapart : standsApart (some d) c rest.head? = true := h
            rw [spacedChar_eq, spacedChar_eq]
            exact congrArg (if · = true then _ else _) (standsApart_of_apart hapart before)
        | cons e text => rfl
      rw [List.cons_append, setApart_cons, setApart_cons, hfirst, ih h, List.append_assoc]

/-- Where no character is set apart nothing is done. -/
private theorem setApart_eq_self {before : Option Char} {text : List Char}
    (plain : ∀ left c right, text = left ++ c :: right →
      standsApart (left.getLast?.or before) c right.head? = false) :
    setApart before text = text := by
  induction text generalizing before with
  | nil => rfl
  | cons c rest ih =>
      have hc : standsApart before c rest.head? = false := plain [] c rest rfl
      rw [setApart_cons, spacedChar_eq, hc, if_neg (by simp), List.singleton_append, ih]
      intro left d right heq
      rw [← getLast?_cons_or]
      exact plain (c :: left) d right (by rw [heq]; rfl)

/-- **A word stays one when it is spaced exactly when every character that is set apart in it is the
whole of it.** -/
theorem fullFields_setApart_iff {text : List Char} (full : text ≠ [])
    (free : ∀ c ∈ text, isBlank c = false) :
    fullFields isBlank (setApart none text) = [text] ↔
      ∀ left c right, text = left ++ c :: right →
        standsApart left.getLast? c right.head? = true → text = [c] := by
  constructor
  · intro hwhole left c right htext hapart
    rw [htext, setApart_append_apart (by simpa using hapart),
      fullFields_apart (not_isBlank_of_standsApart hapart), ← htext] at hwhole
    have hmem : [c] ∈ [text] := by
      rw [← hwhole]
      exact List.mem_append_right _ (List.mem_cons_self ..)
    exact (List.mem_singleton.mp hmem).symm
  · intro hapart
    by_cases hmark : ∃ left c right, text = left ++ c :: right ∧
        standsApart left.getLast? c right.head? = true
    · obtain ⟨left, c, right, htext, hc⟩ := hmark
      have hwhole := hapart left c right htext hc
      have hfields := fullFields_apart (not_isBlank_of_standsApart hc) (setApart none left)
        (setApart (some c) right)
      rw [← setApart_append_apart (by simpa using hc), ← htext] at hfields
      -- the mark is all there is, so nothing stands on either side of it
      rw [htext, List.append_eq_singleton_iff] at hwhole
      rcases hwhole with ⟨rfl, hright⟩ | ⟨rfl, hright⟩
      · rw [(List.cons.inj hright).2] at hfields htext
        rw [hfields, htext]
        rfl
      · exact absurd hright (List.cons_ne_nil _ _)
    · have hplain : setApart none text = text := by
        refine setApart_eq_self fun left c right htext => ?_
        rw [Option.or_none, Bool.eq_false_iff]
        exact fun hc => hmark ⟨left, c, right, htext, hc⟩
      rw [hplain, fullFields, fields_of_free free]
      simpa using full

/-! ### Marks that stand alone -/

/-- The marks that are set apart wherever they stand. -/
def standsAlone (c : Char) : Bool := c == ';' || c == '(' || c == ')'

private theorem standsApart_of_standsAlone {c : Char} (h : standsAlone c = true)
    (before after : Option Char) : standsApart before c after = true := by
  show (standsAlone c || _) = true
  rw [h, Bool.true_or]

/-- A text in which every mark that stands alone has a blank of its own on either side. -/
inductive SetOff : List Char → Prop where
  | nil : SetOff []
  | plain {c : Char} {rest : List Char} (plain : standsAlone c = false) (more : SetOff rest) :
      SetOff (c :: rest)
  | mark {c : Char} {rest : List Char} (alone : standsAlone c = true) (more : SetOff rest) :
      SetOff (' ' :: c :: ' ' :: rest)

private theorem SetOff.spacedChar {rest : List Char} (h : SetOff rest) (before : Option Char)
    (c : Char) (after : Option Char) : SetOff (Spacing.spacedChar before c after ++ rest) := by
  rw [spacedChar_eq]
  cases halone : standsAlone c with
  | true =>
      rw [if_pos (standsApart_of_standsAlone halone before after)]
      exact .mark halone h
  | false =>
      split
      · exact .plain rfl (.plain halone (.plain rfl h))
      · exact .plain halone h

theorem setOff_setApart (before : Option Char) (text : List Char) :
    SetOff (setApart before text) := by
  induction text generalizing before with
  | nil => exact .nil
  | cons c rest ih => exact (ih (some c)).spacedChar before c rest.head?

/-- Comments that are taken out of a spaced text leave its marks their blanks. -/
private theorem setOff_kept (slash : Option Char) (o : Comment.Outline) :
    SetOff (Comment.kept (Comment.setApartOutline slash o)) := by
  induction o generalizing slash with
  | nil => exact .nil
  | cons place rest ih =>
      cases place with
      | none => exact ih (some '/')
      | some c =>
          rw [Comment.setApartOutline, Comment.kept_append, Comment.kept_map_some]
          exact (ih (some c)).spacedChar slash c _

/-- The lines of a text that is spaced and stripped then have their marks set off. -/
theorem setOff_of_mem_stripFrom {inside : Bool} {lines : List SourceLine}
    (strips : (Comment.stripFrom inside (lines.map SourceLine.spaced)).failure = none) :
    ∀ line ∈ (Comment.stripFrom inside (lines.map SourceLine.spaced)).lines,
      SetOff line.text.toList := by
  induction lines generalizing inside with
  | nil => exact fun line hline => absurd hline List.not_mem_nil
  | cons line rest ih =>
      have hspaced : line.spaced.text.toList =
          setApart none (joinKeywords none 0 line.text.toList) := String.toList_ofList
      have houtline := Comment.outline_setApart none inside (joinKeywords none 0 line.text.toList)
      rw [← hspaced] at houtline
      rw [List.map_cons] at strips ⊢
      cases ho : Comment.outline inside (joinKeywords none 0 line.text.toList) with
      | none =>
          rw [Comment.stripFrom, Comment.stripLine, Comment.strip_eq, houtline, ho] at strips
          exact absurd strips (by simp)
      | some found =>
          rw [ho] at houtline
          rw [Comment.stripFrom_cons (Comment.strip_of_outline houtline)] at strips ⊢
          rw [LinePass.lines_cons]
          intro other hother
          rcases List.mem_cons.mp hother with rfl | hother
          · rw [String.toList_ofList]
            exact setOff_kept _ _
          · exact ih strips other hother

/-- The first field has no such mark, for a blank stands in front of each; of the others, what has
one is the mark alone. -/
private theorem SetOff.exists_fields {text : List Char} (h : SetOff text) :
    ∃ first more, fields isBlank text = first :: more ∧ (∀ c ∈ first, standsAlone c = false) ∧
      ∀ field ∈ more, ∀ c ∈ field, standsAlone c = true → field = [c] := by
  induction h with
  | nil => exact ⟨[], [], rfl, by simp, by simp⟩
  | @plain c rest hc _ ih =>
      obtain ⟨first, more, hfields, hfirst, hmore⟩ := ih
      cases hblank : isBlank c with
      | true =>
          refine ⟨[], first :: more, by rw [fields, if_pos hblank, hfields], by simp, ?_⟩
          refine List.forall_mem_cons.mpr ⟨fun d hd halone => ?_, hmore⟩
          rw [hfirst d hd] at halone
          exact absurd halone (by simp)
      | false =>
          refine ⟨c :: first, more, by rw [fields, if_neg (by simp [hblank]), hfields]; rfl, ?_,
            hmore⟩
          exact List.forall_mem_cons.mpr ⟨hc, hfirst⟩
  | @mark c rest halone _ ih =>
      obtain ⟨first, more, hfields, hfirst, hmore⟩ := ih
      have hspace : isBlank ' ' = true := rfl
      have hc : isBlank c = false :=
        not_isBlank_of_standsApart (standsApart_of_standsAlone halone none none)
      refine ⟨[], [c] :: first :: more, ?_, by simp, ?_⟩
      · rw [fields, if_pos hspace, fields, if_neg (by simp [hc]), fields, if_pos hspace, hfields]
        rfl
      · refine List.forall_mem_cons.mpr ⟨by simp, ?_⟩
        refine List.forall_mem_cons.mpr ⟨fun d hd hmark => ?_, hmore⟩
        rw [hfirst d hd] at hmark
        exact absurd hmark (by simp)

/-- **A word that holds a mark which stands alone is this mark.** -/
theorem SetOff.eq_singleton {text : List Char} (h : SetOff text) {field : List Char}
    (hfield : field ∈ fullFields isBlank text) {c : Char} (hc : c ∈ field)
    (alone : standsAlone c = true) : field = [c] := by
  obtain ⟨first, more, hfields, hfirst, hmore⟩ := h.exists_fields
  have hmem : field ∈ first :: more := by
    rw [← hfields]
    exact (List.mem_filter.mp hfield).1
  rcases List.mem_cons.mp hmem with rfl | hmem
  · rw [hfirst c hc] at alone
    exact absurd alone (by simp)
  · exact hmore field hmem c hc alone

end Spacing

end ShaderLink
