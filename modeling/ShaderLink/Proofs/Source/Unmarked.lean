/-
Stripped lines have no comment marks.

A comment begins with a slash.  A slash or an asterisk in front of it would make a mark
with that slash, so what stands before a comment on its line is neither of the two, and no
mark comes about where the texts before and behind a comment meet.  This holds of the
first of several comments side by side as well, and a comment open from the line before
has nothing in front of it.

A line without marks is left alone.  So lines that were stripped can be stripped again,
and nothing changes.
-/
import ShaderLink.Proofs.Source.Outline
import ShaderLink.Proofs.Unit.Tokens

namespace ShaderLink

namespace Comment

variable {inside after : Bool} {text : List Char} {lines : List SourceLine}

/-- The marks of comments: of one to the end of the line, of the beginning of a block and of its
end. -/
def marks : List (List Char) := [['/', '/'], ['/', '*'], ['*', '/']]

/-- No mark stands anywhere in the text. -/
def Unmarked (text : List Char) : Prop := ∀ mark ∈ marks, ¬ mark <:+: text

/-! ### Texts without marks -/

private theorem isMark_eq_true_iff {c : Char} {rest : List Char} :
    isMark false c rest.head? = true ↔ ∃ mark ∈ marks, mark <+: c :: rest := by
  constructor
  · intro h
    rcases isMark_eq_true h with ⟨-, rfl, more, rfl⟩ | ⟨-, rfl, more, rfl⟩ | ⟨rfl, more, rfl⟩
    · exact ⟨['/', '/'], by simp [marks], more, rfl⟩
    · exact ⟨['/', '*'], by simp [marks], more, rfl⟩
    · exact ⟨['*', '/'], by simp [marks], more, rfl⟩
  · rintro ⟨mark, hmark, more, hmore⟩
    simp only [marks, List.mem_cons, List.not_mem_nil, or_false] at hmark
    rcases hmark with rfl | rfl | rfl
    all_goals
      obtain ⟨rfl, rfl⟩ := List.cons.inj hmore
      rfl

theorem unmarked_nil : Unmarked [] := by
  intro mark hmark hin
  rw [List.infix_nil] at hin
  rw [hin] at hmark
  exact absurd hmark (by simp [marks])

theorem unmarked_cons_iff {c : Char} {rest : List Char} :
    Unmarked (c :: rest) ↔ isMark false c rest.head? = false ∧ Unmarked rest := by
  rw [← Bool.not_eq_true, isMark_eq_true_iff]
  constructor
  · intro h
    refine ⟨?_, fun mark hmark hin => h mark hmark (List.infix_cons hin)⟩
    rintro ⟨mark, hmark, hfront⟩
    exact h mark hmark hfront.isInfix
  · rintro ⟨hfront, hrest⟩ mark hmark hin
    rcases List.infix_cons_iff.mp hin with hprefix | hin
    · exact hfront ⟨mark, hmark, hprefix⟩
    · exact hrest mark hmark hin

/-- Every mark has a slash. -/
theorem unmarked_of_free (free : '/' ∉ text) : Unmarked text := by
  intro mark hmark hin
  have hslash : '/' ∈ mark := by
    simp only [marks, List.mem_cons, List.not_mem_nil, or_false] at hmark
    rcases hmark with rfl | rfl | rfl
    all_goals simp
  exact free (hin.subset hslash)

/-- A character that is in no mark keeps the texts on either side of it apart. -/
theorem unmarked_append_cons {e : Char} (free : e ≠ '/' ∧ e ≠ '*') {rest : List Char} :
    Unmarked (text ++ e :: rest) ↔ Unmarked text ∧ Unmarked rest := by
  induction text with
  | nil =>
      have he : isMark false e rest.head? = false := by simp [isMark, free]
      rw [List.nil_append, unmarked_cons_iff]
      simp [he, unmarked_nil]
  | cons c text ih =>
      have hhead : isMark false c (text ++ e :: rest).head? = isMark false c text.head? := by
        cases text with
        | nil => simp [isMark, free]
        | cons d text => rfl
      rw [List.cons_append, unmarked_cons_iff, unmarked_cons_iff, ih, hhead, and_assoc]

/-- Setting marks apart brings no two characters together. -/
theorem unmarked_setApart (h : Unmarked text) (before : Option Char) :
    Unmarked (Spacing.setApart before text) := by
  induction text generalizing before with
  | nil => exact unmarked_nil
  | cons c rest ih =>
      obtain ⟨hmark, hrest⟩ := unmarked_cons_iff.mp h
      rw [Spacing.setApart_cons, Spacing.spacedChar_eq]
      split
      · rename_i hapart
        have hfree := free_of_standsApart hapart
        have hc : Unmarked ([c] ++ ' ' :: Spacing.setApart (some c) rest) := by
          refine (unmarked_append_cons (hfree ' ' (by simp))).mpr ⟨?_, ih hrest (some c)⟩
          exact unmarked_cons_iff.mpr ⟨by simp [isMark], unmarked_nil⟩
        exact unmarked_cons_iff.mpr ⟨by simp [isMark], hc⟩
      · have hnext : isMark false c (Spacing.setApart (some c) rest).head? = false := by
          rw [isMark_setApart]
          exact hmark
        exact unmarked_cons_iff.mpr ⟨hnext, ih hrest (some c)⟩

/-! ### What stripping leaves -/

/-- What is kept of a text begins as the text does, unless the text begins with a comment. -/
private theorem head?_kept {o : Outline} (h : outline false text = some (o, after)) :
    (kept o).head? = text.head? ∨ text.head? = some '/' := by
  rw [← head?_slashed h]
  cases o with
  | nil => exact .inl rfl
  | cons place more =>
      cases place with
      | none => exact .inr rfl
      | some c => exact .inl rfl

/-- A character that makes no mark with a slash makes none with anything. -/
private theorem isMark_of_slash {c : Char} (h : isMark false c (some '/') = false)
    (next : Option Char) : isMark false c next = false := by
  have hc : c ≠ '/' ∧ c ≠ '*' := by simpa [isMark] using h
  simp [isMark, hc]

private theorem unmarked_kept {o : Outline} (h : outline inside text = some (o, after)) :
    Unmarked (kept o) := by
  fun_induction outline inside text generalizing o with
  | case1 rest ih => exact ih h
  | case2 c rest _ ih => exact ih h
  | case3 =>
      obtain ⟨rfl, -⟩ := Prod.mk.inj (Option.some.inj h)
      exact unmarked_nil
  | case4 rest =>
      obtain ⟨rfl, -⟩ := Prod.mk.inj (Option.some.inj h)
      exact unmarked_nil
  | case5 rest ih =>
      obtain ⟨⟨o, behind⟩, hrest, heq⟩ := Option.map_eq_some_iff.mp h
      obtain ⟨rfl, rfl⟩ := Prod.mk.inj heq
      have hkept : Unmarked (kept o) := ih hrest
      exact hkept
  | case6 rest => exact absurd h (by simp)
  | case7 c rest line block stray ih =>
      obtain ⟨⟨o, behind⟩, hrest, heq⟩ := Option.map_eq_some_iff.mp h
      obtain ⟨rfl, rfl⟩ := Prod.mk.inj heq
      have hmark : isMark false c rest.head? = false :=
        isMark_eq_false (fun _ => line) (fun _ => block) stray
      rw [kept_some_cons, unmarked_cons_iff]
      refine ⟨?_, ih hrest⟩
      -- Where a comment is taken out behind the character, a slash stood there.
      rcases head?_kept hrest with hhead | hhead
      · rw [hhead]
        exact hmark
      · rw [hhead] at hmark
        exact isMark_of_slash hmark _
  | case8 =>
      obtain ⟨rfl, -⟩ := Prod.mk.inj (Option.some.inj h)
      exact unmarked_nil

theorem unmarked_of_mem_stripFrom (strips : (stripFrom inside lines).failure = none) :
    ∀ line ∈ (stripFrom inside lines).lines, Unmarked line.text.toList := by
  induction lines generalizing inside with
  | nil => exact fun line hline => absurd hline List.not_mem_nil
  | cons line rest ih =>
      cases ho : outline inside line.text.toList with
      | none =>
          rw [stripFrom, stripLine, strip_eq, ho] at strips
          exact absurd strips (by simp)
      | some found =>
          obtain ⟨o, after⟩ := found
          rw [stripFrom_cons (strip_of_outline ho)] at strips ⊢
          rw [LinePass.lines_cons]
          intro other hother
          rcases List.mem_cons.mp hother with rfl | hother
          · rw [String.toList_ofList]
            exact unmarked_kept ho
          · exact ih strips other hother

/-! ### Lines without marks are left alone -/

private theorem outline_of_unmarked (h : Unmarked text) :
    outline false text = some (text.map some, false) := by
  induction text with
  | nil => rfl
  | cons c rest ih =>
      obtain ⟨hmark, hrest⟩ := unmarked_cons_iff.mp h
      rw [outline_false_cons hmark, ih hrest]
      rfl

theorem stripFrom_of_unmarked (h : ∀ line ∈ lines, Unmarked line.text.toList) :
    stripFrom false lines = ⟨lines, none⟩ := by
  induction lines with
  | nil => rfl
  | cons line rest ih =>
      have hline := strip_of_outline (outline_of_unmarked (h line (List.mem_cons_self ..)))
      rw [stripFrom_cons hline, ih fun other hother => h other (List.mem_cons_of_mem _ hother),
        kept_map_some, String.ofList_toList]
      rfl

end Comment

/-- **Stripped lines have no marks in them, and stripping them again changes nothing.** -/
theorem stripComments_stripped {lines stripped : List SourceLine}
    (strips : (stripComments lines).toExcept = .ok stripped) :
    (∀ line ∈ stripped, Comment.Unmarked line.text.toList) ∧
      stripComments stripped = ⟨stripped, none⟩ := by
  obtain ⟨hfailure, rfl⟩ := LinePass.toExcept_eq_ok_iff.mp strips
  have hunmarked := Comment.unmarked_of_mem_stripFrom hfailure
  exact ⟨hunmarked, Comment.stripFrom_of_unmarked hunmarked⟩

/-- Lines with half of a mark on either side of a comment: with comments side by side, and with one
that is open from the line before and ends in front of an asterisk. -/
def meeting : List SourceLine :=
  SourceLine.split "a" "p / /* q */ /r\na/**//**/b /*/ c\nd **/* e // f\n"

def met : List SourceLine := [⟨"a", 1, "p /  /r"⟩, ⟨"a", 2, "ab "⟩, ⟨"a", 3, "* e "⟩]

theorem meeting_stripped :
    (stripComments meeting).toExcept = .ok met ∧
      (∀ line ∈ met, Comment.Unmarked line.text.toList) ∧ stripComments met = ⟨met, none⟩ := by
  have hstrips : (stripComments meeting).toExcept = .ok met :=
    LinePass.toExcept_eq_ok_iff.mpr (by decide +kernel)
  exact ⟨hstrips, stripComments_stripped hstrips⟩

end ShaderLink
