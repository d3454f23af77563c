/-
How many paths a text can name.

An included path is a word of its file, so a text names no more paths than it has
words.  Which words these are depends neither on the path of the file nor on the
settings: only comments are taken out, and a condition empties lines at most.

There are no more words than characters of the text.  Words are counted by their
characters that are no blanks, the ink of a text.  Taking out comments and cutting at
line breaks adds no ink, nor does a space around a mark; joining the words of a
keyword does, but a blank between them is given up for it.
-/
import Mathlib.Algebra.Order.BigOperators.Group.List
import Mathlib.Algebra.GroupWithZero.Nat
import Mathlib.Algebra.Order.Group.Nat
import ShaderLink.Proofs.Source.Outline
import ShaderLink.Proofs.Unit.Tokens

namespace ShaderLink

namespace Text

/-! ### Ink -/

/-- The number of characters that are no blanks. -/
def ink (text : List Char) : Nat := text.countP (!isBlank ·)

private theorem ink_eq_length (text : List Char) : ink text = (inked text).length :=
  List.countP_eq_length_filter

private theorem ink_le_length (text : List Char) : ink text ≤ text.length := List.countP_le_length

/-- A text has no more full fields than characters in them. -/
private theorem length_fullFields_le (text : List Char) :
    (fullFields isBlank text).length ≤ ink text := by
  unfold fullFields ink
  induction text with
  | nil => simp [fields]
  | cons c rest ih =>
      rw [List.countP_cons]
      unfold fields
      split
      · simp only [List.filter_cons, List.isEmpty_nil]
        simpa using Nat.le_add_right_of_le ih
      · rename_i hblank
        simp only [hblank, Bool.not_false, if_true]
        cases hfields : fields isBlank rest with
        | nil => exact absurd hfields (fields_ne_nil _ _)
        | cons field more =>
            rw [hfields, List.filter_cons] at ih
            have hmore : (more.filter (!·.isEmpty)).length ≤ rest.countP (!isBlank ·) := by
              split at ih
              · exact (Nat.le_add_right _ 1).trans (by simpa using ih)
              · exact ih
            simpa [consField] using hmore

private theorem length_words_le (text : String) : (words text).length ≤ ink text.toList := by
  rw [words, List.length_map]
  exact length_fullFields_le _

/-- The lines of a text have its ink between them. -/
private theorem sum_ink_linesBy_le (loneReturn : Bool) (text : List Char) :
    ((linesBy loneReturn text).map ink).sum ≤ ink text := by
  fun_induction linesBy loneReturn text with
  | case1 => simp
  | case2 rest ih =>
      have hbreak : ink ('\r' :: '\n' :: rest) = ink rest := rfl
      rw [hbreak]
      simpa [ink] using ih
  | case3 c rest _ hc ih =>
      have hrest : ink rest ≤ ink (c :: rest) := by
        rw [ink, ink, List.countP_cons]
        exact Nat.le_add_right _ _
      exact (by simpa [ink] using ih : _ ≤ ink rest).trans hrest
  | case4 c rest _ hc ih =>
      have hcons (line : List Char) : ink (c :: line) = ink line + ink [c] := by
        rw [ink, ink, ink, List.countP_cons, List.countP_singleton]
      rw [hcons rest]
      cases hlines : linesBy loneReturn rest with
      | nil =>
          simp only [consField, List.map_cons, List.map_nil, List.sum_cons, List.sum_nil]
          omega
      | cons first more =>
          rw [hlines, List.map_cons, List.sum_cons] at ih
          simp only [consField, List.map_cons, List.sum_cons, hcons first]
          omega

end Text

namespace Spacing

open Text (ink)

/-- **Spaced, a text has no more ink than it had characters.** -/
theorem ink_spaced_le (text : String) : ink (spaced text).toList ≤ text.toList.length := by
  rw [spaced, String.toList_ofList, Text.ink_eq_length, inked_setApart, ← Text.ink_eq_length]
  exact (Text.ink_le_length _).trans (length_joinKeywords_le none text.toList)

end Spacing

namespace Comment

/-- The texts without comments are those of lines wherever they stand. -/
theorem texts_stripFrom_congr (inside : Bool) {lines others : List SourceLine}
    (h : lines.map (·.text) = others.map (·.text)) :
    (stripFrom inside lines).lines.map (·.text) = (stripFrom inside others).lines.map (·.text) := by
  induction lines generalizing inside others with
  | nil =>
      rw [List.map_nil, eq_comm, List.map_eq_nil_iff] at h
      rw [h]
  | cons line rest ih =>
      cases others with
      | nil => exact absurd h (by simp)
      | cons other others =>
          obtain ⟨htext, hrest⟩ := List.cons.inj h
          simp only [stripFrom, stripLine, htext]
          cases hstrip : strip inside other.text.toList with
          | none => simp [hrest, htext]
          | some result => simp [ih result.2 hrest]

/-- Stripping comments adds no ink. -/
private theorem sum_ink_stripFrom_le (inside : Bool) (lines : List SourceLine) :
    ((stripFrom inside lines).lines.map fun line => Text.ink line.text.toList).sum ≤
      (lines.map fun line => Text.ink line.text.toList).sum := by
  induction lines generalizing inside with
  | nil => simp [stripFrom]
  | cons line rest ih =>
      simp only [stripFrom, stripLine]
      cases hstrip : strip inside line.text.toList with
      | none => exact le_refl _
      | some result =>
          have hline : Text.ink result.1 ≤ Text.ink line.text.toList :=
            (sublist_of_strip hstrip).countP_le
          have hrest := ih result.2
          simp only [LinePass.lines_cons, List.map_cons, List.sum_cons, String.toList_ofList]
          omega

end Comment

namespace ShaderUnit

/-! ### The words of a text -/

/-- The words of a text outside its comments, of which those of lines that are off never count. -/
def wordsOf (text : String) : List String :=
  (stripComments (SourceLine.read "" text)).lines.flatMap fun line => Text.words line.text

private theorem length_wordsOf_le (text : String) : (wordsOf text).length ≤ text.toList.length := by
  have hwords : (wordsOf text).length ≤
      ((stripComments (SourceLine.read "" text)).lines.map
        fun line => Text.ink line.text.toList).sum := by
    rw [wordsOf, List.length_flatMap]
    exact List.sum_le_sum fun line _ => Text.length_words_le line.text
  have hlines : ((SourceLine.read "" text).map fun line => Text.ink line.text.toList).sum ≤
      Text.ink (spaced text).toList := by
    refine le_trans (le_of_eq ?_) (Text.sum_ink_linesBy_le true _)
    rw [SourceLine.read, SourceLine.split, List.map_map, Text.fileLines]
    conv_rhs => rw [← List.zipIdx_map_fst 1 (Text.linesBy true _), List.map_map]
    simp [Function.comp_def]
  exact hwords.trans ((Comment.sum_ink_stripFrom_le _ _).trans
    (hlines.trans (Spacing.ink_spaced_le text)))

/-- Deciding conditions leaves a line as it is or empties it. -/
private theorem mem_words_of_evaluateFrom {file word : String} {state : Condition.State}
    {lines : List SourceLine}
    (h : word ∈ (Condition.evaluateFrom file state lines).lines.flatMap
      fun line => Text.words line.text) :
    word ∈ lines.flatMap fun line => Text.words line.text := by
  induction lines generalizing state with
  | nil =>
      unfold Condition.evaluateFrom at h
      split at h <;> exact h
  | cons line rest ih =>
      unfold Condition.evaluateFrom at h
      split at h
      · rw [LinePass.lines_cons, List.flatMap_cons] at h
        rw [List.flatMap_cons]
        rcases List.mem_append.mp h with hline | hrest
        · split at hline
          · exact List.mem_append_left _ hline
          · exact absurd hline List.not_mem_nil
        · exact List.mem_append_right _ (ih hrest)
      · exact h

private theorem mem_wordsOf {settings : Settings} {path text : String} {tokens : List Token}
    (h : tokensOfText settings path text = .ok tokens) {token : Token} (htoken : token ∈ tokens) :
    token.text ∈ wordsOf text := by
  unfold tokensOfText at h
  obtain ⟨stripped, hstripped, h⟩ := bind_eq_ok_iff.mp h
  obtain ⟨lines, hlines, h⟩ := bind_eq_ok_iff.mp h
  rw [← Except.ok.inj h] at htoken
  have hword : token.text ∈ lines.flatMap fun line => Text.words line.text := by
    obtain ⟨line, hline, hmem⟩ := List.mem_flatMap.mp htoken
    obtain ⟨word, hword, rfl⟩ := List.mem_map.mp hmem
    exact List.mem_flatMap.mpr ⟨line, hline, hword⟩
  rw [← LinePass.toExcept_eq_ok hlines] at hword
  have hstrippedWord := mem_words_of_evaluateFrom hword
  rw [← LinePass.toExcept_eq_ok hstripped] at hstrippedWord
  have htexts :
      (SourceLine.read path text).map (·.text) = (SourceLine.read "" text).map (·.text) := by
    simp [SourceLine.read, SourceLine.split, Function.comp_def]
  have hsame := Comment.texts_stripFrom_congr false htexts
  rw [wordsOf, stripComments, ← List.flatMap_map, ← hsame, List.flatMap_map]
  exact hstrippedWord

/-! ### The paths that a text can name -/

/-- The paths that a text can name: its words without quotes around them. -/
def pathsNamed (text : String) : List String :=
  (wordsOf text).map fun word => String.ofList (Text.stripEnds (· == '"') word.toList)

theorem length_pathsNamed_le (text : String) : (pathsNamed text).length ≤ text.toList.length := by
  rw [pathsNamed, List.length_map]
  exact length_wordsOf_le text

/-- **Whatever a file includes is named in its text.** -/
theorem includes_subset_pathsNamed {settings : Settings} {path text : String} {file : ShaderUnit}
    (h : ofText settings path text = .ok file) : file.includes ⊆ pathsNamed text := by
  intro other hother
  obtain ⟨statements, constants, ⟨tokens, htokens, hcuts⟩, -, rfl⟩ := ofText_eq_ok_iff.mp h
  obtain ⟨s, hs, hpath⟩ := List.mem_filterMap.mp hother
  have hmem : ∀ token ∈ s.tokens, token ∈ tokens := by
    intro token htoken
    have hall := @Reading.tokens_ofTokens path tokens (by rw [hcuts])
    rw [hcuts] at hall
    rw [← hall]
    exact List.mem_flatMap.mpr ⟨s, hs, htoken⟩
  unfold Statement.includedPath? at hpath
  split at hpath
  · rename_i keyword token
    rw [← Option.some.inj hpath]
    exact List.mem_map_of_mem (mem_wordsOf htokens (hmem token (by simp [Statement.tokens])))
  · exact absurd hpath (by simp)

end ShaderUnit

end ShaderLink
