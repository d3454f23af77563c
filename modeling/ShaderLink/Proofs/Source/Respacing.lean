/-
Spacing a text again.

A spaced text has no keyword left to join: a joined keyword is no two words, and the blanks
that are put beside a mark bring no two words together, for the mark stands between them.
And a mark is set apart in it exactly when it has its blanks already, so more blanks are
all that spacing it again adds.  Its words stay what they are.
-/
import ShaderLink.Proofs.Source.Marks

namespace ShaderLink

namespace Spacing

open Text

variable {before : Option Char} {text : List Char}

/-! ### Texts without keywords -/

/-- No keyword starts in a text behind a character. -/
def KeywordFree : Option Char → List Char → Prop
  | _, [] => True
  | before, c :: rest => startsKeyword before (c :: rest) = false ∧ KeywordFree (some c) rest

theorem KeywordFree.joinKeywords_eq (h : KeywordFree before text) :
    joinKeywords before 0 text = text := by
  induction text generalizing before with
  | nil => rfl
  | cons c rest ih => rw [joinKeywords_cons h.1, ih h.2]

/-- Only whether a word may begin behind it counts of the character to the left. -/
private theorem KeywordFree.of_edge {other : Option Char}
    (edge : isWordEdge before = isWordEdge other) (h : KeywordFree before text) :
    KeywordFree other text := by
  cases text with
  | nil => trivial
  | cons c rest =>
      refine ⟨?_, h.2⟩
      rw [startsKeyword, ← edge]
      exact h.1

/-- No keyword starts within characters that are not its first. -/
private theorem KeywordFree.append_free {front : List Char} {last : Char}
    (free : ∀ c ∈ front, c ≠ 'c') (ends : front.getLast? = some last)
    (h : KeywordFree (some last) text) (before : Option Char) :
    KeywordFree before (front ++ text) := by
  induction front generalizing before with
  | nil => exact absurd ends (by simp)
  | cons c front ih =>
      refine ⟨startsKeyword_cons_of_ne (free c (List.mem_cons_self ..)) before _, ?_⟩
      cases front with
      | nil =>
          rw [← Option.some.inj ends] at h
          exact h
      | cons d front =>
          exact ih (fun e he => free e (List.mem_cons_of_mem _ he)) (by simpa using ends) _

/-- No keyword starts in a text whose gaps are all behind its other characters: the words of a keyword
have a gap between them. -/
theorem KeywordFree.of_gaps (h : ∀ c ∈ text.dropWhile (!isGap ·), isGap c = true)
    (before : Option Char) : KeywordFree before text := by
  induction text generalizing before with
  | nil => trivial
  | cons c rest ih =>
      refine ⟨?_, ih ?_ (some c)⟩
      · rw [Bool.eq_false_iff]
        intro hstarts
        obtain ⟨-, kind, words, after, htext, ⟨gap, hne, hgap, rfl⟩, -⟩ :=
          startsKeyword_eq_true_iff.mp hstarts
        obtain ⟨g, gap, rfl⟩ := List.exists_cons_of_ne_nil hne
        have hfirst : ∀ d ∈ "const".toList, (!isGap d) = true := List.all_eq_true.mp rfl
        have hg : isGap g = true := hgap g (List.mem_cons_self ..)
        -- the second word stands behind the first gap
        rw [htext, List.append_assoc, List.dropWhile_append_of_pos hfirst, List.append_assoc,
          List.cons_append, List.dropWhile_cons_of_neg (by simp [hg])] at h
        have hletter : ∃ d ∈ kind.keyword.toList, isGap d = false := by
          cases kind with
          | int => exact ⟨'i', by decide, by decide⟩
          | float => exact ⟨'f', by decide, by decide⟩
        obtain ⟨d, hd, hplain⟩ := hletter
        rw [h d (by simp [hd])] at hplain
        exact absurd hplain (by simp)
      · intro d hd
        by_cases hc : isGap c = true
        · rw [List.dropWhile_cons_of_neg (by simp [hc])] at h
          exact h d (List.mem_cons_of_mem c ((List.dropWhile_sublist _).subset hd))
        · rw [List.dropWhile_cons_of_pos (by simpa using hc)] at h
          exact h d hd

/-! ### Joining leaves no keyword -/

private theorem ne_of_isKeywordChar {c : Char} (h : isKeywordChar c = true) : c ≠ 'c' := by
  rintro rfl
  exact absurd h (by decide)

/-- Characters with which no keyword starts stand in front of the text as they do in front of what
comes of it. -/
private theorem exists_of_joinKeywords_eq {front behind : List Char} (free : ∀ c ∈ front, c ≠ 'c')
    (h : joinKeywords before 0 text = front ++ behind) :
    ∃ rest, text = front ++ rest ∧ rest.head? = behind.head? := by
  induction front generalizing before text with
  | nil => exact ⟨text, rfl, by rw [← head?_joinKeywords before, h, List.nil_append]⟩
  | cons c front ih =>
      cases text with
      | nil => exact absurd h.symm (List.cons_ne_nil _ _)
      | cons d text =>
          have hhead := head?_joinKeywords before (d :: text)
          rw [h, List.cons_append, List.head?_cons, List.head?_cons, Option.some.injEq] at hhead
          have hd := free c (List.mem_cons_self ..)
          rw [hhead] at hd
          rw [joinKeywords_cons (startsKeyword_cons_of_ne hd before text), List.cons_append] at h
          obtain ⟨rest, rfl, hrest⟩ :=
            ih (fun e he => free e (List.mem_cons_of_mem _ he)) (List.cons.inj h).2
          exact ⟨rest, by rw [hhead]; rfl, hrest⟩

private theorem startsKeyword_joined (kind : ConstKind) (before : Option Char) (rest : List Char) :
    startsKeyword before ((joined kind).toList ++ rest) = false := by
  have hnone : constWords? ((joined kind).toList ++ rest) = none := by
    cases kind <;> rfl
  rw [startsKeyword, hnone]
  exact Bool.and_false _

private theorem keywordFree_joinKeywords (before : Option Char) (text : List Char) :
    KeywordFree before (joinKeywords before 0 text) := by
  induction before, text using keywordInduction with
  | nil before => trivial
  | keyword before kind words rest hbefore hspells hrest ih =>
      have hstarts := startsKeyword_joined kind before (joinKeywords (some 't') 0 rest)
      rw [joinKeywords_words hspells hbefore hrest]
      have htail : ∃ tail, (joined kind).toList = 'c' :: tail ∧ tail.getLast? = some 't' ∧
          tail.all (· != 'c') = true := by
        cases kind with
        | int => exact ⟨"onst_int".toList, rfl, rfl, rfl⟩
        | float => exact ⟨"onst_float".toList, rfl, rfl, rfl⟩
      obtain ⟨tail, hjoined, hlast, hfree⟩ := htail
      rw [hjoined] at hstarts ⊢
      exact ⟨hstarts, ih.append_free (by simpa using hfree) hlast (some 'c')⟩
  | cons before c rest hstarts ih =>
      rw [joinKeywords_cons hstarts]
      refine ⟨?_, ih⟩
      -- a keyword that starts here in what comes of the text starts here in the text
      rw [Bool.eq_false_iff] at hstarts ⊢
      intro h
      obtain ⟨hbefore, kind, words, after, heq, hspells, hafter⟩ := startsKeyword_eq_true_iff.mp h
      obtain ⟨tail, hwords, -, htail⟩ := hspells.eq_cons
      rw [hwords] at heq
      obtain ⟨rfl, hrest⟩ := List.cons.inj heq
      obtain ⟨behind, rfl, hhead⟩ := exists_of_joinKeywords_eq
        (fun d hd => ne_of_isKeywordChar (htail d hd)) hrest
      refine hstarts (startsKeyword_eq_true_iff.mpr
        ⟨hbefore, kind, words, behind, by rw [hwords]; rfl, hspells, ?_⟩)
      rw [hhead]
      exact hafter

/-! ### Nor does setting marks apart make one -/

private theorem isWordEdge_of_standsApart {c : Char} {before after : Option Char}
    (h : standsApart before c after = true) : isWordEdge (some c) = true := by
  rcases standsApart_eq_true_iff.mp h with (rfl | rfl | rfl) | ⟨rfl, -⟩ <;> decide

private theorem standsApart_of_isKeywordChar {c : Char} (h : isKeywordChar c = true)
    (before after : Option Char) : standsApart before c after = false := by
  rw [Bool.eq_false_iff]
  intro hapart
  rcases standsApart_eq_true_iff.mp hapart with (rfl | rfl | rfl) | ⟨rfl, -⟩
  all_goals exact absurd h (by decide)

private theorem isWordEdge_setApart (before : Option Char) (text : List Char) :
    isWordEdge (setApart before text).head? = isWordEdge text.head? := by
  cases text with
  | nil => rfl
  | cons c rest =>
      rw [setApart_cons, spacedChar_eq]
      split
      · rename_i hapart
        exact (isWordEdge_of_standsApart hapart).symm
      · rfl

/-- Characters that are no marks stand in front of the text as they do in front of what comes of it,
unless the last of them is a blank that belongs to a mark. -/
private theorem exists_of_setApart_eq {front behind : List Char} {last : Char}
    (plain : ∀ c ∈ front, ∀ before after, standsApart before c after = false)
    (ends : front.getLast? = some last) (full : isBlank last = false)
    (h : setApart before text = front ++ behind) :
    ∃ rest, text = front ++ rest ∧ isWordEdge rest.head? = isWordEdge behind.head? := by
  induction front generalizing before text with
  | nil => exact absurd ends (by simp)
  | cons c front ih =>
      have hfront := fun d hd => plain d (List.mem_cons_of_mem c hd)
      cases text with
      | nil => exact absurd h.symm (List.cons_ne_nil _ _)
      | cons d text =>
          rw [setApart_cons, spacedChar_eq] at h
          split at h
          · rename_i hapart
            obtain ⟨rfl, hrest⟩ := List.cons.inj h
            cases front with
            | nil =>
                rw [← Option.some.inj ends] at full
                exact absurd full (by decide)
            | cons e front =>
                obtain ⟨rfl, -⟩ := List.cons.inj hrest
                rw [hfront _ (List.mem_cons_self ..)] at hapart
                exact absurd hapart (by simp)
          · obtain ⟨rfl, hrest⟩ := List.cons.inj h
            rw [List.append_eq] at hrest
            cases front with
            | nil =>
                have hbehind : Spacing.setApart (some d) text = behind := hrest
                exact ⟨text, rfl, by rw [← isWordEdge_setApart (some d), hbehind]⟩
            | cons e front =>
                obtain ⟨rest, rfl, hedge⟩ := ih hfront (by simpa using ends) hrest
                exact ⟨rest, rfl, hedge⟩

private theorem startsKeyword_of_setApart {left : Option Char}
    (h : startsKeyword left (setApart before text) = true) : startsKeyword left text = true := by
  obtain ⟨hleft, kind, words, after, heq, hspells, hafter⟩ := startsKeyword_eq_true_iff.mp h
  obtain ⟨tail, hwords, hlast, htail⟩ := hspells.eq_cons
  have hplain : ∀ c ∈ words, ∀ before after, standsApart before c after = false := by
    rw [hwords]
    refine List.forall_mem_cons.mpr ⟨fun _ _ => rfl, fun c hc => ?_⟩
    exact standsApart_of_isKeywordChar (htail c hc)
  have hends : words.getLast? = some 't' := by
    rw [hwords, List.getLast?_cons, hlast]
    rfl
  obtain ⟨rest, rfl, hedge⟩ := exists_of_setApart_eq hplain hends (by decide) heq
  exact startsKeyword_eq_true_iff.mpr ⟨hleft, kind, words, rest, rfl, hspells, hedge.trans hafter⟩

private theorem KeywordFree.setApart (h : KeywordFree before text) :
    KeywordFree before (setApart before text) := by
  induction text generalizing before with
  | nil => trivial
  | cons c rest ih =>
      have hrest := ih h.2
      have hc : startsKeyword before (Spacing.setApart before (c :: rest)) = false := by
        rw [Bool.eq_false_iff]
        intro hstarts
        have hfirst := startsKeyword_of_setApart hstarts
        rw [h.1] at hfirst
        exact absurd hfirst (by simp)
      rw [setApart_cons, spacedChar_eq] at hc ⊢
      split
      · rename_i hapart
        have hedge := isWordEdge_of_standsApart hapart
        have hmark : c ≠ 'c' := by
          rintro rfl
          exact absurd hapart (by simp [standsApart])
        exact ⟨startsKeyword_cons_of_ne (by decide) _ _, startsKeyword_cons_of_ne hmark _ _,
          startsKeyword_cons_of_ne (by decide) _ _, hrest.of_edge hedge⟩
      · rename_i hplain
        rw [if_neg hplain] at hc
        exact ⟨hc, hrest⟩

/-! ### Setting marks apart again -/

private theorem setApart_before_of_ne (h : text.head? ≠ some '=') (before other : Option Char) :
    setApart before text = setApart other text := by
  cases text with
  | nil => rfl
  | cons c rest =>
      have hc : (c == '=') = false := by simpa using h
      rw [setApart_cons, setApart_cons, spacedChar_eq, spacedChar_eq, standsApart, standsApart, hc,
        Bool.false_and, Bool.false_and]

private theorem head?_setApart_ne {c : Char} (h : text.head? ≠ some c) (hc : isBlank c = false)
    (before : Option Char) : (setApart before text).head? ≠ some c := by
  cases text with
  | nil => exact h
  | cons d rest =>
      rw [setApart_cons, spacedChar_eq]
      split
      · rintro heq
        rw [← Option.some.inj heq] at hc
        exact absurd hc (by decide)
      · exact h

/-- What stands behind a mark that is set apart takes no notice of it. -/
private theorem setApart_behind {c : Char} {rest : List Char}
    (hapart : standsApart before c rest.head? = true) :
    setApart (some ' ') (setApart (some c) rest) = setApart (some c) (setApart (some c) rest) := by
  rcases standsApart_eq_true_iff.mp hapart with hmark | ⟨rfl, hsign⟩
  · refine setApart_before ?_ _
    rcases hmark with rfl | rfl | rfl <;> rfl
  · have hrest : rest.head? ≠ some '=' := by
      intro hhead
      rw [isCompound, hhead] at hsign
      exact absurd hsign (by simp)
    exact setApart_before_of_ne (head?_setApart_ne hrest (by decide) _) _ _

/-- A mark that is set apart is so between blanks. -/
private theorem standsApart_between {c : Char} {after : Option Char}
    (h : standsApart before c after = true) : standsApart (some ' ') c (some ' ') = true := by
  rcases standsApart_eq_true_iff.mp h with (rfl | rfl | rfl) | ⟨rfl, -⟩ <;> rfl

/-- A character that is not set apart is not when those behind it are. -/
private theorem standsApart_setApart {c : Char} {rest : List Char}
    (h : standsApart before c rest.head? = false) :
    standsApart before c (setApart (some c) rest).head? = false := by
  by_cases hc : c = '='
  · cases rest with
    | nil => exact h
    | cons d rest =>
        by_cases hd : d = '='
        · -- an equals sign behind another is part of an operator, so it stays beside it
          rw [hc, hd, setApart_cons, spacedChar_eq]
          have hsign : standsApart (some '=') '=' rest.head? = false := rfl
          rw [hsign, if_neg (by simp)]
          show standsApart before '=' (some '=') = false
          rw [standsApart, isCompound]
          simp
        · have hhead : (d :: rest).head? ≠ some '=' := by simpa using hd
          have hne := head?_setApart_ne hhead (show isBlank '=' = false from rfl) (some c)
          rw [standsApart, isCompound_of_ne hne]
          rwa [standsApart, isCompound_of_ne hhead] at h
  · have hsign : (c == '=') = false := by simpa using hc
    rw [standsApart, hsign, Bool.false_and] at h ⊢
    exact h

/-- **Marks that are set apart again get blanks beside their blanks only.** -/
theorem starts_setApart_setApart (fresh : Bool) (before : Option Char) (text : List Char) :
    starts isBlank fresh (setApart before (setApart before text)) =
      starts isBlank fresh (setApart before text) := by
  induction text generalizing fresh before with
  | nil => rfl
  | cons c rest ih =>
      have hspace : isBlank ' ' = true := rfl
      cases hapart : standsApart before c rest.head? with
      | true =>
          have hc := not_isBlank_of_standsApart hapart
          have hmore : setApart before (c :: rest) = [' '] ++ c :: ' ' :: setApart (some c) rest := by
            rw [setApart_cons, spacedChar_eq, if_pos hapart]
            rfl
          have hagain : setApart before (setApart before (c :: rest)) =
              ' ' :: ' ' :: c :: ' ' :: ' ' :: setApart (some c) (setApart (some c) rest) := by
            have hbetween : standsApart ([' '].getLast?.or before) c
                (' ' :: setApart (some c) rest).head? = true := standsApart_between hapart
            rw [hmore, setApart_append_apart hbetween, ← setApart_behind hapart]
            rfl
          rw [hagain, hmore, List.singleton_append]
          simp only [starts_of_separates hspace, starts_of_not_separates hc, ih]
      | false =>
          have hmore : setApart before (c :: rest) = c :: setApart (some c) rest := by
            rw [setApart_cons, spacedChar_eq, hapart]
            rfl
          have hagain : setApart before (setApart before (c :: rest)) =
              c :: setApart (some c) (setApart (some c) rest) := by
            rw [hmore, setApart_cons, spacedChar_eq, standsApart_setApart hapart]
            rfl
          rw [hagain, hmore]
          cases hc : isBlank c with
          | true => rw [starts_of_separates hc, starts_of_separates hc, ih]
          | false => rw [starts_of_not_separates hc, starts_of_not_separates hc, ih]

end Spacing

/-- **Spacing a text again does not change its words.** -/
theorem words_spaced_spaced (text : String) :
    Text.words (spaced (spaced text)) = Text.words (spaced text) := by
  have hfree := (Spacing.keywordFree_joinKeywords none text.toList).setApart
  rw [Text.words_eq_iff, spaced, spaced, String.toList_ofList, String.toList_ofList,
    hfree.joinKeywords_eq]
  exact Spacing.starts_setApart_setApart true none _

/-- **The tokens of a text are those of the spaced text.** -/
theorem tokenize_read_spaced (path text : String) :
    tokenize (SourceLine.read path (spaced text)) = tokenize (SourceLine.read path text) := by
  have hread : SourceLine.read path (spaced text) =
      (SourceLine.read path text).map SourceLine.spaced := SourceLine.read_eq_map path (spaced text)
  have htokens (line : SourceLine) : line.spaced.spaced.tokens = line.spaced.tokens :=
    congrArg (List.map _) (words_spaced_spaced line.text)
  rw [hread, SourceLine.read_eq_map, tokenize, tokenize, List.map_map, List.flatMap_map,
    List.flatMap_map]
  exact congrArg (fun f => List.flatMap f _) (funext htokens)

end ShaderLink
