/-
Joining the words of a keyword.

`joinKeywords` goes on behind a keyword with a count of the characters that it still has
to pass over.  What it does is said here without the count: a text goes on with the words
of a keyword or with another character, and `keywordInduction` takes it apart so.  The
words hold nothing but letters of their own and gaps, so neither a line end nor a comment
can stand within them.
-/
import ShaderLink.Proofs.Text.Lines
import ShaderLink.Source.Spacing

namespace ShaderLink
namespace Spacing

open Text

/-! ### The words of a keyword -/

/-- The two words that declare a constant of a kind, with a gap between them. -/
def Spells (kind : ConstKind) (words : List Char) : Prop :=
  ∃ gap, gap ≠ [] ∧ (∀ c ∈ gap, isGap c = true) ∧
    words = "const".toList ++ (gap ++ kind.keyword.toList)

/-- The characters of the two words behind the first of them. -/
def isKeywordChar (c : Char) : Bool := isGap c || "onstifla".toList.contains c

theorem Spells.eq_cons {kind : ConstKind} {words : List Char} (h : Spells kind words) :
    ∃ tail, words = 'c' :: tail ∧ tail.getLast? = some 't' ∧
      ∀ d ∈ tail, isKeywordChar d = true := by
  obtain ⟨gap, -, hgap, rfl⟩ := h
  refine ⟨"onst".toList ++ (gap ++ kind.keyword.toList), rfl, ?_, ?_⟩
  · rw [← List.append_assoc, List.getLast?_append]
    cases kind <;> rfl
  · intro d hd
    rw [List.mem_append, List.mem_append] at hd
    rcases hd with hd | hd | hd
    · exact List.all_eq_true.mp (by decide : "onst".toList.all isKeywordChar = true) d hd
    · rw [isKeywordChar, hgap d hd]
      rfl
    · have hkind : kind.keyword.toList.all isKeywordChar = true := by cases kind <;> decide
      exact List.all_eq_true.mp hkind d hd

/-- A joined keyword is no longer than its words: the underscore stands for the gap. -/
private theorem Spells.length_joined_le {kind : ConstKind} {words : List Char}
    (h : Spells kind words) : (joined kind).toList.length ≤ words.length := by
  obtain ⟨gap, hne, -, rfl⟩ := h
  have hgap : 0 < gap.length := List.length_pos_iff.mpr hne
  have hjoined : (joined kind).toList.length =
      "const".toList.length + (1 + kind.keyword.toList.length) := by
    cases kind <;> rfl
  rw [hjoined, List.length_append, List.length_append]
  omega

private theorem startsWithWord_append (word rest : List Char) :
    startsWithWord word (word ++ rest) = isWordEdge rest.head? := by
  rw [startsWithWord, List.drop_left, List.isPrefixOf_iff_prefix.mpr (List.prefix_append _ _)]
  rfl

private theorem startsWithWord_eq_true {word text : List Char}
    (h : startsWithWord word text = true) :
    ∃ rest, text = word ++ rest ∧ isWordEdge rest.head? = true := by
  rw [startsWithWord, Bool.and_eq_true, List.isPrefixOf_iff_prefix] at h
  obtain ⟨⟨rest, rfl⟩, hedge⟩ := h
  rw [List.drop_left] at hedge
  exact ⟨rest, rfl, hedge⟩

/-- The two words are found when the second of them ends there. -/
theorem constWords?_of_spells {kind : ConstKind} {words : List Char} (h : Spells kind words)
    (rest : List Char) :
    constWords? (words ++ rest) =
      if isWordEdge rest.head? then some (kind, words.length) else none := by
  obtain ⟨gap, hne, hgap, rfl⟩ := h
  have htake : (gap ++ (kind.keyword.toList ++ rest)).takeWhile isGap = gap := by
    rw [List.takeWhile_append_of_pos hgap]
    cases kind <;> exact List.append_nil gap
  have hdrop : (gap ++ (kind.keyword.toList ++ rest)).dropWhile isGap =
      kind.keyword.toList ++ rest := by
    rw [List.dropWhile_append_of_pos hgap]
    cases kind <;> rfl
  have hgapless : gap.isEmpty = false := by simpa using hne
  rw [List.append_assoc, List.append_assoc, constWords?,
    if_pos (List.isPrefixOf_iff_prefix.mpr (List.prefix_append _ _))]
  dsimp only
  rw [show 5 = "const".toList.length from rfl, List.drop_left, htake, hdrop, hgapless]
  have hlength : 5 + gap.length + kind.keyword.length =
      ("const".toList ++ (gap ++ kind.keyword.toList)).length := by
    rw [List.length_append, List.length_append, ← Nat.add_assoc]
    rfl
  rw [← hlength]
  cases kind with
  | int =>
      have hother : startsWithWord ConstKind.float.keyword.toList
          (ConstKind.int.keyword.toList ++ rest) = false := rfl
      rw [if_neg (by simp), List.findSome?_cons, List.findSome?_singleton, startsWithWord_append,
        hother]
      cases isWordEdge rest.head? <;> rfl
  | float =>
      have hother : startsWithWord ConstKind.int.keyword.toList
          (ConstKind.float.keyword.toList ++ rest) = false := rfl
      rw [if_neg (by simp), List.findSome?_cons, List.findSome?_singleton, startsWithWord_append,
        hother]
      cases isWordEdge rest.head? <;> rfl

/-- Nothing else is found. -/
theorem constWords?_eq_some {text : List Char} {kind : ConstKind} {length : Nat}
    (h : constWords? text = some (kind, length)) :
    ∃ words rest, text = words ++ rest ∧ Spells kind words ∧ isWordEdge rest.head? = true ∧
      length = words.length := by
  unfold constWords? at h
  split at h
  · rename_i hconst
    obtain ⟨text, rfl⟩ := List.isPrefixOf_iff_prefix.mp hconst
    rw [show 5 = "const".toList.length from rfl, List.drop_left] at h
    dsimp only at h
    split at h
    · exact absurd h (by simp)
    · rename_i hgap
      obtain ⟨found, -, hfound⟩ := List.exists_of_findSome?_eq_some h
      split at hfound
      · rename_i hword
        obtain ⟨rfl, rfl⟩ := Prod.mk.inj (Option.some.inj hfound)
        obtain ⟨rest, hrest, hedge⟩ := startsWithWord_eq_true hword
        have htext := List.takeWhile_append_dropWhile (p := isGap) (l := text)
        rw [hrest] at htext
        refine ⟨"const".toList ++ (text.takeWhile isGap ++ found.keyword.toList), rest, ?_,
          ⟨_, by simpa using hgap, ?_, rfl⟩, hedge, ?_⟩
        · rw [List.append_assoc, List.append_assoc, htext]
        · exact List.all_eq_true.mp List.all_takeWhile
        · rw [List.length_append, List.length_append, ← Nat.add_assoc]
          rfl
      · exact absurd hfound (by simp)
  · exact absurd h (by simp)

/-! ### Where a keyword starts -/

variable {kind : ConstKind} {words : List Char}

/-- Whether a text behind a character starts with the words of a keyword. -/
def startsKeyword (before : Option Char) (text : List Char) : Bool :=
  isWordEdge before && (constWords? text).isSome

theorem startsKeyword_of_spells (h : Spells kind words) (before : Option Char)
    (rest : List Char) :
    startsKeyword before (words ++ rest) = (isWordEdge before && isWordEdge rest.head?) := by
  rw [startsKeyword, constWords?_of_spells h]
  cases isWordEdge rest.head? <;> rfl

theorem startsKeyword_eq_true_iff {before : Option Char} {text : List Char} :
    startsKeyword before text = true ↔
      isWordEdge before = true ∧ ∃ kind words rest, text = words ++ rest ∧ Spells kind words ∧
        isWordEdge rest.head? = true := by
  constructor
  · intro h
    rw [startsKeyword, Bool.and_eq_true, Option.isSome_iff_exists] at h
    obtain ⟨hbefore, ⟨kind, length⟩, hwords⟩ := h
    obtain ⟨words, rest, htext, hspells, hedge, -⟩ := constWords?_eq_some hwords
    exact ⟨hbefore, kind, words, rest, htext, hspells, hedge⟩
  · rintro ⟨hbefore, kind, words, rest, rfl, hspells, hedge⟩
    rw [startsKeyword_of_spells hspells, hbefore, hedge]
    rfl

@[simp] theorem startsKeyword_nil (before : Option Char) : startsKeyword before [] = false := by
  simp [startsKeyword, constWords?]

theorem startsKeyword_cons_of_ne {c : Char} (h : c ≠ 'c') (before : Option Char)
    (rest : List Char) : startsKeyword before (c :: rest) = false := by
  rw [Bool.eq_false_iff]
  intro hstarts
  obtain ⟨-, kind, words, after, htext, hspells, -⟩ := startsKeyword_eq_true_iff.mp hstarts
  obtain ⟨tail, rfl, -⟩ := hspells.eq_cons
  exact h (List.cons.inj htext).1

/-- A character that is no part of a word and stands in no keyword is an end of the text for it. -/
theorem startsKeyword_append_cons {e : Char} (edge : isWordEdge (some e) = true)
    (foreign : isKeywordChar e = false) (before : Option Char) (text rest : List Char) :
    startsKeyword before (text ++ e :: rest) = startsKeyword before text := by
  rw [Bool.eq_iff_iff, startsKeyword_eq_true_iff, startsKeyword_eq_true_iff]
  have hhead : ∀ more : List Char,
      isWordEdge (more ++ e :: rest).head? = true ↔ isWordEdge more.head? = true := by
    intro more
    cases more with
    | nil => exact iff_of_true edge rfl
    | cons d more => rfl
  refine and_congr_right fun _ => ⟨?_, ?_⟩
  · rintro ⟨kind, words, after, htext, hspells, hedge⟩
    rcases List.append_eq_append_iff.mp htext with ⟨more, rfl, hafter⟩ | ⟨more, rfl, hafter⟩
    · -- the text ends within the words, so that its end is one of their characters
      cases more with
      | nil => exact ⟨kind, text, [], by simp, by simpa using hspells, rfl⟩
      | cons d more =>
          obtain ⟨tail, hcons, -, htail⟩ := hspells.eq_cons
          have he : e ∈ 'c' :: tail := by
            rw [← hcons, (List.cons.inj hafter).1]
            simp
          rcases List.mem_cons.mp he with rfl | he
          · exact absurd edge (by decide)
          · exact absurd (htail e he) (by simp [foreign])
    · rw [hafter] at hedge
      exact ⟨kind, words, more, rfl, hspells, (hhead more).mp hedge⟩
  · rintro ⟨kind, words, after, rfl, hspells, hedge⟩
    exact ⟨kind, words, after ++ e :: rest, by simp, hspells, (hhead after).mpr hedge⟩

/-! ### Joining, without the count -/

theorem joinKeywords_cons {before : Option Char} {c : Char} {rest : List Char}
    (h : startsKeyword before (c :: rest) = false) :
    joinKeywords before 0 (c :: rest) = c :: joinKeywords (some c) 0 rest := by
  rw [joinKeywords]
  split
  · rename_i heq
    split at heq
    · rename_i hedge
      rw [startsKeyword, hedge, heq] at h
      exact absurd h (by simp)
    · exact absurd heq (by simp)
  · rfl

/-- The count passes over what stands there. -/
private theorem joinKeywords_skip (before : Option Char) {passed : List Char} {last : Char}
    (h : passed.getLast? = some last) (rest : List Char) :
    joinKeywords before passed.length (passed ++ rest) = joinKeywords (some last) 0 rest := by
  induction passed generalizing before with
  | nil => exact absurd h (by simp)
  | cons c more ih =>
      cases more with
      | nil =>
          rw [← Option.some.inj h]
          rfl
      | cons d more => exact ih (some c) (by simpa using h)

theorem joinKeywords_words (h : Spells kind words) {before : Option Char} {rest : List Char}
    (hbefore : isWordEdge before = true) (hrest : isWordEdge rest.head? = true) :
    joinKeywords before 0 (words ++ rest) =
      (joined kind).toList ++ joinKeywords (some 't') 0 rest := by
  have hfound := constWords?_of_spells h rest
  obtain ⟨tail, rfl, hlast, -⟩ := h.eq_cons
  rw [List.cons_append] at hfound ⊢
  rw [joinKeywords, if_pos hbefore, hfound, if_pos hrest]
  exact congrArg _ (joinKeywords_skip (some 'c') hlast rest)

/-- A text ends, or goes on with the words of a keyword, or with a character that starts none. -/
@[elab_as_elim]
theorem keywordInduction {motive : Option Char → List Char → Prop}
    (nil : ∀ before, motive before [])
    (keyword : ∀ before kind words rest, isWordEdge before = true → Spells kind words →
      isWordEdge rest.head? = true → motive (some 't') rest → motive before (words ++ rest))
    (cons : ∀ before c rest, startsKeyword before (c :: rest) = false → motive (some c) rest →
      motive before (c :: rest))
    (before : Option Char) (text : List Char) : motive before text := by
  induction hn : text.length using Nat.strongRecOn generalizing before text with
  | ind n ih =>
      cases text with
      | nil => exact nil before
      | cons c rest =>
          cases hstarts : startsKeyword before (c :: rest) with
          | false => exact cons before c rest hstarts (ih _ (by simp [← hn]) _ rest rfl)
          | true =>
              obtain ⟨hbefore, kind, words, after, htext, hspells, hedge⟩ :=
                startsKeyword_eq_true_iff.mp hstarts
              rw [htext]
              refine keyword before kind words after hbefore hspells hedge (ih _ ?_ _ after rfl)
              obtain ⟨tail, rfl, -⟩ := hspells.eq_cons
              rw [← hn, htext, List.length_append, List.length_cons]
              omega

theorem head?_joinKeywords (before : Option Char) (text : List Char) :
    (joinKeywords before 0 text).head? = text.head? := by
  cases before, text using keywordInduction with
  | nil before => rfl
  | keyword before kind words rest hbefore hspells hrest =>
      rw [joinKeywords_words hspells hbefore hrest]
      obtain ⟨tail, rfl, -⟩ := hspells.eq_cons
      cases kind <;> rfl
  | cons before c rest hstarts =>
      rw [joinKeywords_cons hstarts]
      rfl

theorem getLast?_joinKeywords (before : Option Char) (text : List Char) :
    (joinKeywords before 0 text).getLast? = text.getLast? := by
  induction before, text using keywordInduction with
  | nil before => rfl
  | keyword before kind words rest hbefore hspells hrest ih =>
      rw [joinKeywords_words hspells hbefore hrest, List.getLast?_append, List.getLast?_append, ih]
      obtain ⟨tail, rfl, hlast, -⟩ := hspells.eq_cons
      rw [List.getLast?_cons, hlast]
      cases kind <;> rfl
  | cons before c rest hstarts ih =>
      rw [joinKeywords_cons hstarts, List.getLast?_cons, List.getLast?_cons, ih]

/-- No keyword starts within a text without the letter that they start with. -/
theorem joinKeywords_free {text : List Char} (free : ∀ c ∈ text, c ≠ 'c') (before : Option Char)
    (rest : List Char) : ∃ more, joinKeywords before 0 (text ++ rest) = text ++ more := by
  induction text generalizing before with
  | nil => exact ⟨_, rfl⟩
  | cons c text ih =>
      obtain ⟨more, hmore⟩ := ih (fun d hd => free d (List.mem_cons_of_mem _ hd)) (some c)
      have hstarts := startsKeyword_cons_of_ne (free c (List.mem_cons_self ..)) before (text ++ rest)
      exact ⟨more, by rw [List.cons_append, joinKeywords_cons hstarts, hmore]; rfl⟩

/-- Only whether a word may begin behind it counts of the character to the left. -/
theorem joinKeywords_before {before other : Option Char}
    (h : isWordEdge before = isWordEdge other) (text : List Char) :
    joinKeywords before 0 text = joinKeywords other 0 text := by
  cases text with
  | nil => rfl
  | cons c rest => rw [joinKeywords, joinKeywords, h]

/-- What is joined holds the characters of the text and those of the joined words. -/
theorem mem_joinKeywords {before : Option Char} {text : List Char} {c : Char}
    (h : c ∈ joinKeywords before 0 text) : c ∈ text ∨ ∃ kind, c ∈ (joined kind).toList := by
  induction before, text using keywordInduction with
  | nil before => exact .inl h
  | keyword before kind words rest hbefore hspells hrest ih =>
      rw [joinKeywords_words hspells hbefore hrest, List.mem_append] at h
      rcases h with h | h
      · exact .inr ⟨kind, h⟩
      · exact (ih h).imp_left fun h => List.mem_append.mpr (.inr h)
  | cons before d rest hstarts ih =>
      rw [joinKeywords_cons hstarts, List.mem_cons] at h
      rcases h with rfl | h
      · exact .inl (List.mem_cons_self ..)
      · exact (ih h).imp_left fun h => List.mem_cons_of_mem _ h

/-- Joining the words of keywords makes no text longer. -/
theorem length_joinKeywords_le (before : Option Char) (text : List Char) :
    (joinKeywords before 0 text).length ≤ text.length := by
  induction before, text using keywordInduction with
  | nil before => exact Nat.le_refl _
  | keyword before kind words rest hbefore hspells hrest ih =>
      rw [joinKeywords_words hspells hbefore hrest, List.length_append, List.length_append]
      exact Nat.add_le_add hspells.length_joined_le ih
  | cons before c rest hstarts ih =>
      rw [joinKeywords_cons hstarts]
      exact Nat.succ_le_succ ih

theorem joinKeywords_append_cons {e : Char} (edge : isWordEdge (some e) = true)
    (foreign : isKeywordChar e = false) (before : Option Char) (text rest : List Char) :
    joinKeywords before 0 (text ++ e :: rest) =
      joinKeywords before 0 text ++ e :: joinKeywords (some e) 0 rest := by
  induction before, text using keywordInduction with
  | nil before =>
      have hstarts := startsKeyword_append_cons edge foreign before [] rest
      rw [startsKeyword_nil] at hstarts
      exact joinKeywords_cons hstarts
  | keyword before kind words more hbefore hspells hmore ih =>
      have hmore' : isWordEdge (more ++ e :: rest).head? = true := by
        cases more with
        | nil => exact edge
        | cons d more => exact hmore
      rw [List.append_assoc, joinKeywords_words hspells hbefore hmore', ih,
        joinKeywords_words hspells hbefore hmore, List.append_assoc]
  | cons before c more hstarts ih =>
      have hstarts' := startsKeyword_append_cons edge foreign before (c :: more) rest
      rw [hstarts] at hstarts'
      rw [List.cons_append] at hstarts' ⊢
      rw [joinKeywords_cons hstarts', ih, joinKeywords_cons hstarts]
      rfl

private theorem edge_of_isLineEnd {e : Char} (h : isLineEnd e = true) :
    isWordEdge (some e) = true ∧ isKeywordChar e = false := by
  have he : e = '\n' ∨ e = '\r' := by simpa [isLineEnd] using h
  rcases he with rfl | rfl <;> decide

/-- Keywords are joined line by line. -/
theorem linewise_joinKeywords : Linewise (joinKeywords none 0) where
  nil := rfl
  full := by
    intro text hfull hnil
    have hhead := head?_joinKeywords none text
    rw [hnil] at hhead
    exact hfull (List.head?_eq_none_iff.mp hhead.symm)
  free := by
    intro text hfree c hc
    rcases mem_joinKeywords hc with hc | ⟨kind, hc⟩
    · exact hfree c hc
    · have hkind : (joined kind).toList.all (!isLineEnd ·) = true := by cases kind <;> decide
      simpa using List.all_eq_true.mp hkind c hc
  across := by
    intro text e rest he
    obtain ⟨edge, foreign⟩ := edge_of_isLineEnd he
    have hbehind : isWordEdge (some e) = isWordEdge none := edge
    rw [joinKeywords_append_cons edge foreign, joinKeywords_before hbehind]

end Spacing
end ShaderLink
