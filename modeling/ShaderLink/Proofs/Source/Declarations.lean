/-
Overrides as declarations.

A line can mention only names that are words: they hold a character and no blank.  So a
pass sees of its flags nothing but the boolean of each word, and two passes whose flags
give every word the same boolean leave the same lines and fail alike (`AgreeOnWords.run`).

Of the declarations of a name the first counts, and an override counts before all of
them.  A pass with overrides is therefore the pass without any over lines that declare
the same booleans first, in whatever order they stand.
-/
import Mathlib.Data.List.Forall2
import ShaderLink.Proofs.Lists
import ShaderLink.Proofs.Source.Decision

namespace ShaderLink

/-! ### Names that a line can mention -/

namespace Text

/-- Whether a text is a word: it holds a character and no blank. -/
def isWord (text : String) : Bool :=
  !text.toList.isEmpty && text.toList.all fun c => !isBlank c

theorem isWord_iff {text : String} :
    isWord text = true ↔ text.toList ≠ [] ∧ ∀ c ∈ text.toList, isBlank c = false := by
  simp [isWord]

theorem isWord_of_mem_words {text word : String} (h : word ∈ words text) : isWord word = true := by
  refine isWord_iff.mpr ⟨?_, isBlank_of_mem_words h⟩
  obtain ⟨field, hfield, rfl⟩ := List.mem_map.mp h
  rw [String.toList_ofList]
  simpa using (List.mem_filter.mp hfield).2

/-- A word, a blank and a text have the word and the text's words. -/
theorem words_append_blank {word : String} (h : isWord word = true) (rest : String) :
    words (word ++ " " ++ rest) = word :: words rest := by
  obtain ⟨hfull, hfree⟩ := isWord_iff.mp h
  have hsplit : (word ++ " " ++ rest).toList = word.toList ++ ' ' :: rest.toList := by
    simp [String.toList_append]
  rw [words, hsplit, fullFields, fields_append_cons _ hfree (by decide),
    List.filter_cons_of_pos (by simpa using hfull), List.map_cons, String.ofList_toList]
  rfl

theorem words_of_isWord {word : String} (h : isWord word = true) : words word = [word] := by
  obtain ⟨hfull, hfree⟩ := isWord_iff.mp h
  rw [words, fullFields, fields_of_free hfree, List.filter_cons_of_pos (by simpa using hfull)]
  simp

end Text

open Text (isWord isWord_iff isWord_of_mem_words)

namespace Directive

/-- The name that a directive gives a value, or asks for its value. -/
def name? : Directive → Option String
  | .declare name _ | .test name _ => some name
  | .otherwise | .close => none

/-- Directives mention words. -/
theorem isWord_of_read? {text name : String} {directive : Directive}
    (h : read? text = some directive) (mentions : directive.name? = some name) :
    isWord name = true := by
  have hwords : ∀ word ∈ Text.words text, isWord word = true := fun _ => isWord_of_mem_words
  unfold read? at h
  generalize Text.words text = words at h hwords
  unfold ofWords? at h
  split at h
  · rw [← Option.some.inj h, name?, Option.some.injEq] at mentions
    exact hwords name (by simp [mentions])
  · rw [← Option.some.inj h, name?, Option.some.injEq] at mentions
    exact hwords name (by simp [mentions])
  · rename_i condition
    have hcondition := hwords condition (by simp)
    rw [← Option.some.inj h] at mentions
    unfold ofCondition at mentions
    split at mentions
    · rename_i c rest hsplit
      rw [name?, Option.some.injEq] at mentions
      obtain ⟨-, hfree⟩ := isWord_iff.mp hcondition
      rw [hsplit] at hfree
      refine isWord_iff.mpr ?_
      rw [← mentions, String.toList_ofList]
      exact ⟨by simp, fun d hd => hfree d (List.mem_cons_of_mem _ hd)⟩
    · rw [name?, Option.some.injEq] at mentions
      rw [← mentions]
      exact hcondition
  · rw [← Option.some.inj h] at mentions
    exact absurd mentions (by simp [name?])
  · rw [← Option.some.inj h] at mentions
    exact absurd mentions (by simp [name?])
  · exact absurd h (by simp)

end Directive

/-! ### Many declarations -/

namespace Flags

/-- The flags when entries have been declared, one after the other. -/
def declareAll (flags : Flags) (entries : List (String × Bool)) : Flags :=
  entries.foldl (fun flags entry => flags.declare entry.1 entry.2) flags

/-- What has a value keeps it, and of the entries of a name the first counts. -/
private theorem get?_declareAll (flags : Flags) (entries : List (String × Bool)) (name : String) :
    (flags.declareAll entries).get? name = (flags.get? name).or (entries.lookup name) := by
  induction entries generalizing flags with
  | nil => simp [declareAll]
  | cons entry rest ih =>
      show ((flags.declare entry.1 entry.2).declareAll rest).get? name = _
      rw [ih, get?_declare, Option.or_assoc, List.lookup_cons]
      by_cases heq : name = entry.1
      · simp [heq]
      · have hbeq : (name == entry.1) = false := by simpa using heq
        simp [heq, hbeq]

end Flags

/-! ### What a pass sees of its flags -/

namespace Condition

variable {s t : State} {overrides others entries : List (String × Bool)}
  {declarations lines : List SourceLine} {file : String}

/-- States in the same blocks that give every word the same boolean. -/
structure AgreeOnWords (s t : State) : Prop where
  nesting : t.nesting = s.nesting
  values : ∀ name, isWord name = true → t.flags.get? name = s.flags.get? name

/-- A line is the same failure for both, or is kept by both and leaves them in agreement. -/
theorem AgreeOnWords.step (h : AgreeOnWords s t) (line : SourceLine) :
    (∃ error, Condition.step s line = .error error ∧ Condition.step t line = .error error) ∨
      ∃ next other kept, Condition.step s line = .ok (next, kept) ∧
        Condition.step t line = .ok (other, kept) ∧ AgreeOnWords next other := by
  obtain ⟨flags, nesting⟩ := s
  obtain ⟨others, nesting'⟩ := t
  obtain ⟨rfl : nesting' = nesting, hvalues⟩ := h
  unfold Condition.step
  cases hline : Directive.read? line.text with
  | none => exact .inr ⟨_, _, _, rfl, rfl, rfl, hvalues⟩
  | some directive =>
      cases directive with
      | declare name value =>
          refine .inr ⟨_, _, _, rfl, rfl, rfl, fun other hother => ?_⟩
          dsimp only
          split
          · rw [Flags.get?_declare, Flags.get?_declare, hvalues other hother]
          · exact hvalues other hother
      | test name negated =>
          dsimp only
          rw [hvalues name (Directive.isWord_of_read? hline rfl)]
          cases flags.get? name with
          | none => exact .inl ⟨_, rfl, rfl⟩
          | some value => exact .inr ⟨_, _, _, rfl, rfl, rfl, hvalues⟩
      | otherwise =>
          dsimp only
          cases nesting'.flip line.file line.number with
          | error error => exact .inl ⟨_, rfl, rfl⟩
          | ok turned => exact .inr ⟨_, _, _, rfl, rfl, rfl, hvalues⟩
      | close =>
          dsimp only
          cases nesting'.leave line.file line.number with
          | error error => exact .inl ⟨_, rfl, rfl⟩
          | ok outer => exact .inr ⟨_, _, _, rfl, rfl, rfl, hvalues⟩

theorem AgreeOnWords.run (h : AgreeOnWords s t) (file : String) (lines : List SourceLine) :
    evaluateFrom file t lines = evaluateFrom file s lines := by
  induction lines generalizing s t with
  | nil => rw [evaluateFrom, evaluateFrom, h.nesting]
  | cons line rest ih =>
      rw [evaluateFrom, evaluateFrom]
      rcases h.step line with ⟨error, hs, ht⟩ | ⟨next, other, kept, hs, ht, hagree⟩
      · rw [hs, ht]
      · rw [hs, ht]
        dsimp only
        rw [ih hagree]

/-- **Conditions come out the same under overrides that give every word the same boolean.** -/
theorem evaluateConditions_congr
    (same : ∀ name, isWord name = true → others.lookup name = overrides.lookup name)
    (lines : List SourceLine) :
    evaluateConditions others lines = evaluateConditions overrides lines := by
  have hagree :
      AgreeOnWords ⟨.ofOverrides overrides, .outermost⟩ ⟨.ofOverrides others, .outermost⟩ := by
    refine ⟨rfl, fun name hname => ?_⟩
    show (others.lookup name).or none = (overrides.lookup name).or none
    rw [same name hname]
  exact hagree.run _ lines

/-! ### Lines that declare what overrides set -/

/-- The line stands in the file and declares a name's boolean. -/
structure Declares (file : String) (line : SourceLine) (entry : String × Bool) : Prop where
  file : line.file = file
  text : line.text = "#const " ++ entry.1 ++ " " ++ toString entry.2

private theorem Declares.directive? {line : SourceLine} {entry : String × Bool}
    (h : Declares file line entry) (word : isWord entry.1 = true) :
    line.directive? = some (.declare entry.1 entry.2) := by
  have hwords : Text.words line.text = ["#const", entry.1, toString entry.2] := by
    have hvalue : isWord (toString entry.2) = true := by cases entry.2 <;> rfl
    have htext : line.text = "#const" ++ " " ++ (entry.1 ++ " " ++ toString entry.2) := by
      rw [h.text]
      simp [← String.append_assoc]
    rw [htext, Text.words_append_blank (by rfl), Text.words_append_blank word,
      Text.words_of_isWord hvalue]
  rw [SourceLine.directive?, Directive.read?, hwords]
  cases entry.2 <;> rfl

/-- Outside all blocks, lines that declare entries are emptied and the rest is decided with the
entries declared. -/
theorem evaluateFrom_declarations (declares : List.Forall₂ (Declares file) declarations entries)
    (words : ∀ entry ∈ entries, isWord entry.1 = true) (name : String) (flags : Flags) :
    let rest := evaluateFrom name ⟨flags.declareAll entries, .outermost⟩ lines
    evaluateFrom name ⟨flags, .outermost⟩ (declarations ++ lines) =
      ⟨declarations.map SourceLine.blanked ++ rest.lines, rest.failure⟩ := by
  induction declares generalizing flags with
  | nil => rfl
  | @cons line entry declarations entries hline hrest ih =>
      have hdirective : Directive.read? line.text = some (.declare entry.1 entry.2) :=
        hline.directive? (words entry (List.mem_cons_self ..))
      have hstep : Condition.step ⟨flags, .outermost⟩ line =
          .ok (⟨flags.declare entry.1 entry.2, .outermost⟩, false) := by
        rw [Condition.step, hdirective]
        rfl
      dsimp only at ih ⊢
      rw [List.cons_append, evaluateFrom, hstep]
      dsimp only
      rw [ih (fun other hother => words other (List.mem_cons_of_mem _ hother))]
      rfl

/-- A pass tells the file of its first line when it ends inside a block, and else no file. -/
theorem evaluateConditions_eq (home : ∀ first ∈ lines.head?, first.file = file) :
    evaluateConditions overrides lines =
      evaluateFrom file ⟨.ofOverrides overrides, .outermost⟩ lines := by
  cases lines with
  | nil => rfl
  | cons first rest =>
      rw [← home first rfl]
      rfl

/-- The entries of words, in any order, give every word the boolean that all of them give it. -/
private theorem lookup_of_perm (distinct : (overrides.map Prod.fst).Nodup)
    (order : entries.Perm (overrides.filter fun entry => isWord entry.1)) {name : String}
    (word : isWord name = true) : entries.lookup name = overrides.lookup name := by
  have hdistinct : (entries.map Prod.fst).Nodup :=
    (order.map Prod.fst).nodup_iff.mpr (distinct.sublist (List.filter_sublist.map Prod.fst))
  refine Option.ext fun value => ?_
  rw [lookup_eq_some_iff_of_nodup hdistinct, lookup_eq_some_iff_of_nodup distinct, order.mem_iff,
    List.mem_filter]
  exact and_iff_left word

/--
**A pass with overrides is a pass over declarations of them, put first.**  The lines declare the
overrides whose names are words, in any order, and stand in the file of the first line; the pass
without overrides empties them, and leaves the other lines as the pass with the overrides does.
-/
theorem evaluateConditions_declarations (distinct : (overrides.map Prod.fst).Nodup)
    (order : entries.Perm (overrides.filter fun entry => isWord entry.1))
    (declares : List.Forall₂ (Declares file) declarations entries)
    (home : ∀ first ∈ lines.head?, first.file = file) :
    (evaluateConditions [] (declarations ++ lines)).lines =
        declarations.map SourceLine.blanked ++ (evaluateConditions overrides lines).lines ∧
      (evaluateConditions [] (declarations ++ lines)).failure =
        (evaluateConditions overrides lines).failure := by
  have hwords : ∀ entry ∈ entries, isWord entry.1 = true := by
    intro entry hentry
    exact (List.mem_filter.mp (order.mem_iff.mp hentry)).2
  have hall : ∀ first ∈ (declarations ++ lines).head?, first.file = file := by
    cases declares with
    | nil => exact home
    | cons hfirst hrest =>
        intro first hhead
        rw [← Option.some.inj hhead]
        exact hfirst.file
  have hagree : AgreeOnWords ⟨.ofOverrides overrides, .outermost⟩
      ⟨(Flags.ofOverrides []).declareAll entries, .outermost⟩ := by
    refine ⟨rfl, fun name hname => ?_⟩
    rw [Flags.get?_declareAll]
    show entries.lookup name = (overrides.lookup name).or none
    rw [lookup_of_perm distinct order hname, Option.or_none]
  rw [evaluateConditions_eq hall, evaluateConditions_eq home,
    evaluateFrom_declarations declares hwords, hagree.run]
  exact ⟨rfl, rfl⟩

/-- Overrides of two names that a line can mention and of two that none can. -/
def switches : List (String × Bool) := [("A", true), ("B C", true), ("", true), ("!", false)]

/-- Lines that declare one of the names again, and test the other one negated. -/
def switched : List SourceLine :=
  SourceLine.split "a" "#const A false\n#if A\nx\n#else\ny\n#endif\n#if !!\nz\n#endif\n"

/-- Lines that declare what the overrides set of the names that a line can mention. -/
def preset : List SourceLine := [⟨"a", 8, "#const ! false"⟩, ⟨"a", 9, "#const A true"⟩]

theorem switched_declarations :
    ((evaluateConditions switches switched).lines.map (·.text)).filter (· ≠ "") = ["x", "z"] ∧
      (evaluateConditions [] (preset ++ switched)).lines =
        preset.map SourceLine.blanked ++ (evaluateConditions switches switched).lines ∧
      (evaluateConditions [] (preset ++ switched)).failure =
        (evaluateConditions switches switched).failure := by
  have horder : [("!", false), ("A", true)].Perm (switches.filter fun entry => isWord entry.1) :=
    .swap ..
  have hdeclares : List.Forall₂ (Declares "a") preset [("!", false), ("A", true)] :=
    .cons ⟨rfl, rfl⟩ (.cons ⟨rfl, rfl⟩ .nil)
  have hhome : ∀ first ∈ switched.head?, first.file = "a" := by
    intro first hfirst
    rw [← Option.some.inj hfirst]
  exact ⟨by decide +kernel,
    evaluateConditions_declarations (by decide) horder hdeclares hhome⟩

end Condition

end ShaderLink
