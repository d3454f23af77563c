/-
Recognizing directives by patterns.

A line can be tried against four patterns, one for each form of a directive, in this order.
Each of them spans the whole line and goes through its words, so whether it matches, and what
it tells of the match, depends on the words only; and no line matches two of them.  What comes
of it is the directive that the words spell.

Matching is left to an engine.  All that is asked of it is that it finds the first match at
the earliest offset, which is how the order of the ways to match is documented.
-/
import ShaderLink.Proofs.Text.Pattern
import ShaderLink.Source.Directive

namespace ShaderLink
namespace Directive

open Text Pattern

/-! ### The patterns -/

/-- An engine that finds a pattern in a text and tells the captured texts. -/
abbrev Engine := Pattern → List Char → Option (List (List Char))

/-- Of all matches it finds the leftmost, and of these the first in the order of preference. -/
def Engine.LeftmostFirst (engine : Engine) : Prop :=
  ∀ pattern text, engine pattern text = search pattern text

/-- The pattern `^\s*#const\s+(\S+)\s+(true|false)\s*$`. -/
def constantPattern : Pattern :=
  [begins, blanks 0, literal "#const", blanks 1, word, blanks 1,
    ⟨.oneOf ["true".toList, "false".toList], true⟩, blanks 0, ends]

/-- The pattern `^\s*#if\s+(!?)(\S+)\s*$`, with the mark before no mark. -/
def conditionPattern : Pattern :=
  [begins, blanks 0, literal "#if", blanks 1, ⟨.oneOf [['!'], []], true⟩, word, blanks 0, ends]

/-- The patterns `^\s*#else\s*$` and `^\s*#endif\s*$`. -/
def plainPattern (keyword : String) : Pattern :=
  [begins, blanks 0, literal keyword, blanks 0, ends]

/-- A captured text, counted from 1. -/
def group (captures : List (List Char)) (i : Nat) : String :=
  String.ofList (captures.getD (i - 1) [])

/-- The directive that the patterns find in a line. -/
def recognize (engine : Engine) (text : String) : Option Directive :=
  match engine constantPattern text.toList with
  | some captures => some (.declare (group captures 1) (group captures 2 == "true"))
  | none =>
    match engine conditionPattern text.toList with
    | some captures => some (.test (group captures 2) (group captures 1 == "!"))
    | none =>
      if (engine (plainPattern "#else") text.toList).isSome then some .otherwise
      else if (engine (plainPattern "#endif") text.toList).isSome then some .close
      else none

/-! ### What each pattern finds -/

/-- The captured texts for the words of a line, when it is the declaration of a boolean. -/
def constantOf : List String → Option (List (List Char))
  | [keyword, name, value] =>
    if keyword = "#const" ∧ (value = "true" ∨ value = "false") then some [name.toList, value.toList]
    else none
  | _ => none

/-- Those for a condition: the mark is told apart when more stands behind it. -/
def conditionOf : List String → Option (List (List Char))
  | [keyword, condition] =>
    if keyword = "#if" then
      if condition.toList.head? = some '!' ∧ condition.toList.tail ≠ [] then
        some [['!'], condition.toList.tail]
      else some [[], condition.toList]
    else none
  | _ => none

variable {text : String}

private theorem fullFields_eq_words (text : String) :
    fullFields isBlank text.toList = (words text).map String.toList := by
  simp [words, Function.comp_def]

private theorem solid_of_all {word : String}
    (h : word.toList ≠ [] ∧ word.toList.all (!isBlank ·) = true) : Solid word.toList :=
  ⟨h.1, fun c hc => by simpa using List.all_eq_true.mp h.2 c hc⟩

private theorem search_constant (text : String) :
    search constantPattern text.toList = constantOf (words text) := by
  have hvalues : ∀ value ∈ ["true".toList, "false".toList], Solid value := by
    intro value hvalue
    rcases List.mem_cons.mp hvalue with rfl | hvalue
    · exact solid_of_all (by decide)
    · rw [List.mem_singleton.mp hvalue]
      exact solid_of_all (by decide)
  have hvalue : Takes (⟨.oneOf ["true".toList, "false".toList], true⟩ :: [blanks 0, ends]) _ :=
    takesBehind_ends.oneOf hvalues (by decide)
  have hkeyword : Takes (literal "#const" :: _) _ :=
    hvalue.takesBehind.word.takesBehind.literal (solid_of_all (by decide))
  rw [constantPattern, hkeyword.search_eq, fullFields_eq_words]
  rcases words text with _ | ⟨keyword, _ | ⟨name, _ | ⟨value, _ | ⟨fourth, more⟩⟩⟩⟩
  · rfl
  · simp only [onFirst, constantOf, List.map_cons, List.map_nil, ite_self]
    rfl
  · simp only [onFirst, constantOf, List.map_cons, List.map_nil, ite_self]
    rfl
  · simp only [onFirst, constantOf, List.map_cons, List.map_nil, String.toList_inj, List.mem_cons,
      List.not_mem_nil, or_false, if_true]
    by_cases hkeyword : keyword = "#const"
    · by_cases hvalue : value = "true" ∨ value = "false"
      · rw [if_pos hkeyword, if_pos hvalue, if_pos ⟨hkeyword, hvalue⟩]
        rfl
      · rw [if_pos hkeyword, if_neg hvalue, if_neg fun h => hvalue h.2]
        rfl
    · rw [if_neg hkeyword, if_neg fun h => hkeyword h.1]
      rfl
  · simp only [onFirst, constantOf, List.map_cons, reduceCtorEq, if_false, List.map_nil, ite_self]
    rfl

private theorem search_condition (text : String) :
    search conditionPattern text.toList = conditionOf (words text) := by
  have hmarked : Takes (⟨.oneOf [['!'], []], true⟩ :: word :: [blanks 0, ends]) _ :=
    takesBehind_ends.marked (by decide)
  have hkeyword : Takes (literal "#if" :: _) _ :=
    hmarked.takesBehind.literal (solid_of_all (by decide))
  rw [conditionPattern, hkeyword.search_eq, fullFields_eq_words]
  rcases words text with _ | ⟨keyword, _ | ⟨condition, _ | ⟨third, more⟩⟩⟩
  · rfl
  · simp [onFirst, conditionOf]
  · simp only [onFirst, conditionOf, List.map_cons, List.map_nil, String.toList_inj, if_true]
    by_cases hkeyword : keyword = "#if"
    · rw [if_pos hkeyword, if_pos hkeyword]
      split
      · rfl
      · rfl
    · rw [if_neg hkeyword, if_neg hkeyword]
      rfl
  · simp [onFirst, conditionOf]

private theorem search_plain {keyword : String} (solid : Solid keyword.toList) (text : String) :
    search (plainPattern keyword) text.toList =
      if words text = [keyword] then some [] else none := by
  have hkeyword : Takes (literal keyword :: [blanks 0, ends]) _ := takesBehind_ends.literal solid
  rw [plainPattern, hkeyword.search_eq, fullFields_eq_words]
  rcases words text with _ | ⟨first, _ | ⟨second, more⟩⟩
  · rfl
  · by_cases h : first = keyword
    · simp [onFirst, h]
    · simp [onFirst, h, String.toList_inj]
  · simp [onFirst]

/-! ### The directive of a line -/

/-- How a word spells a test: a mark in front of a name negates it, and alone it is a name. -/
def SpellsTest (word name : String) (negated : Bool) : Prop :=
  if negated then name ≠ "" ∧ word = "!" ++ name
  else name = word ∧ (word.toList.head? = some '!' → word = "!")

private theorem eq_append_iff {word name : String} :
    word = "!" ++ name ↔ word.toList = '!' :: name.toList := by
  rw [← String.toList_inj, String.toList_append]
  rfl

theorem ofCondition_eq_iff {word name : String} {negated : Bool} :
    ofCondition word = .test name negated ↔ SpellsTest word name negated := by
  rw [ofCondition, SpellsTest]
  split
  · rename_i c rest hword
    cases negated with
    | true =>
        rw [if_pos rfl, eq_append_iff, hword, test.injEq]
        constructor
        · rintro ⟨rfl, -⟩
          simp
        · rintro ⟨-, hsame⟩
          refine ⟨?_, rfl⟩
          rw [(List.cons.inj hsame).2, String.ofList_toList]
    | false =>
        rw [if_neg Bool.false_ne_true]
        refine iff_of_false (by simp) ?_
        rintro ⟨-, halone⟩
        have hmark : word = "!" := halone (by rw [hword]; rfl)
        rw [hmark] at hword
        cases hword
  · rename_i hother
    cases negated with
    | true =>
        rw [if_pos rfl, eq_append_iff]
        refine iff_of_false (by simp) ?_
        rintro ⟨hname, hword⟩
        obtain ⟨c, rest, hrest⟩ :=
          List.exists_cons_of_ne_nil (mt String.toList_eq_nil_iff.mp hname)
        exact hother c rest (by rw [hword, hrest])
    | false =>
        rw [if_neg Bool.false_ne_true, test.injEq]
        constructor
        · rintro ⟨rfl, -⟩
          refine ⟨rfl, fun hhead => ?_⟩
          obtain ⟨rest, hrest⟩ := List.head?_eq_some_iff.mp hhead
          cases rest with
          | nil => exact String.toList_inj.mp hrest
          | cons c more => exact absurd hrest (hother c more)
        · rintro ⟨rfl, -⟩
          exact ⟨rfl, rfl⟩

/-- What is captured of a condition makes the test that its word spells. -/
private theorem test_of_captured (condition : String) :
    (if condition.toList.head? = some '!' ∧ condition.toList.tail ≠ [] then
      Directive.test (String.ofList condition.toList.tail) true
    else .test condition false) = ofCondition condition := by
  rw [ofCondition]
  split
  · rename_i h
    obtain ⟨hhead, htail⟩ := h
    obtain ⟨rest, hrest⟩ := List.head?_eq_some_iff.mp hhead
    rw [hrest, List.tail_cons] at htail ⊢
    obtain ⟨c, more, rfl⟩ := List.exists_cons_of_ne_nil htail
    rfl
  · rename_i h
    split
    · rename_i c rest hword
      exact absurd ⟨by rw [hword]; rfl, by rw [hword]; simp⟩ h
    · rfl

variable {engine : Engine}

/-- **The patterns find the directive that the words of a line spell.** -/
theorem recognize_eq_read? (documented : engine.LeftmostFirst) (text : String) :
    recognize engine text = read? text := by
  have hplain (keyword : String) (solid : Solid keyword.toList) :
      (engine (plainPattern keyword) text.toList).isSome = true ↔ words text = [keyword] := by
    rw [documented, search_plain solid]
    split
    · simp [*]
    · simp [*]
  rw [recognize, documented, search_constant, documented, search_condition, read?]
  simp only [hplain "#else" (solid_of_all (by decide)), hplain "#endif" (solid_of_all (by decide))]
  rcases words text with _ | ⟨first, _ | ⟨second, _ | ⟨third, _ | ⟨fourth, more⟩⟩⟩⟩
  · rfl
  · by_cases helse : first = "#else"
    · subst helse
      simp [constantOf, conditionOf, ofWords?]
    · by_cases hendif : first = "#endif"
      · subst hendif
        simp [constantOf, conditionOf, ofWords?]
      · simp [constantOf, conditionOf, ofWords?, helse, hendif]
  · by_cases hif : first = "#if"
    · subst hif
      rw [ofWords?, ← test_of_captured]
      simp only [constantOf, conditionOf, if_true]
      by_cases hmarked : second.toList.head? = some '!' ∧ second.toList.tail ≠ []
      · rw [if_pos hmarked, if_pos hmarked]
        rfl
      · rw [if_neg hmarked, if_neg hmarked]
        simp [group]
    · simp [constantOf, conditionOf, ofWords?, hif]
  · by_cases hconst : first = "#const"
    · subst hconst
      by_cases htrue : third = "true"
      · subst htrue
        simp [constantOf, ofWords?, group]
      · by_cases hfalse : third = "false"
        · subst hfalse
          simp [constantOf, ofWords?, group]
        · simp [constantOf, conditionOf, ofWords?, htrue, hfalse]
    · simp [constantOf, conditionOf, ofWords?, hconst]
  · simp [constantOf, conditionOf, ofWords?]

/-- The words of a line that a directive is found in. -/
def HasWords (directive : Directive) (words : List String) : Prop :=
  match directive with
  | .declare name value => words = ["#const", name, if value then "true" else "false"]
  | .test name negated => ∃ word, words = ["#if", word] ∧ SpellsTest word name negated
  | .otherwise => words = ["#else"]
  | .close => words = ["#endif"]

private theorem exists_ofCondition_eq (condition : String) :
    ∃ name negated, ofCondition condition = .test name negated := by
  rw [ofCondition]
  split
  · exact ⟨_, _, rfl⟩
  · exact ⟨_, _, rfl⟩

private theorem ofWords?_eq_some_iff {words : List String} {directive : Directive} :
    ofWords? words = some directive ↔ directive.HasWords words := by
  unfold ofWords?
  split
  · rcases directive with ⟨name, _ | _⟩ | ⟨name, negated⟩ | _ | _
    all_goals simp [HasWords]
  · rcases directive with ⟨name, _ | _⟩ | ⟨name, negated⟩ | _ | _
    all_goals simp [HasWords]
  · rename_i condition
    rcases directive with ⟨name, _ | _⟩ | ⟨name, negated⟩ | _ | _
    case test =>
      rw [Option.some.injEq, ofCondition_eq_iff]
      simp [HasWords]
    all_goals
      obtain ⟨name, negated, htest⟩ := exists_ofCondition_eq condition
      simp [HasWords, htest]
  · rcases directive with ⟨name, _ | _⟩ | ⟨name, negated⟩ | _ | _
    all_goals simp [HasWords]
  · rcases directive with ⟨name, _ | _⟩ | ⟨name, negated⟩ | _ | _
    all_goals simp [HasWords]
  · rename_i htrue hfalse hif helse hclose
    refine iff_of_false (by simp) ?_
    cases directive with
    | declare name value =>
        cases value with
        | true => exact htrue name
        | false => exact hfalse name
    | test name negated =>
        rintro ⟨word, hwords, -⟩
        exact hif word hwords
    | otherwise => exact helse
    | close => exact hclose

/-- **A directive is found in a line exactly when the line has its words.**  So nothing is found in
a line of other words, and nothing but the words of a line matters. -/
theorem recognize_iff (documented : engine.LeftmostFirst) (text : String) :
    (∀ directive, recognize engine text = some directive ↔ directive.HasWords (words text)) ∧
      (recognize engine text = none ↔ ∀ directive : Directive, ¬directive.HasWords (words text)) ∧
      (∀ other, words other = words text → recognize engine other = recognize engine text) ∧
      recognize engine text = read? text := by
  have hread : recognize engine text = ofWords? (words text) := recognize_eq_read? documented text
  refine ⟨?_, ?_, ?_, hread⟩
  · intro directive
    rw [hread, ofWords?_eq_some_iff]
  · rw [hread, Option.eq_none_iff_forall_ne_some]
    simp only [Ne, ofWords?_eq_some_iff]
  · intro other hwords
    rw [recognize_eq_read? documented other, hread, read?, hwords]

/-- Here a keyword is the name that is negated, behind blanks of other kinds; a mark alone is the
name; and what should be a boolean is another word. -/
theorem recognize_marked :
    recognize search "\u2003#if\t!#else " = some (.test "#else" true) ∧
      recognize search "#if !\n" = some (.test "!" false) ∧
      recognize search "#const #if maybe" = none := by
  have documented : Engine.LeftmostFirst search := fun _ _ => rfl
  obtain ⟨hmarked, -⟩ := recognize_iff documented "\u2003#if\t!#else "
  obtain ⟨hmark, -⟩ := recognize_iff documented "#if !\n"
  obtain ⟨-, -, -, hread⟩ := recognize_iff documented "#const #if maybe"
  refine ⟨(hmarked _).mpr ⟨"!#else", by decide +kernel, ?_⟩,
    (hmark _).mpr ⟨"!", by decide +kernel, ?_⟩, ?_⟩
  · exact ⟨by decide, by decide⟩
  · exact ⟨rfl, fun _ => rfl⟩
  · rw [hread]
    decide +kernel

/-- The engine that tries all ways in order finds the groups itself. -/
example : search constantPattern "  #const DEBUG false ".toList =
    some ["DEBUG".toList, "false".toList] := by
  decide +kernel

end Directive

end ShaderLink
