/-
Patterns of texts.

A pattern is a row of parts that match one behind the other.  A part can match in several
ways, and these come in an order of preference: the longest of the runs of a character, the
first of several texts.  The matches of the whole are ordered by the first part in which they
differ, and a search takes the first match at the earliest offset at which there is one.

The patterns here go through a text word by word.  Between the words stand runs of blanks, and
behind a run of blanks a pattern can only go on with a word, so no run may end early: one way
at most remains for each run, the longest.  `Takes` says so of a pattern that begins with a
word, and `TakesBehind` of one that begins behind a word; either is a function of words then,
and it is put together from the end of the pattern.
-/
import ShaderLink.Proofs.Text.Clumps

namespace ShaderLink
namespace Text

/-! ### Patterns -/

/-- What a part of a pattern matches. -/
inductive Matcher where
  /-- The beginning of the text. -/
  | start
  /-- Its end. -/
  | finish
  /-- One of several texts. -/
  | oneOf (texts : List (List Char))
  /-- A run of characters that pass a test, so many at least. -/
  | run (least : Nat) (test : Char → Bool)

/-- A part of a pattern; when it is captured, a match tells its text. -/
structure Part where
  matcher : Matcher
  captured : Bool

/-- The runs that a text begins with, the longest first, each with what stands behind it. -/
def runs (test : Char → Bool) : List Char → List (List Char × List Char)
  | [] => [([], [])]
  | c :: rest =>
    if test c then (runs test rest).map (Prod.map (c :: ·) id) ++ [([], c :: rest)]
    else [([], c :: rest)]

/-- What is matched at the front of a text and what stands behind it, in order of preference. -/
def Matcher.ways (atStart : Bool) (text : List Char) : Matcher → List (List Char × List Char)
  | .start => if atStart then [([], text)] else []
  | .finish => if text = [] then [([], [])] else []
  | .oneOf texts =>
    texts.flatMap fun word =>
      if word.isPrefixOf text then [(word, text.drop word.length)] else []
  | .run least test => (runs test text).filter (least ≤ ·.1.length)

/-- The captured texts with that of a part in front of those behind it. -/
def Part.keep (part : Part) (taken : List Char) (captures : List (List Char)) : List (List Char) :=
  if part.captured then taken :: captures else captures

/-- Parts that match one behind the other. -/
abbrev Pattern := List Part

namespace Pattern

/-- The captured texts of each match at the front of a text, in order of preference. -/
def ways (atStart : Bool) (text : List Char) : Pattern → List (List (List Char))
  | [] => [[]]
  | part :: rest =>
    (part.matcher.ways atStart text).flatMap fun (taken, behind) =>
      (ways (atStart && taken.isEmpty) behind rest).map (part.keep taken)

/-- The captured texts of the first match at the earliest offset. -/
def searchFrom (pattern : Pattern) (atStart : Bool) : List Char → Option (List (List Char))
  | [] => (pattern.ways atStart []).head?
  | c :: rest => (pattern.ways atStart (c :: rest)).head?.or (pattern.searchFrom false rest)

def search (pattern : Pattern) (text : List Char) : Option (List (List Char)) :=
  pattern.searchFrom true text

/-- A run of so many blanks at least. -/
def blanks (least : Nat) : Part := ⟨.run least isBlank, false⟩

/-- A run of other characters, which is told. -/
def word : Part := ⟨.run 1 (!isBlank ·), true⟩

/-- A text that has to be there. -/
def literal (text : String) : Part := ⟨.oneOf [text.toList], false⟩

def begins : Part := ⟨.start, false⟩

def ends : Part := ⟨.finish, false⟩

/-! ### Runs that cannot end early -/

variable {rest : Pattern} {part : Part} {text taken behind field gap : List Char}
  {test : Char → Bool} {least : Nat} {atStart captured : Bool}

/-- The pattern does not match at a character that passes the test. -/
def Rejects (pattern : Pattern) (test : Char → Bool) : Prop :=
  ∀ atStart c more, test c = true → pattern.ways atStart (c :: more) = []

private theorem runs_append (all : ∀ c ∈ taken, test c = true)
    (stops : ∀ c ∈ behind.head?, test c = false) :
    ∃ shorter, runs test (taken ++ behind) = (taken, behind) :: shorter ∧
      ∀ way ∈ shorter, ∃ c more, way.2 = c :: more ∧ test c = true := by
  induction taken with
  | nil =>
      cases behind with
      | nil => exact ⟨[], rfl, by simp⟩
      | cons c rest =>
          have hc : test c = false := stops c rfl
          exact ⟨[], by simp [runs, hc], by simp⟩
  | cons c taken ih =>
      obtain ⟨hc, hall⟩ := List.forall_mem_cons.mp all
      obtain ⟨shorter, hshorter, hrest⟩ := ih hall
      refine ⟨shorter.map (Prod.map (c :: ·) id) ++ [([], c :: (taken ++ behind))], ?_, ?_⟩
      · simp [runs, hc, hshorter]
      · intro way hway
        rcases List.mem_append.mp hway with hmem | hmem
        · obtain ⟨inner, hinner, rfl⟩ := List.mem_map.mp hmem
          exact hrest inner hinner
        · rw [List.mem_singleton.mp hmem]
          exact ⟨c, taken ++ behind, rfl, hc⟩

/-- **A run goes as far as it can when nothing goes on inside it.** -/
theorem ways_run (rejects : rest.Rejects test) (all : ∀ c ∈ taken, test c = true)
    (stops : ∀ c ∈ behind.head?, test c = false) :
    ways atStart (taken ++ behind) (⟨.run least test, captured⟩ :: rest) =
      if least ≤ taken.length then
        (rest.ways (atStart && taken.isEmpty) behind).map
          (Part.keep ⟨.run least test, captured⟩ taken)
      else [] := by
  obtain ⟨shorter, hruns, hshorter⟩ := runs_append all stops
  have hnone : ((shorter.filter (least ≤ ·.1.length)).flatMap fun way =>
      (rest.ways (atStart && way.1.isEmpty) way.2).map
        (Part.keep ⟨.run least test, captured⟩ way.1)) = [] := by
    rw [List.flatMap_eq_nil_iff]
    intro way hway
    obtain ⟨c, more, hbehind, hc⟩ := hshorter way (List.mem_of_mem_filter hway)
    rw [hbehind, rejects _ c more hc]
    rfl
  rw [ways, Matcher.ways, hruns]
  by_cases hleast : least ≤ taken.length
  · rw [List.filter_cons_of_pos (by simpa using hleast), List.flatMap_cons, hnone,
      List.append_nil, if_pos hleast]
  · rw [List.filter_cons_of_neg (by simpa using hleast), hnone, if_neg hleast]

/-- A run has no characters where one stands that does not pass. -/
private theorem ways_run_cons {c : Char} {more : List Char} (rejects : rest.Rejects test)
    (stops : test c = false) :
    ways atStart (c :: more) (⟨.run least test, captured⟩ :: rest) =
      if least = 0 then
        (rest.ways atStart (c :: more)).map (Part.keep ⟨.run least test, captured⟩ [])
      else [] := by
  have hnone : ∀ d ∈ ([] : List Char), test d = true := by simp
  have hstops : ∀ d ∈ (c :: more).head?, test d = false := by
    rintro d ⟨⟩
    exact stops
  simpa using ways_run rejects hnone hstops

private theorem keep_of_not_captured (matcher : Matcher) (taken : List Char) :
    (⟨matcher, false⟩ : Part).keep taken = id := rfl

private theorem ways_blanks (rejects : rest.Rejects isBlank) (blank : ∀ b ∈ gap, isBlank b = true)
    (stops : ∀ c ∈ behind.head?, isBlank c = false) :
    ways atStart (gap ++ behind) (blanks least :: rest) =
      if least ≤ gap.length then rest.ways (atStart && gap.isEmpty) behind else [] := by
  rw [blanks, ways_run rejects blank stops, keep_of_not_captured, List.map_id]

/-- Blanks that are needed are not there. -/
private theorem rejects_blanks_one (rejects : rest.Rejects isBlank) :
    Pattern.Rejects (blanks 1 :: rest) (!isBlank ·) := by
  intro atStart c more hc
  exact ways_run_cons rejects (by simpa using hc)

/-! ### Patterns that go through words -/

/-- The captured texts of all matches. -/
abbrev Found := List (List (List Char))

/-- A text that is one word. -/
structure Solid (field : List Char) : Prop where
  full : field ≠ []
  free : ∀ c ∈ field, isBlank c = false

/-- A text in front of which a word can end. -/
def Border (text : List Char) : Prop := ∀ e ∈ text.head?, isBlank e = true

/-- What a pattern finds that begins with a word, for the word and those behind it. -/
structure Takes (pattern : Pattern) (found : List Char → List (List Char) → Found) : Prop where
  rejects : pattern.Rejects isBlank
  nothing : ∀ atStart, pattern.ways atStart [] = []
  ways_eq : ∀ atStart field behind, Solid field → Border behind →
    pattern.ways atStart (field ++ behind) = found field (fullFields isBlank behind)

/-- What a pattern finds that begins behind a word, for the words that are left. -/
structure TakesBehind (pattern : Pattern) (found : List (List Char) → Found) : Prop where
  rejects : pattern.Rejects (!isBlank ·)
  ways_eq : ∀ atStart text, Border text →
    pattern.ways atStart text = found (fullFields isBlank text)

/-- What is found at the first word, and nothing when there is none. -/
def onFirst (found : List Char → List (List Char) → Found) : List (List Char) → Found
  | [] => []
  | field :: more => found field more

variable {found : List Char → List (List Char) → Found} {later : List (List Char) → Found}

private theorem Solid.head_append (h : Solid field) (behind : List Char) :
    ∀ c ∈ (field ++ behind).head?, isBlank c = false := by
  obtain ⟨c, more, rfl⟩ := List.exists_cons_of_ne_nil h.full
  intro d hd
  rw [← Option.mem_some.mp hd]
  exact h.free c (List.mem_cons_self ..)

/-- **A text is blank, or it is blanks, a word and what stands behind the word.** -/
theorem blank_or_word (text : List Char) :
    ((∀ b ∈ text, isBlank b = true) ∧ fullFields isBlank text = []) ∨
      ∃ gap field behind, text = gap ++ (field ++ behind) ∧ (∀ b ∈ gap, isBlank b = true) ∧
        Solid field ∧ Border behind ∧
        fullFields isBlank text = field :: fullFields isBlank behind := by
  obtain ⟨gap, field, behind, rfl, blank, free, stops, hempty⟩ := exists_first_field isBlank text
  by_cases hfield : field = []
  · rw [hfield, hempty hfield, List.append_nil]
    refine .inl ⟨by simpa using blank, ?_⟩
    rw [fullFields_of_separates blank]
    rfl
  · exact .inr ⟨gap, field, behind, rfl, blank, ⟨hfield, free⟩, stops,
      fullFields_cons blank hfield free stops⟩

private theorem Takes.ways_blank (h : Takes rest found) (blank : ∀ b ∈ text, isBlank b = true) :
    Pattern.ways atStart text (blanks least :: rest) = [] := by
  rw [← List.append_nil text, ways_blanks h.rejects blank (by simp), h.nothing, ite_self]

private theorem Takes.ways_word (h : Takes rest found) (blank : ∀ b ∈ gap, isBlank b = true)
    (solid : Solid field) (border : Border behind) (enough : least ≤ gap.length) :
    Pattern.ways atStart (gap ++ (field ++ behind)) (blanks least :: rest) =
      found field (fullFields isBlank behind) := by
  rw [ways_blanks h.rejects blank (solid.head_append behind), if_pos enough,
    h.ways_eq _ _ _ solid border]

/-- **Behind a word blanks lead to the next word.** -/
theorem Takes.takesBehind (h : Takes rest found) :
    TakesBehind (blanks 1 :: rest) (onFirst found) := by
  refine ⟨rejects_blanks_one h.rejects, ?_⟩
  intro atStart text border
  rcases blank_or_word text with ⟨blank, hnone⟩ |
    ⟨gap, field, behind, rfl, blank, solid, border', hwords⟩
  · rw [h.ways_blank blank, hnone]
    rfl
  · -- The text is not in the middle of a word, so there are blanks in front of the next.
    have hgap : 1 ≤ gap.length := by
      rw [Nat.one_le_iff_ne_zero, Ne, List.length_eq_zero_iff]
      rintro rfl
      obtain ⟨c, more, rfl⟩ := List.exists_cons_of_ne_nil solid.full
      have hc := border c rfl
      rw [solid.free c (List.mem_cons_self ..)] at hc
      cases hc
    rw [h.ways_word blank solid border' hgap, hwords]
    rfl

/-- A match that begins at the beginning of the text is found there or not at all. -/
theorem search_begins (rest : Pattern) (text : List Char) :
    search (begins :: rest) text = (rest.ways true text).head? := by
  have hlater (text : List Char) : searchFrom (begins :: rest) false text = none := by
    induction text with
    | nil => rfl
    | cons c more ih =>
        rw [searchFrom, ih]
        rfl
  have hfirst : ways true text (begins :: rest) = rest.ways true text := by
    simp [ways, begins, Matcher.ways, keep_of_not_captured]
  cases text with
  | nil => rw [search, searchFrom, hfirst]
  | cons c more => rw [search, searchFrom, hfirst, hlater, Option.or_none]

/-- **At the front of a text blanks lead to its first word.** -/
theorem Takes.search_eq (h : Takes rest found) (text : List Char) :
    search (begins :: blanks 0 :: rest) text =
      (onFirst found (fullFields isBlank text)).head? := by
  rw [search_begins]
  rcases blank_or_word text with ⟨blank, hnone⟩ |
    ⟨gap, field, behind, rfl, blank, solid, border, hwords⟩
  · rw [h.ways_blank blank, hnone]
    rfl
  · rw [h.ways_word blank solid border (Nat.zero_le _), hwords]
    rfl

/-- **Behind its last word a text can only end.** -/
theorem takesBehind_ends :
    TakesBehind [blanks 0, ends] (fun words => if words = [] then [[]] else []) := by
  have hrejects : Pattern.Rejects [ends] isBlank := fun _ _ _ _ => rfl
  refine ⟨?_, ?_⟩
  · intro atStart c more hc
    exact ways_run_cons hrejects (by simpa using hc)
  · intro atStart text _
    rcases blank_or_word text with ⟨blank, hnone⟩ |
      ⟨gap, field, behind, rfl, blank, solid, border, hwords⟩
    · rw [← List.append_nil text, ways_blanks hrejects blank (by simp), List.append_nil, hnone]
      rfl
    · rw [ways_blanks hrejects blank (solid.head_append behind), hwords]
      obtain ⟨c, more, rfl⟩ := List.exists_cons_of_ne_nil solid.full
      rfl

/-- **A word is told.** -/
theorem TakesBehind.word (h : TakesBehind rest later) :
    Takes (word :: rest) fun field more => (later more).map (field :: ·) := by
  refine ⟨?_, ?_, ?_⟩
  · intro atStart c more hc
    exact ways_run_cons h.rejects (by simpa using hc)
  · intro atStart
    rfl
  · intro atStart field behind solid border
    have hall : ∀ c ∈ field, (!isBlank c) = true := by
      intro c hc
      simpa using solid.free c hc
    have hstops : ∀ c ∈ behind.head?, (!isBlank c) = false := by
      intro c hc
      simpa using border c hc
    rw [Pattern.word, ways_run h.rejects hall hstops,
      if_pos (Nat.succ_le_of_lt (List.length_pos_iff.mpr solid.full)), h.ways_eq _ _ border]
    rfl

/-- What a pattern finds behind a text that has to be there. -/
def behindText (part : Part) (rest : Pattern) (atStart : Bool) (text taken : List Char) : Found :=
  if taken.isPrefixOf text then
    (rest.ways (atStart && taken.isEmpty) (text.drop taken.length)).map (part.keep taken)
  else []

private theorem ways_oneOf (texts : List (List Char)) (captured atStart : Bool) (rest : Pattern)
    (text : List Char) :
    ways atStart text (⟨.oneOf texts, captured⟩ :: rest) =
      texts.flatMap (behindText ⟨.oneOf texts, captured⟩ rest atStart text) := by
  rw [ways, Matcher.ways, List.flatMap_assoc]
  refine congrArg (fun f => List.flatMap f texts) (funext fun taken => ?_)
  rw [behindText]
  split
  · rw [List.flatMap_singleton]
  · rfl

private theorem behindText_eq_nil (h : ¬taken <+: text) :
    behindText part rest atStart text taken = [] := by
  rw [behindText, if_neg]
  rwa [List.isPrefixOf_iff_prefix]

private theorem behindText_append (tail : List Char) :
    behindText part rest atStart (taken ++ tail) taken =
      (rest.ways (atStart && taken.isEmpty) tail).map (part.keep taken) := by
  rw [behindText, if_pos (List.isPrefixOf_iff_prefix.mpr (List.prefix_append ..)), List.drop_left]

private theorem behindText_nil (part : Part) (rest : Pattern) (atStart : Bool) (text : List Char) :
    behindText part rest atStart text [] = (rest.ways atStart text).map (part.keep []) := by
  simp [behindText]

/-- A word that has to be there is the next one, the whole of it. -/
private theorem TakesBehind.behindText_eq (h : TakesBehind rest later) (solid : Solid taken)
    (solid' : Solid field) (border : Border behind) :
    behindText part rest atStart (field ++ behind) taken =
      if taken = field then (later (fullFields isBlank behind)).map (part.keep field) else [] := by
  by_cases hprefix : taken <+: field ++ behind
  · obtain ⟨tail, htail⟩ := hprefix
    rw [← htail, behindText_append]
    rcases List.append_eq_append_iff.mp htail with ⟨more, rfl, rfl⟩ | ⟨more, rfl, rfl⟩
    · cases more with
      | nil =>
          rw [List.append_nil, if_pos rfl, List.nil_append, h.ways_eq _ _ border]
      | cons c more =>
          -- The word goes on behind the text.
          have hc : (!isBlank c) = true := by
            simpa using solid'.free c (by simp)
          rw [List.cons_append, h.rejects _ c _ hc, if_neg (by simp)]
          rfl
    · cases more with
      | nil =>
          rw [List.append_nil, if_pos rfl]
          exact congrArg (List.map _) (h.ways_eq _ _ border)
      | cons c more =>
          -- The text goes on behind the word.
          have hc := border c rfl
          rw [solid.free c (by simp)] at hc
          cases hc
  · rw [behindText_eq_nil hprefix, if_neg]
    rintro rfl
    exact hprefix (List.prefix_append ..)

private theorem flatMap_if_eq {texts : List (List Char)} (distinct : texts.Nodup) (x : Found) :
    (texts.flatMap fun taken => if taken = field then x else []) =
      if field ∈ texts then x else [] := by
  induction texts with
  | nil => rfl
  | cons taken texts ih =>
      obtain ⟨hnew, hrest⟩ := List.nodup_cons.mp distinct
      rw [List.flatMap_cons, ih hrest]
      by_cases htaken : taken = field
      · subst htaken
        simp [hnew]
      · simp [htaken, Ne.symm htaken]

/-- **One of several words is the next one.** -/
theorem TakesBehind.oneOf {texts : List (List Char)} (h : TakesBehind rest later)
    (solid : ∀ taken ∈ texts, Solid taken) (distinct : texts.Nodup) :
    Takes (⟨.oneOf texts, captured⟩ :: rest) fun field more =>
      if field ∈ texts then (later more).map (Part.keep ⟨.oneOf texts, captured⟩ field)
      else [] := by
  refine ⟨?_, ?_, ?_⟩
  · intro atStart c more hc
    rw [ways_oneOf, List.flatMap_eq_nil_iff]
    intro taken htaken
    refine behindText_eq_nil ?_
    obtain ⟨d, taken, rfl⟩ := List.exists_cons_of_ne_nil (solid taken htaken).full
    rw [List.cons_prefix_cons]
    rintro ⟨rfl, -⟩
    rw [(solid _ htaken).free d (List.mem_cons_self ..)] at hc
    cases hc
  · intro atStart
    rw [ways_oneOf, List.flatMap_eq_nil_iff]
    intro taken htaken
    refine behindText_eq_nil ?_
    rw [List.prefix_nil]
    exact (solid taken htaken).full
  · intro atStart field behind solid' border
    rw [ways_oneOf, ← flatMap_if_eq distinct]
    exact List.flatMap_congr fun taken htaken => h.behindText_eq (solid taken htaken) solid' border

theorem TakesBehind.literal {text : String} (h : TakesBehind rest later)
    (solid : Solid text.toList) :
    Takes (literal text :: rest) fun field more =>
      if field = text.toList then later more else [] := by
  have htakes : Takes (⟨.oneOf [text.toList], false⟩ :: rest) _ :=
    h.oneOf (List.forall_mem_singleton.mpr solid) (by simp)
  show Takes (⟨.oneOf [text.toList], false⟩ :: rest) _
  simpa [keep_of_not_captured] using htakes

/-- Where a word cannot begin there is none to tell. -/
private theorem Takes.ways_border (h : Takes rest found) (border : Border behind) :
    Pattern.ways atStart behind rest = [] := by
  cases behind with
  | nil => exact h.nothing atStart
  | cons c more => exact h.rejects atStart c more (border c rfl)

/-- **A word may have a mark in front of it.**  Where more stands behind the mark it is told apart
first; else the mark is the word, or there is none. -/
theorem TakesBehind.marked {mark : Char} (h : TakesBehind rest later)
    (solid : isBlank mark = false) :
    Takes (⟨.oneOf [[mark], []], true⟩ :: Pattern.word :: rest) fun field more =>
      (if field.head? = some mark ∧ field.tail ≠ [] then
        (later more).map fun captures => [mark] :: field.tail :: captures
      else []) ++ (later more).map fun captures => [] :: field :: captures := by
  have hword := h.word
  have hsplit (atStart : Bool) (text : List Char) :
      Pattern.ways atStart text (⟨.oneOf [[mark], []], true⟩ :: Pattern.word :: rest) =
        behindText ⟨.oneOf [[mark], []], true⟩ (Pattern.word :: rest) atStart text [mark] ++
          (Pattern.ways atStart text (Pattern.word :: rest)).map ([] :: ·) := by
    rw [ways_oneOf, List.flatMap_cons, List.flatMap_singleton, behindText_nil]
    rfl
  refine ⟨?_, ?_, ?_⟩
  · intro atStart c more hc
    have hmark : ¬[mark] <+: c :: more := by
      rw [List.cons_prefix_cons]
      rintro ⟨rfl, -⟩
      rw [solid] at hc
      cases hc
    rw [hsplit, hword.rejects atStart c more hc, behindText_eq_nil hmark]
    rfl
  · intro atStart
    rw [hsplit, hword.nothing, behindText_eq_nil (by simp)]
    rfl
  · intro atStart field behind solid' border
    rw [hsplit, hword.ways_eq _ _ _ solid' border, List.map_map]
    refine congrArg (· ++ _) ?_
    obtain ⟨c, tail, rfl⟩ := List.exists_cons_of_ne_nil solid'.full
    by_cases hc : c = mark
    · subst hc
      have htext : c :: tail ++ behind = [c] ++ (tail ++ behind) := rfl
      rw [htext, behindText_append]
      by_cases htail : tail = []
      · rw [htail, List.nil_append, hword.ways_border border, if_neg (by simp)]
        rfl
      · have hsolid : Solid tail := ⟨htail, fun d hd => solid'.free d (List.mem_cons_of_mem _ hd)⟩
        rw [hword.ways_eq _ _ _ hsolid border, if_pos ⟨rfl, htail⟩, List.map_map]
        rfl
    · have hmark : ¬[mark] <+: c :: tail ++ behind := by
        rw [List.cons_append, List.cons_prefix_cons]
        exact fun hsame => hc hsame.1.symm
      rw [behindText_eq_nil hmark, if_neg]
      rintro ⟨hhead, -⟩
      exact hc (Option.some.inj hhead)

end Pattern

end Text
end ShaderLink
