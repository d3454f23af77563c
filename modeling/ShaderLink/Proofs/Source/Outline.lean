/-
Where the comments of a line stand.

Stripping takes the comments out of a line and tells no more where they stood.  The
outline of a line keeps their places.  It can be read in two ways: with the comments
left out, which is what stripping leaves, and with a slash for each, which is what stands
beside a comment as long as it is there, for every comment begins with a slash and every
block comment ends with one.

Spacing a line does not touch its comment marks.  So the outline of the spaced line is
that of the line, spaced in the reading with slashes: its keywords are `Joined` and its
marks set apart by `setApart`.
-/
import ShaderLink.Proofs.Source.Spacing
import ShaderLink.Source.Comment

namespace ShaderLink
namespace Comment

open Text Spacing

variable {before : Option Char}

/-- The characters of a line that stand outside comments, with a gap for each comment. -/
abbrev Outline := List (Option Char)

/-- The outline with the comments left out. -/
def kept (o : Outline) : List Char := o.filterMap id

/-- The outline with a slash for each comment. -/
def slashed (o : Outline) : List Char := o.map (·.getD '/')

/-- The outline of a line, and whether a block comment is open behind it; nothing when a comment ends
that was never begun.  The flag says whether one is open at the start. -/
def outline : Bool → List Char → Option (Outline × Bool)
  | true, '*' :: '/' :: rest => outline false rest
  | true, _ :: rest => outline true rest
  | true, [] => some ([], true)
  | false, '/' :: '/' :: _ => some ([none], false)
  | false, '/' :: '*' :: rest => (outline true rest).map (Prod.map (none :: ·) id)
  | false, '*' :: '/' :: _ => none
  | false, c :: rest => (outline false rest).map (Prod.map (some c :: ·) id)
  | false, [] => some ([], false)

/-! ### The two readings -/

@[simp] theorem kept_none_cons (o : Outline) : kept (none :: o) = kept o := rfl

@[simp] theorem kept_some_cons (c : Char) (o : Outline) : kept (some c :: o) = c :: kept o := rfl

@[simp] theorem kept_append (a b : Outline) : kept (a ++ b) = kept a ++ kept b :=
  List.filterMap_append

@[simp] theorem kept_map_some (text : List Char) : kept (text.map some) = text := by
  rw [kept, List.filterMap_map]
  exact List.filterMap_some

@[simp] theorem slashed_some_cons (c : Char) (o : Outline) :
    slashed (some c :: o) = c :: slashed o := rfl

@[simp] theorem slashed_append (a b : Outline) : slashed (a ++ b) = slashed a ++ slashed b :=
  List.map_append

@[simp] theorem slashed_map_some (text : List Char) : slashed (text.map some) = text := by
  rw [slashed, List.map_map]
  exact List.map_id text

/-- **Stripping leaves what the outline keeps.** -/
theorem strip_eq (inside : Bool) (text : List Char) :
    strip inside text = (outline inside text).map (Prod.map kept id) := by
  fun_induction outline inside text with
  | case1 rest ih => rw [strip, ih]
  | case2 c rest h ih => rw [strip, ih]; exact h
  | case3 => rfl
  | case4 rest => rfl
  | case5 rest ih =>
      rw [strip, ih, Option.map_map]
      rfl
  | case6 rest => rfl
  | case7 c rest h1 h2 h3 ih =>
      rw [strip, ih, Option.map_map, Option.map_map]
      · rfl
      all_goals assumption
  | case8 => rfl

theorem strip_of_outline {inside after : Bool} {text : List Char} {o : Outline}
    (h : outline inside text = some (o, after)) : strip inside text = some (kept o, after) := by
  rw [strip_eq, h]
  rfl

theorem sublist_of_strip {inside after : Bool} {text kept : List Char}
    (h : strip inside text = some (kept, after)) : kept.Sublist text := by
  fun_induction strip inside text generalizing kept after with
  | case1 rest ih => exact ((ih h).cons _).cons _
  | case2 c rest _ ih => exact (ih h).cons _
  | case3 => simp_all
  | case4 => simp_all
  | case5 rest ih => exact ((ih h).cons _).cons _
  | case6 => simp at h
  | case7 c rest _ _ _ ih =>
      obtain ⟨⟨more, inside⟩, hmore, hkept⟩ := Option.map_eq_some_iff.mp h
      obtain ⟨rfl, -⟩ := Prod.mk.inj hkept
      exact (ih hmore).cons_cons c
  | case8 => simp_all

theorem stripFrom_cons {inside after : Bool} {line : SourceLine} {left : List Char}
    (h : strip inside line.text.toList = some (left, after)) (rest : List SourceLine) :
    stripFrom inside (line :: rest) =
      (stripFrom after rest).cons { line with text := String.ofList left } := by
  rw [stripFrom, stripLine, h]

/-! ### Characters and marks -/

/-- Whether a character begins a mark with the one behind it: inside a comment only the end mark is
one. -/
def isMark (inside : Bool) (c : Char) (next : Option Char) : Bool :=
  (!inside && c == '/' && (next == some '/' || next == some '*')) || (c == '*' && next == some '/')

theorem isMark_eq_true {inside : Bool} {c : Char} {rest : List Char}
    (h : isMark inside c rest.head? = true) :
    (inside = false ∧ c = '/' ∧ ∃ more, rest = '/' :: more) ∨
      (inside = false ∧ c = '/' ∧ ∃ more, rest = '*' :: more) ∨
      (c = '*' ∧ ∃ more, rest = '/' :: more) := by
  cases rest with
  | nil => exact absurd h (by simp [isMark])
  | cons d more =>
      have hcd : ((inside = false ∧ c = '/') ∧ (d = '/' ∨ d = '*')) ∨ c = '*' ∧ d = '/' := by
        simpa [isMark] using h
      rcases hcd with ⟨⟨hinside, rfl⟩, rfl | rfl⟩ | ⟨rfl, rfl⟩
      · exact .inl ⟨hinside, rfl, more, rfl⟩
      · exact .inr (.inl ⟨hinside, rfl, more, rfl⟩)
      · exact .inr (.inr ⟨rfl, more, rfl⟩)

/-- A character begins no mark when none of the marks stands there. -/
theorem isMark_eq_false {inside : Bool} {c : Char} {rest : List Char}
    (line : inside = false → ∀ more, c = '/' → rest = '/' :: more → False)
    (block : inside = false → ∀ more, c = '/' → rest = '*' :: more → False)
    (ending : ∀ more, c = '*' → rest = '/' :: more → False) :
    isMark inside c rest.head? = false := by
  rw [← Bool.not_eq_true]
  intro hmark
  rcases isMark_eq_true hmark with ⟨hin, hc, more, hr⟩ | ⟨hin, hc, more, hr⟩ | ⟨hc, more, hr⟩
  · exact line hin more hc hr
  · exact block hin more hc hr
  · exact ending more hc hr

theorem outline_true_cons {c : Char} {rest : List Char} (h : isMark true c rest.head? = false) :
    outline true (c :: rest) = outline true rest := by
  rw [outline]
  rintro after rfl rfl
  exact absurd h (by simp [isMark])

theorem outline_false_cons {c : Char} {rest : List Char} (h : isMark false c rest.head? = false) :
    outline false (c :: rest) = (outline false rest).map (Prod.map (some c :: ·) id) := by
  rw [outline]
  all_goals
    rintro after rfl rfl
    exact absurd h (by simp [isMark])

/-- A text without slashes and asterisks belongs to no mark. -/
private theorem outline_true_append {text : List Char} (h : ∀ c ∈ text, c ≠ '/' ∧ c ≠ '*')
    (rest : List Char) : outline true (text ++ rest) = outline true rest := by
  induction text with
  | nil => rfl
  | cons c text ih =>
      have hc := h c (List.mem_cons_self ..)
      rw [List.cons_append, outline_true_cons (by simp [isMark, hc]),
        ih fun d hd => h d (List.mem_cons_of_mem _ hd)]

private theorem outline_false_append {text : List Char} (h : ∀ c ∈ text, c ≠ '/' ∧ c ≠ '*')
    (rest : List Char) :
    outline false (text ++ rest) =
      (outline false rest).map (Prod.map (text.map some ++ ·) id) := by
  induction text with
  | nil =>
      show outline false rest = (outline false rest).map id
      rw [Option.map_id, id]
  | cons c text ih =>
      have hc := h c (List.mem_cons_self ..)
      rw [List.cons_append, outline_false_cons (by simp [isMark, hc]),
        ih fun d hd => h d (List.mem_cons_of_mem _ hd), Option.map_map]
      rfl

/-- Up to the first comment the outline is the line, and there the line has a slash. -/
private theorem slashed_of_outline {text : List Char} {o : Outline} {after : Bool}
    (h : outline false text = some (o, after)) :
    slashed o = text ∨ ∃ front rest rest', text = front ++ '/' :: rest ∧
      slashed o = front ++ '/' :: rest' := by
  induction text generalizing o with
  | nil =>
      rw [outline, Option.some.injEq, Prod.mk.injEq] at h
      exact .inl (by rw [← h.1]; rfl)
  | cons c text ih =>
      cases hmark : isMark false c text.head? with
      | false =>
          rw [outline_false_cons hmark, Option.map_eq_some_iff] at h
          obtain ⟨⟨o', after'⟩, hrest, heq⟩ := h
          obtain ⟨rfl, rfl⟩ := Prod.mk.inj heq
          rcases ih hrest with hsame | ⟨front, rest, rest', rfl, hfront⟩
          · exact .inl (by rw [slashed_some_cons, hsame])
          · exact .inr ⟨c :: front, rest, rest', rfl, by rw [slashed_some_cons, hfront]; rfl⟩
      | true =>
          rcases isMark_eq_true hmark with
            ⟨-, rfl, more, rfl⟩ | ⟨-, rfl, more, rfl⟩ | ⟨rfl, more, rfl⟩
          · rw [outline, Option.some.injEq, Prod.mk.injEq] at h
            exact .inr ⟨[], '/' :: more, [], rfl, by rw [← h.1]; rfl⟩
          · rw [outline, Option.map_eq_some_iff] at h
            obtain ⟨⟨o', after'⟩, -, heq⟩ := h
            exact .inr ⟨[], '*' :: more, slashed o', rfl, by rw [← (Prod.mk.inj heq).1]; rfl⟩
          · exact absurd h (by simp [outline])

theorem head?_slashed {text : List Char} {o : Outline} {after : Bool}
    (h : outline false text = some (o, after)) : (slashed o).head? = text.head? := by
  rcases slashed_of_outline h with hsame | ⟨front, rest, rest', rfl, hfront⟩
  · rw [hsame]
  · rw [hfront]
    cases front <;> rfl

/-- A keyword starts in front of a comment where it starts in front of a slash. -/
private theorem startsKeyword_slashed {text : List Char} {o : Outline} {after : Bool}
    (h : outline false text = some (o, after)) (before : Option Char) (c : Char) :
    startsKeyword before (c :: slashed o) = startsKeyword before (c :: text) := by
  rcases slashed_of_outline h with hsame | ⟨front, rest, rest', rfl, hfront⟩
  · rw [hsame]
  · have hends := startsKeyword_append_cons (e := '/') (by decide) (by decide) before (c :: front)
    rw [hfront, ← List.cons_append, ← List.cons_append, hends, hends]

/-! ### The outline with its keywords joined -/

/-- An outline, and what becomes of it when its keywords are joined in the reading with slashes.
The character is the one to the left. -/
inductive Joined : Option Char → Outline → Outline → Prop where
  | nil (before : Option Char) : Joined before [] []
  | comment (before : Option Char) {o o' : Outline} (more : Joined (some '/') o o') :
      Joined before (none :: o) (none :: o')
  | keyword {before : Option Char} {kind : ConstKind} {words : List Char} {o o' : Outline}
      (edge : isWordEdge before = true) (spells : Spells kind words)
      (ends : isWordEdge (slashed o).head? = true) (more : Joined (some 't') o o') :
      Joined before (words.map some ++ o) ((joined kind).toList.map some ++ o')
  | char {before : Option Char} {c : Char} {o o' : Outline}
      (plain : startsKeyword before (c :: slashed o) = false) (more : Joined (some c) o o') :
      Joined before (some c :: o) (some c :: o')

/-- What stands to the left of the first character outside comments. -/
def leftOf (inside : Bool) (before : Option Char) : Option Char :=
  if inside then some '/' else before

/-- The outlines of a line and of the line with its keywords joined: both or none. -/
def JoinedIn (before : Option Char) : Option (Outline × Bool) → Option (Outline × Bool) → Prop :=
  Option.Rel fun a b => Joined before a.1 b.1 ∧ a.2 = b.2

private theorem JoinedIn.map {before other : Option Char} {a b : Option (Outline × Bool)}
    {f g : Outline → Outline} (h : JoinedIn before a b)
    (hfg : ∀ o o' after, a = some (o, after) → Joined before o o' → Joined other (f o) (g o')) :
    JoinedIn other (a.map (Prod.map f id)) (b.map (Prod.map g id)) := by
  cases h with
  | some h => exact .some ⟨hfg _ _ _ rfl h.1, h.2⟩
  | none => exact .none

private theorem free_of_spells {kind : ConstKind} {words : List Char} (h : Spells kind words) :
    ∀ c ∈ words, c ≠ '/' ∧ c ≠ '*' := by
  obtain ⟨tail, rfl, -, htail⟩ := h.eq_cons
  refine List.forall_mem_cons.mpr ⟨by decide, fun c hc => ⟨?_, ?_⟩⟩
  all_goals
    rintro rfl
    exact absurd (htail _ hc) (by decide)

theorem free_joined (kind : ConstKind) : ∀ c ∈ (joined kind).toList, c ≠ '/' ∧ c ≠ '*' := by
  have hkind : (joined kind).toList.all (fun c => c != '/' && c != '*') = true := by
    cases kind <;> decide
  simpa using hkind

private theorem joinedIn_words {kind : ConstKind} {words rest : List Char}
    (spells : Spells kind words) {inside : Bool} (hbefore : isWordEdge before = true)
    (ends : isWordEdge rest.head? = true)
    (h : JoinedIn (leftOf inside (some 't')) (outline inside rest)
      (outline inside (joinKeywords (some 't') 0 rest))) :
    JoinedIn (leftOf inside before) (outline inside (words ++ rest))
      (outline inside (joinKeywords before 0 (words ++ rest))) := by
  rw [joinKeywords_words spells hbefore ends]
  cases inside with
  | true =>
      rw [outline_true_append (free_of_spells spells), outline_true_append (free_joined kind)]
      exact h
  | false =>
      rw [outline_false_append (free_of_spells spells), outline_false_append (free_joined kind)]
      refine h.map fun o o' after ho hjoined => ?_
      exact .keyword hbefore spells (by rwa [head?_slashed ho]) hjoined

private theorem joinedIn_cons {c : Char} {rest : List Char} {inside : Bool}
    (hmark : isMark inside c rest.head? = false)
    (plain : startsKeyword before (c :: rest) = false)
    (h : JoinedIn (leftOf inside (some c)) (outline inside rest)
      (outline inside (joinKeywords (some c) 0 rest))) :
    JoinedIn (leftOf inside before) (outline inside (c :: rest))
      (outline inside (joinKeywords before 0 (c :: rest))) := by
  have hmark' : isMark inside c (joinKeywords (some c) 0 rest).head? = false := by
    rwa [head?_joinKeywords]
  rw [joinKeywords_cons plain]
  cases inside with
  | true =>
      rw [outline_true_cons hmark, outline_true_cons hmark']
      exact h
  | false =>
      rw [outline_false_cons hmark, outline_false_cons hmark']
      refine h.map fun o o' after ho hjoined => .char ?_ hjoined
      rwa [startsKeyword_slashed ho]

/-- **Joining keywords finds every mark of a comment again.** -/
theorem outline_joinKeywords (before : Option Char) (inside : Bool) (text : List Char) :
    JoinedIn (leftOf inside before) (outline inside text)
      (outline inside (joinKeywords before 0 text)) := by
  -- a mark takes two characters and the words of a keyword take several, so it is their number
  induction hn : text.length using Nat.strongRecOn generalizing before inside text with
  | ind n ih =>
      cases hstarts : startsKeyword before text with
      | true =>
          obtain ⟨hbefore, kind, words, rest, rfl, spells, ends⟩ :=
            startsKeyword_eq_true_iff.mp hstarts
          have hlength : rest.length < n := by
            obtain ⟨tail, rfl, -⟩ := spells.eq_cons
            rw [← hn, List.length_append, List.length_cons]
            omega
          exact joinedIn_words spells hbefore ends (ih _ hlength _ _ rest rfl)
      | false =>
          cases text with
          | nil => cases inside <;> exact .some ⟨.nil _, rfl⟩
          | cons c rest =>
              cases hmark : isMark inside c rest.head? with
              | false => exact joinedIn_cons hmark hstarts (ih _ (by simp [← hn]) _ _ rest rfl)
              | true =>
                  -- behind the second character of a mark the text goes on
                  have hbehind : ∀ d more, d ≠ 'c' → rest = d :: more → more.length < n ∧
                      joinKeywords (some c) 0 rest = d :: joinKeywords (some d) 0 more := by
                    rintro d more hd rfl
                    refine ⟨?_, joinKeywords_cons (startsKeyword_cons_of_ne hd _ _)⟩
                    rw [← hn, List.length_cons, List.length_cons]
                    omega
                  rw [joinKeywords_cons hstarts]
                  rcases isMark_eq_true hmark with
                    ⟨rfl, rfl, more, rfl⟩ | ⟨rfl, rfl, more, rfl⟩ | ⟨rfl, more, rfl⟩
                  · rw [(hbehind _ _ (by decide) rfl).2]
                    exact .some ⟨.comment _ (.nil _), rfl⟩
                  · obtain ⟨hlength, hmore⟩ := hbehind _ _ (by decide) rfl
                    rw [hmore]
                    exact (ih _ hlength (some '*') true more rfl).map
                      fun o o' after _ hjoined => .comment _ hjoined
                  · obtain ⟨hlength, hmore⟩ := hbehind _ _ (by decide) rfl
                    rw [hmore]
                    cases inside with
                    | true => exact ih _ hlength (some '/') false more rfl
                    | false => exact .none

/-! ### The outline with its marks set apart -/

/-- The outline with its marks set apart in the reading with slashes. -/
def setApartOutline (before : Option Char) : Outline → Outline
  | [] => []
  | none :: rest => none :: setApartOutline (some '/') rest
  | some c :: rest =>
    (spacedChar before c (slashed rest).head?).map some ++ setApartOutline (some c) rest

/-- A character set apart has blanks around it, and is itself no part of a mark. -/
theorem free_of_standsApart {before after : Option Char} {c : Char}
    (h : standsApart before c after = true) : ∀ d ∈ [' ', c, ' '], d ≠ '/' ∧ d ≠ '*' := by
  have hc : c ≠ '/' ∧ c ≠ '*' := by
    refine ⟨?_, ?_⟩
    all_goals
      rintro rfl
      exact absurd h (by simp [standsApart])
  simp [hc]

theorem isMark_setApart (inside : Bool) (c : Char) (before : Option Char) (text : List Char) :
    isMark inside c (setApart before text).head? = isMark inside c text.head? := by
  cases text with
  | nil => rfl
  | cons d rest =>
      rw [setApart_cons, spacedChar_eq]
      split
      · rename_i hapart
        have hd := free_of_standsApart hapart d (by simp)
        simp [isMark, hd]
      · rfl

private theorem outline_true_setApart {c : Char} {rest : List Char}
    (h : isMark true c rest.head? = false) (before : Option Char) :
    outline true (setApart before (c :: rest)) = outline true (setApart (some c) rest) := by
  rw [setApart_cons, spacedChar_eq]
  split
  · rename_i hapart
    exact outline_true_append (free_of_standsApart hapart) _
  · rw [← isMark_setApart true c (some c)] at h
    exact outline_true_cons h

private theorem outline_false_setApart {c : Char} {rest : List Char}
    (h : isMark false c rest.head? = false) (before : Option Char) :
    outline false (setApart before (c :: rest)) =
      (outline false (setApart (some c) rest)).map
        (Prod.map ((spacedChar before c rest.head?).map some ++ ·) id) := by
  rw [setApart_cons, spacedChar_eq]
  split
  · rename_i hapart
    exact outline_false_append (free_of_standsApart hapart) _
  · rw [← isMark_setApart false c (some c)] at h
    exact outline_false_cons h

/-- **Setting marks apart finds every mark of a comment again.** -/
theorem outline_setApart (before : Option Char) (inside : Bool) (text : List Char) :
    outline inside (setApart before text) =
      (outline inside text).map (Prod.map (setApartOutline (leftOf inside before)) id) := by
  fun_induction outline inside text generalizing before with
  | case1 rest ih => exact ih (some '/')
  | case2 c rest hend ih =>
      have hmark : isMark true c rest.head? = false := by
        rw [Bool.eq_false_iff]
        intro hmark
        rcases isMark_eq_true hmark with ⟨hinside, -⟩ | ⟨hinside, -⟩ | ⟨hc, more, hrest⟩
        · exact absurd hinside (by simp)
        · exact absurd hinside (by simp)
        · exact hend more hc hrest
      rw [outline_true_setApart hmark, ih]
      rfl
  | case3 => rfl
  | case4 rest => rfl
  | case5 rest ih =>
      show (outline true (setApart (some '*') rest)).map _ = _
      rw [ih, Option.map_map, Option.map_map]
      rfl
  | case6 rest => rfl
  | case7 c rest hline hblock hstray ih =>
      have hmark : isMark false c rest.head? = false := by
        rw [Bool.eq_false_iff]
        intro hmark
        rcases isMark_eq_true hmark with
          ⟨-, hc, more, hrest⟩ | ⟨-, hc, more, hrest⟩ | ⟨hc, more, hrest⟩
        · exact hline more hc hrest
        · exact hblock more hc hrest
        · exact hstray more hc hrest
      rw [outline_false_setApart hmark, ih]
      cases hrest : outline false rest with
      | none => rfl
      | some found =>
          show some _ = some (setApartOutline before (some c :: found.1), found.2)
          rw [setApartOutline, head?_slashed hrest]
          rfl
  | case8 => rfl

end Comment
end ShaderLink
