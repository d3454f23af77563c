/-
Where comments change the tokens of a line.

A file's text is spaced before its comments are stripped, so a keyword or a mark beside a
comment is read with the slash of the comment for a neighbour.  Were the comments
stripped first, it would be read with the text behind the comment.  A line reads alike
(`ReadsAlike`) when the two readings agree wherever it matters: the same characters start
a keyword, and an equals sign that is part of an operator in one reading only has
characters around it that set it apart in any case.

`words_eq_iff_readsAlike` says that the two orders give a line the same words exactly when
it reads alike.  The keywords go first.  Joining one adds an underscore, so lines of the same words
join the same keywords; when they do, what is left to compare are the marks, and there
the words tell character by character which equals signs stand apart.
-/
import ShaderLink.Proofs.Source.Outline

namespace ShaderLink
namespace Comment

open Text Spacing

variable {before keep : Option Char} {o o' : Outline}

/-! ### The readings side by side -/

/-- The same characters start a keyword with a slash for each comment and with the comments left out.
The characters are those to the left in the two readings. -/
def KeywordsAlike (slash keep : Option Char) : Outline → Prop
  | [] => True
  | none :: rest => KeywordsAlike (some '/') keep rest
  | some c :: rest =>
    startsKeyword slash (c :: slashed rest) = startsKeyword keep (c :: kept rest) ∧
      KeywordsAlike (some c) (some c) rest

/-- A neighbour beside which a character is a word of its own or the end of one in any case: none, a
blank, a semicolon or a parenthesis. -/
def isBreak (neighbour : Option Char) : Bool :=
  neighbour.all fun c => isBlank c || c == ';' || c == '(' || c == ')'

/-- Every equals sign is part of an operator in both readings or in none, or has breaks on both sides
when the comments are left out. -/
def SignsAlike (slash keep : Option Char) : Outline → Prop
  | [] => True
  | none :: rest => SignsAlike (some '/') keep rest
  | some c :: rest =>
    (c = '=' →
      isCompound slash (slashed rest).head? = isCompound keep (kept rest).head? ∨
        (isBreak keep = true ∧ isBreak (kept rest).head? = true)) ∧
      SignsAlike (some c) (some c) rest

/-- A line that reads alike with a slash for each comment and with its comments left out. -/
structure ReadsAlike (o : Outline) : Prop where
  keywords : KeywordsAlike none none o
  signs : SignsAlike none none o

instance decidableKeywordsAlike (slash keep : Option Char) :
    (o : Outline) → Decidable (KeywordsAlike slash keep o)
  | [] => isTrue trivial
  | none :: rest => decidableKeywordsAlike (some '/') keep rest
  | some c :: rest => @instDecidableAnd _ _ _ (decidableKeywordsAlike (some c) (some c) rest)

instance decidableSignsAlike (slash keep : Option Char) :
    (o : Outline) → Decidable (SignsAlike slash keep o)
  | [] => isTrue trivial
  | none :: rest => decidableSignsAlike (some '/') keep rest
  | some c :: rest => @instDecidableAnd _ _ _ (decidableSignsAlike (some c) (some c) rest)

instance (o : Outline) : Decidable (ReadsAlike o) :=
  decidable_of_iff (KeywordsAlike none none o ∧ SignsAlike none none o)
    ⟨fun h => ⟨h.1, h.2⟩, fun h => ⟨h.keywords, h.signs⟩⟩

/-! ### Joining keywords -/

/-- No keyword starts within a text without the letter that they start with. -/
private theorem keywordsAlike_append {text : List Char} {last : Char} (free : ∀ c ∈ text, c ≠ 'c')
    (hlast : text.getLast? = some last) (slash keep : Option Char) (o : Outline) :
    KeywordsAlike slash keep (text.map some ++ o) ↔ KeywordsAlike (some last) (some last) o := by
  induction text generalizing slash keep with
  | nil => exact absurd hlast (by simp)
  | cons c text ih =>
      have hc := free c (List.mem_cons_self ..)
      show startsKeyword _ (c :: _) = startsKeyword _ (c :: _) ∧ _ ↔ _
      rw [startsKeyword_cons_of_ne hc, startsKeyword_cons_of_ne hc]
      cases text with
      | nil =>
          rw [← Option.some.inj hlast]
          simp
      | cons d text =>
          have hmore := ih (fun e he => free e (List.mem_cons_of_mem _ he)) (by simpa using hlast)
            (some c) (some c)
          simpa using hmore

private theorem free_tail {tail : List Char} (h : ∀ d ∈ tail, isKeywordChar d = true) :
    ∀ d ∈ tail, d ≠ 'c' := by
  rintro d hd rfl
  exact absurd (h _ hd) (by decide)

/-- The words of a keyword read alike when they are one in both readings. -/
private theorem keywordsAlike_words {kind : ConstKind} {words : List Char} (h : Spells kind words)
    (slash keep : Option Char) (o : Outline) :
    KeywordsAlike slash keep (words.map some ++ o) ↔
      startsKeyword slash (words ++ slashed o) = startsKeyword keep (words ++ kept o) ∧
        KeywordsAlike (some 't') (some 't') o := by
  obtain ⟨tail, rfl, hlast, htail⟩ := h.eq_cons
  rw [← keywordsAlike_append (free_tail htail) hlast (some 'c') (some 'c')]
  show startsKeyword slash ('c' :: slashed (tail.map some ++ o)) =
    startsKeyword keep ('c' :: kept (tail.map some ++ o)) ∧ _ ↔ _
  rw [slashed_append, slashed_map_some, kept_append, kept_map_some]
  rfl

/-- **Where the keywords read alike, the order of joining and stripping does not matter.** -/
theorem kept_of_joined (h : Joined before o o') (keep : Option Char)
    (alike : KeywordsAlike before keep o) : kept o' = joinKeywords keep 0 (kept o) := by
  induction h generalizing keep with
  | nil before => rfl
  | comment before more ih => exact ih keep alike
  | keyword edge spells ends more ih =>
      rename_i before kind words o o'
      obtain ⟨hstarts, hmore⟩ := (keywordsAlike_words spells before keep o).mp alike
      rw [startsKeyword_of_spells spells, startsKeyword_of_spells spells, edge, ends, eq_comm,
        Bool.and_self, Bool.and_eq_true] at hstarts
      rw [kept_append, kept_append, kept_map_some, kept_map_some,
        joinKeywords_words spells hstarts.1 hstarts.2, ih _ hmore]
  | char plain more ih =>
      rename_i before c o o'
      obtain ⟨hstarts, hmore⟩ := alike
      rw [plain] at hstarts
      rw [kept_some_cons, kept_some_cons, joinKeywords_cons hstarts.symm, ih _ hmore]

/-- Up to a place where a keyword may start, joining leaves the characters as they are. -/
private theorem Joined.kept_append (h : Joined before o o') {text rest : List Char}
    (free : ∀ c ∈ text, c ≠ 'c') (htext : kept o = text ++ rest) :
    ∃ more, kept o' = text ++ more := by
  induction h generalizing text with
  | nil before => exact ⟨rest, htext⟩
  | comment before more ih => exact ih free htext
  | keyword edge spells ends more ih =>
      cases text with
      | nil => exact ⟨_, rfl⟩
      | cons c text =>
          obtain ⟨tail, rfl, -⟩ := spells.eq_cons
          exact absurd (List.cons.inj htext).1.symm (free c (List.mem_cons_self ..))
  | char plain more ih =>
      cases text with
      | nil => exact ⟨_, rfl⟩
      | cons c text =>
          rw [kept_some_cons, List.cons_append] at htext
          obtain ⟨rfl, hrest⟩ := List.cons.inj htext
          obtain ⟨more, hmore⟩ := ih (fun d hd => free d (List.mem_cons_of_mem _ hd)) hrest
          exact ⟨more, by rw [kept_some_cons, hmore]; rfl⟩

/-- The underscore tells a joined keyword from its words. -/
private theorem inked_words_ne {kind other : ConstKind} {words : List Char} (h : Spells kind words)
    (rest more : List Char) :
    inked (words ++ rest) ≠ inked ((joined other).toList ++ more) := by
  obtain ⟨gap, -, hgap, rfl⟩ := h
  have hblank : inked gap = [] := by
    refine List.filter_eq_nil_iff.mpr fun c hc => ?_
    have hc : c = ' ' ∨ c = '\t' := by simpa [isGap] using hgap c hc
    rcases hc with rfl | rfl <;> decide
  have hconst : inked "const".toList = "const".toList := rfl
  have hkind : inked kind.keyword.toList = kind.keyword.toList := by cases kind <;> rfl
  have hjoined : inked (joined other).toList =
      "const".toList ++ '_' :: other.keyword.toList := by
    cases other <;> rfl
  rw [inked_append, inked_append, inked_append, inked_append, hblank, hconst, hkind, hjoined,
    List.append_assoc, List.append_assoc _ ('_' :: _), ne_eq, List.append_cancel_left_eq]
  cases kind
  all_goals
    intro heq
    exact absurd (List.cons.inj heq).1 (by decide)

/-- **Lines with the same characters beside blanks join the same keywords.** -/
theorem keywordsAlike_of_ink (h : Joined before o o') (keep : Option Char)
    (hink : inked (kept o') = inked (joinKeywords keep 0 (kept o))) :
    KeywordsAlike before keep o := by
  induction h generalizing keep with
  | nil before => trivial
  | comment before more ih => exact ih keep hink
  | keyword edge spells ends more ih =>
      rename_i before kind words o o'
      rw [kept_append, kept_append, kept_map_some, kept_map_some] at hink
      have hstarts : startsKeyword before (words ++ slashed o) = true := by
        rw [startsKeyword_of_spells spells, edge, ends]
        rfl
      rw [keywordsAlike_words spells, hstarts]
      cases hkept : startsKeyword keep (words ++ kept o) with
      | true =>
          rw [startsKeyword_of_spells spells, Bool.and_eq_true] at hkept
          rw [joinKeywords_words spells hkept.1 hkept.2, inked_append, inked_append,
            List.append_cancel_left_eq] at hink
          exact ⟨rfl, ih _ hink⟩
      | false =>
          -- left as they are, the words have no underscore
          obtain ⟨tail, rfl, -, htail⟩ := spells.eq_cons
          obtain ⟨rest, hrest⟩ := joinKeywords_free (free_tail htail) (some 'c') (kept o)
          rw [List.cons_append] at hkept hink
          rw [joinKeywords_cons hkept, hrest, ← List.cons_append] at hink
          exact absurd hink.symm (inked_words_ne spells rest (kept o'))
  | char plain more ih =>
      rename_i before c o o'
      rw [kept_some_cons, kept_some_cons] at hink
      cases hkept : startsKeyword keep (c :: kept o) with
      | true =>
          obtain ⟨hkeep, kind, words, rest, htext, spells, ends⟩ :=
            startsKeyword_eq_true_iff.mp hkept
          obtain ⟨tail, rfl, -, htail⟩ := spells.eq_cons
          obtain ⟨rfl, hrest⟩ := List.cons.inj htext
          obtain ⟨rest', hrest'⟩ := more.kept_append (free_tail htail) hrest
          rw [hrest', ← List.cons_append, htext, joinKeywords_words spells hkeep ends] at hink
          exact absurd hink (inked_words_ne spells rest' _)
      | false =>
          rw [joinKeywords_cons hkept] at hink
          refine ⟨plain.trans hkept.symm, ih _ ?_⟩
          have hcons : ∀ text, inked (c :: text) = inked [c] ++ inked text := inked_append [c]
          rwa [hcons (kept o'), hcons (joinKeywords (some c) 0 (kept o)),
            List.append_cancel_left_eq] at hink

/-! ### Setting marks apart -/

private theorem Joined.head?_kept (h : Joined before o o') : (kept o').head? = (kept o).head? := by
  induction h with
  | nil before => rfl
  | comment before more ih => exact ih
  | keyword edge spells ends more ih =>
      rename_i kind words o o'
      obtain ⟨tail, rfl, -⟩ := spells.eq_cons
      cases kind <;> rfl
  | char plain more ih => rfl

private theorem Joined.head?_slashed (h : Joined before o o') :
    (slashed o').head? = (slashed o).head? := by
  cases h with
  | nil before => rfl
  | comment before more => rfl
  | keyword edge spells ends more =>
      rename_i kind words o o'
      obtain ⟨tail, rfl, -⟩ := spells.eq_cons
      cases kind <;> rfl
  | char plain more => rfl

private theorem signsAlike_append {text : List Char} {last : Char} (free : ∀ c ∈ text, c ≠ '=')
    (hlast : text.getLast? = some last) (slash keep : Option Char) (o : Outline) :
    SignsAlike slash keep (text.map some ++ o) ↔ SignsAlike (some last) (some last) o := by
  induction text generalizing slash keep with
  | nil => exact absurd hlast (by simp)
  | cons c text ih =>
      have hc := free c (List.mem_cons_self ..)
      rw [List.map_cons, List.cons_append, SignsAlike, and_iff_right fun heq => absurd heq hc]
      cases text with
      | nil =>
          rw [← Option.some.inj hlast]
          rfl
      | cons d text =>
          exact ih (fun e he => free e (List.mem_cons_of_mem _ he)) (by simpa using hlast) _ _

/-- No equals sign changes its neighbours when keywords are joined. -/
private theorem signsAlike_joined (h : Joined before o o') (slash keep : Option Char) :
    SignsAlike slash keep o' ↔ SignsAlike slash keep o := by
  induction h generalizing slash keep with
  | nil before => exact Iff.rfl
  | comment before more ih => exact ih (some '/') keep
  | keyword edge spells ends more ih =>
      rename_i before kind words o o'
      obtain ⟨tail, rfl, hlast, htail⟩ := spells.eq_cons
      have hwords : ∀ c ∈ 'c' :: tail, c ≠ '=' := by
        refine List.forall_mem_cons.mpr ⟨by decide, ?_⟩
        rintro c hc rfl
        exact absurd (htail _ hc) (by decide)
      have hjoined : ∀ c ∈ (joined kind).toList, c ≠ '=' := by
        have hkind : (joined kind).toList.all (· != '=') = true := by cases kind <;> decide
        simpa using hkind
      have hlast' : ('c' :: tail).getLast? = some 't' := by
        rw [List.getLast?_cons, hlast]
        rfl
      have hlast'' : (joined kind).toList.getLast? = some 't' := by cases kind <;> rfl
      rw [signsAlike_append hwords hlast', signsAlike_append hjoined hlast'', ih]
  | char plain more ih =>
      rw [SignsAlike, SignsAlike, more.head?_kept, more.head?_slashed, ih]

/-- A character set apart, or left where it is, begins a word and ends one accordingly. -/
private theorem starts_spacedChar (fresh : Bool) (before : Option Char) (c : Char)
    (after : Option Char) (rest : List Char) :
    starts isBlank fresh (spacedChar before c after ++ rest) =
      if isBlank c then starts isBlank true rest
      else (c, fresh || standsApart before c after) ::
        starts isBlank (standsApart before c after) rest := by
  rw [spacedChar_eq]
  cases hapart : standsApart before c after with
  | true =>
      have hblank : isBlank ' ' = true := rfl
      have hc := not_isBlank_of_standsApart hapart
      show starts isBlank fresh (' ' :: c :: ' ' :: rest) = _
      rw [starts_of_separates hblank, starts_of_not_separates hc, starts_of_separates hblank, hc,
        Bool.or_true]
      rfl
  | false =>
      show starts isBlank fresh (c :: rest) = _
      rw [starts, Bool.or_false]

/-- How the two readings stand to each other behind a character outside comments: what is to the left
in both, and whether a word begins there in each. -/
structure Abreast (slash keep : Option Char) (fresh fresh' : Bool) : Prop where
  left : slash = keep ∨ slash = some '/'
  behindBreak : isBreak keep = true → fresh = true ∧ fresh' = true
  behindChar : isBreak keep = false → keep ≠ some '=' → fresh = false ∧ fresh' = false

/-- A character that is neither a blank nor an equals sign stands apart when it is a break. -/
private theorem standsApart_eq_isBreak {c : Char} (hc : isBlank c = false) (hsign : c ≠ '=')
    (before after : Option Char) : standsApart before c after = isBreak (some c) := by
  simp [standsApart, isBreak, hc, hsign]

/-- Behind a character that is no blank the readings are abreast again. -/
private theorem abreast_behind {c : Char} (hc : isBlank c = false)
    (slash keep after after' : Option Char) :
    Abreast (some c) (some c) (standsApart slash c after) (standsApart keep c after') where
  left := .inl rfl
  behindBreak hbreak := by
    have hsign : c ≠ '=' := by
      rintro rfl
      exact absurd hbreak (by decide)
    rw [standsApart_eq_isBreak hc hsign, standsApart_eq_isBreak hc hsign]
    exact ⟨hbreak, hbreak⟩
  behindChar hbreak hne := by
    have hsign : c ≠ '=' := fun heq => hne (congrArg some heq)
    rw [standsApart_eq_isBreak hc hsign, standsApart_eq_isBreak hc hsign]
    exact ⟨hbreak, hbreak⟩

/-- At one character: the words begin alike up to it, and behind it if that matters, exactly when they
did so before and it is no equals sign that is part of an operator in one reading only. -/
private theorem abreast_step {slash keep after after' : Option Char} {fresh fresh' : Bool}
    {c : Char} (h : Abreast slash keep fresh fresh') (hc : isBlank c = false) :
    ((fresh || standsApart slash c after) = (fresh' || standsApart keep c after') ∧
        (standsApart slash c after = standsApart keep c after' ∨ isBreak after' = true)) ↔
      (fresh = fresh' ∨ isBreak (some c) = true) ∧
        (c = '=' → isCompound slash after = isCompound keep after' ∨
          (isBreak keep = true ∧ isBreak after' = true)) := by
  by_cases hsign : c = '='
  · subst hsign
    have hapart : ∀ before after, standsApart before '=' after = !isCompound before after :=
      fun _ _ => rfl
    have hbreak : isBreak (some '=') = false := rfl
    rw [hapart, hapart, hbreak]
    cases hkeep : isBreak keep with
    | true =>
        obtain ⟨rfl, rfl⟩ := h.behindBreak hkeep
        simp
    | false =>
        by_cases hequals : keep = some '='
        · -- behind an equals sign both are part of an operator
          have hoperator : ∀ after, isCompound keep after = true := by
            intro after
            rw [hequals]
            rfl
          have hoperator' : ∀ after, isCompound slash after = true := by
            intro after
            rcases h.left with rfl | rfl
            · exact hoperator after
            · rfl
          rw [hoperator, hoperator']
          simp
        · obtain ⟨rfl, rfl⟩ := h.behindChar hkeep hequals
          simp +contextual
  · rw [standsApart_eq_isBreak hc hsign, standsApart_eq_isBreak hc hsign]
    cases isBreak (some c) <;> simp [hsign]

/-- **With the keywords joined, the words tell whether the equals signs read alike.** -/
theorem starts_eq_iff (slash keep : Option Char) (fresh fresh' : Bool) (o : Outline)
    (h : Abreast slash keep fresh fresh') :
    starts isBlank fresh (kept (setApartOutline slash o)) =
        starts isBlank fresh' (setApart keep (kept o)) ↔
      (fresh = fresh' ∨ isBreak (kept o).head? = true) ∧ SignsAlike slash keep o := by
  induction o generalizing slash keep fresh fresh' with
  | nil => exact iff_of_true rfl ⟨.inr rfl, trivial⟩
  | cons item rest ih =>
      cases item with
      | none => exact ih _ _ _ _ ⟨.inr rfl, h.behindBreak, h.behindChar⟩
      | some c =>
          rw [setApartOutline, kept_append, kept_map_some, kept_some_cons, setApart_cons,
            starts_spacedChar, starts_spacedChar, SignsAlike, List.head?_cons]
          cases hc : isBlank c with
          | true =>
              have hbreak : isBreak (some c) = true := by simp [isBreak, hc]
              have heq : c ≠ '=' := by
                rintro rfl
                exact absurd hc (by decide)
              have hmore := ih (some c) (some c) true true
                ⟨.inl rfl, fun _ => ⟨rfl, rfl⟩, fun h => absurd h (by simp [hbreak])⟩
              rw [if_pos rfl, if_pos rfl, hmore]
              simp [hbreak, heq]
          | false =>
              rw [if_neg (by simp), if_neg (by simp), List.cons.injEq, Prod.mk.injEq,
                ih _ _ _ _ (abreast_behind hc slash keep _ _), ← and_assoc, ← and_assoc,
                ← abreast_step h hc]
              simp

private theorem inked_setApartOutline (slash : Option Char) (o : Outline) :
    inked (kept (setApartOutline slash o)) = inked (kept o) := by
  induction o generalizing slash with
  | nil => rfl
  | cons item rest ih =>
      cases item with
      | none => exact ih _
      | some c =>
          rw [setApartOutline, kept_append, kept_map_some, inked_append, inked_spacedChar, ih,
            ← inked_append]
          rfl

/-! ### Lines -/

/-- **A line has the same words in both orders exactly when it reads alike.** -/
theorem words_eq_iff_readsAlike (h : Joined none o o') :
    words (String.ofList (kept (setApartOutline none o'))) =
      words (spaced (String.ofList (kept o))) ↔ ReadsAlike o := by
  have hmarks := starts_eq_iff none none true true o' ⟨.inl rfl, fun _ => ⟨rfl, rfl⟩, by simp [isBreak]⟩
  rw [words_eq_iff, spaced, String.toList_ofList, String.toList_ofList, String.toList_ofList]
  constructor
  · intro hwords
    have hink := inked_eq_of_starts_eq hwords
    rw [inked_setApartOutline, inked_setApart] at hink
    have hkeywords := keywordsAlike_of_ink h none hink
    rw [← kept_of_joined h none hkeywords, hmarks] at hwords
    exact ⟨hkeywords, (signsAlike_joined h none none).mp hwords.2⟩
  · rintro ⟨hkeywords, hsigns⟩
    rw [← kept_of_joined h none hkeywords, hmarks]
    exact ⟨.inl rfl, (signsAlike_joined h none none).mpr hsigns⟩

end Comment
end ShaderLink
