/-
Reading a declaration back.

A constant is printed as a declaration on one line, and this line can be read as a file.
The declaration puts blanks around the name and the equals sign behind it, so the words of
the line are the keyword, the words of the name when its marks are set apart, an equals
sign, those of the value, and a semicolon.  The value's words are put together again.  The
name is the first of its words, and the words that it may have behind that are taken for
the sign and the value.

A semicolon or a parenthesis is the whole of a name it stands in, and an equals sign is
when it is no part of a longer operator where it stands in the file.  But a comment beside
an equals sign counts for an operator there, and it is gone from the name.  So what is left
open is an equals sign that is part of no longer operator within the name: `readsBack_iff`
says that a constant reads back exactly when its name has none, or is one.
-/
import ShaderLink.Proofs.Constant.Reading
import ShaderLink.Proofs.Source.Respacing
import ShaderLink.Proofs.Source.Unmarked
import ShaderLink.Proofs.Unit.Script

namespace ShaderLink

open Text Spacing

/-- The declaration of a constant, read as a file under no settings, gives a constant of its name, its
kind and its value, and nothing else. -/
def Constant.ReadsBack (path : String) (c : Constant) : Prop :=
  ∃ file d, ShaderUnit.ofText .empty path c.declaration = .ok file ∧
    file.constants.entries = [d] ∧ d.name = c.name ∧ d.kind = c.kind ∧ d.value = c.value ∧
    file.body = []

/-! ### Words of stripped lines -/

/-- A word of a file without comments. -/
structure StrippedWord (word : String) : Prop where
  isWord : Text.isWord word = true
  /-- No comment begins or ends in it. -/
  unmarked : Comment.Unmarked word.toList
  /-- A semicolon or a parenthesis is the whole word. -/
  alone : ∀ d ∈ word.toList, standsAlone d = true → word.toList = [d]

private theorem strippedWord_of_tokensOfText {settings : Settings} {path text : String}
    {tokens : List Token} (h : ShaderUnit.tokensOfText settings path text = .ok tokens) :
    ∀ token ∈ tokens, StrippedWord token.text := by
  obtain ⟨hfailure, hlines⟩ := ShaderUnit.tokenize_of_tokensOfText h
  intro token htoken
  obtain ⟨line, hline, hmem⟩ := List.mem_flatMap.mp (hlines token htoken)
  obtain ⟨word, hword, rfl⟩ := List.mem_map.mp hmem
  have hunmarked := Comment.unmarked_of_mem_stripFrom hfailure line hline
  refine ⟨isWord_of_mem_words hword, ?_, ?_⟩
  · intro mark hmark hin
    exact hunmarked mark hmark (hin.trans (isInfix_of_mem_words hword))
  · rw [SourceLine.read_eq_map] at hfailure hline
    have hapart := setOff_of_mem_stripFrom hfailure line hline
    obtain ⟨field, hfield, rfl⟩ := List.mem_map.mp hword
    intro d hd halone
    rw [String.toList_ofList] at hd ⊢
    exact hapart.eq_singleton hfield hd halone

/-! ### Words that are spaced -/

/-- The words of a text whose marks are set apart. -/
def apartWords (text : String) : List String :=
  (fullFields isBlank (setApart none text.toList)).map String.ofList

/-- The words of a word make it up again. -/
private theorem join_apartWords {word : String} (h : isWord word = true) :
    String.join (apartWords word) = word := by
  have hfree : inked word.toList = word.toList :=
    List.filter_eq_self.mpr fun c hc => by simp [(isWord_iff.mp h).2 c hc]
  have hink : (fullFields isBlank (setApart none word.toList)).flatten = word.toList := by
    rw [flatten_fullFields]
    exact (inked_setApart none word.toList).trans hfree
  rw [← String.toList_inj, String.toList_join, apartWords, List.flatMap_map]
  simpa [List.flatMap_id'] using hink

private theorem ne_nil_of_mem_apartWords {text word : String} (h : word ∈ apartWords text) :
    word.toList ≠ [] := by
  obtain ⟨field, hfield, rfl⟩ := List.mem_map.mp h
  rw [String.toList_ofList]
  simpa using (List.mem_filter.mp hfield).2

private theorem apartWords_ne_nil {word : String} (h : isWord word = true) :
    apartWords word ≠ [] := by
  intro hnil
  have hjoin := join_apartWords h
  rw [hnil] at hjoin
  exact (isWord_iff.mp h).1 (by rw [← hjoin]; rfl)

/-- A word that is the first of its words is the only one. -/
private theorem apartWords_eq_singleton {word : String} {more : List String}
    (h : isWord word = true) (first : apartWords word = word :: more) :
    apartWords word = [word] := by
  have hjoin := congrArg String.toList (join_apartWords h)
  rw [first, String.toList_join, List.flatMap_cons] at hjoin
  cases more with
  | nil => exact first
  | cons next more =>
      have hnext : next ∈ apartWords word := by simp [first]
      simp [ne_nil_of_mem_apartWords hnext] at hjoin

/-- What a constant's keyword opens declares the name behind it. -/
private theorem Statement.constantName?_of_read {path : String} {kind : ConstKind}
    {keyword name : Token} {rest after : List Token} {s : Statement}
    (opens : keyword.text = joined kind)
    (h : Statement.read path keyword (name :: rest) = .ok (s, after)) :
    s.constantName? = some name.text := by
  rcases read_cases.mp h with ⟨-, h⟩ | ⟨-, h⟩ | ⟨hother, -⟩ | ⟨hother, -⟩ | ⟨hother, -⟩ |
    ⟨hother, -⟩ | ⟨hother, -⟩
  · obtain ⟨found, sign, first, more, stop, rfl, hrest, -⟩ := constant?_eq_some_iff.mp h
    rw [(List.cons.inj hrest).1]
    rfl
  · obtain ⟨found, sign, first, more, stop, rfl, hrest, -⟩ := constant?_eq_some_iff.mp h
    rw [(List.cons.inj hrest).1]
    rfl
  all_goals
    rw [opens] at hother
    cases kind with
    | int => exact absurd hother (by decide)
    | float => exact absurd hother (by decide)

/-- Tokens that a constant's keyword begins are read as statements one of which declares the second. -/
private theorem Reading.exists_constantName? {path : String} {kind : ConstKind}
    {keyword name : Token} {rest : List Token} {statements : List Statement}
    (opens : keyword.text = joined kind)
    (cuts : ofTokens path (keyword :: name :: rest) = ⟨statements, none⟩) :
    ∃ s ∈ statements, s.constantName? = some name.text := by
  cases hread : Statement.read path keyword (name :: rest) with
  | error e =>
      rw [ofTokens_of_error hread] at cuts
      exact absurd cuts (by simp)
  | ok found =>
      obtain ⟨s, after⟩ := found
      rw [ofTokens_of_ok hread] at cuts
      have hstatements : s :: (ofTokens path after).statements = statements :=
        congrArg Reading.statements cuts
      refine ⟨s, ?_, Statement.constantName?_of_read opens hread⟩
      rw [← hstatements]
      exact List.mem_cons_self ..

/-- The value of a constant of a file ends at the first semicolon behind its first word. -/
private theorem ShaderUnit.Cuts.ne_stop {settings : Settings} {path text : String}
    {statements : List Statement} {kind : ConstKind} {keyword name sign first stop : Token}
    {more : List Token} (cuts : Cuts settings path text statements)
    (mem : Statement.constant kind keyword name sign first more stop ∈ statements) :
    ∀ token ∈ more, token.text ≠ ";" := by
  obtain ⟨tokens, -, hreading⟩ := cuts
  have hread : Statement.constant kind keyword name sign first more stop ∈
      (Reading.ofTokens path tokens).statements := by
    rw [hreading]
    exact mem
  obtain ⟨-, behind, -, hbefore⟩ := Script.exists_append_readBefore hread
  exact hbefore.2.2

namespace Constant

variable {c : Constant} {path : String}

/-- What a declared constant is printed from. -/
structure Printable (c : Constant) : Prop where
  name : StrippedWord c.name
  value : isWord c.value.text = true
  /-- A semicolon can stand at the front of the value only. -/
  stops : ∀ d ∈ c.value.text.toList.tail, d ≠ ';'
  /-- The text of the value gives the value. -/
  initial : ConstValue.initial c.kind c.value.text = c.value

/-! ### The line of a declaration -/

private theorem toList_declaration (c : Constant) :
    c.declaration.toList = ("const".toList ++ ([' '] ++ c.kind.keyword.toList)) ++
      ' ' :: ((c.name.toList ++ [' ']) ++ '=' :: ' ' :: (c.value.text.toList ++ [';'])) := by
  simp [declaration, String.toList_append]

private theorem free_declaration (printable : c.Printable) :
    ∀ d ∈ c.declaration.toList, isLineEnd d = false := by
  have hword {word : String} (h : isWord word = true) : ∀ d ∈ word.toList, isLineEnd d = false := by
    intro d hd
    exact not_isLineEnd_of_not_isBlank ((isWord_iff.mp h).2 d hd)
  have hkind : ∀ d ∈ "const".toList ++ ([' '] ++ c.kind.keyword.toList), isLineEnd d = false := by
    have hall : ("const".toList ++ ([' '] ++ c.kind.keyword.toList)).all (!isLineEnd ·) = true := by
      cases c.kind <;> rfl
    intro d hd
    simpa using List.all_eq_true.mp hall d hd
  rw [toList_declaration]
  refine List.forall_mem_append.mpr ⟨hkind, List.forall_mem_cons.mpr ⟨by decide, ?_⟩⟩
  refine List.forall_mem_append.mpr ⟨?_, ?_⟩
  · exact List.forall_mem_append.mpr ⟨hword printable.name.isWord, List.forall_mem_singleton.mpr rfl⟩
  · refine List.forall_mem_cons.mpr ⟨by decide, List.forall_mem_cons.mpr ⟨by decide, ?_⟩⟩
    exact List.forall_mem_append.mpr ⟨hword printable.value, List.forall_mem_singleton.mpr rfl⟩

/-- No keyword starts in a word, nor in the gaps behind it. -/
private theorem joinKeywords_word {word : String} (h : isWord word = true) (behind : List Char)
    (gaps : ∀ d ∈ behind, isGap d = true) (before : Option Char) :
    joinKeywords before 0 (word.toList ++ behind) = word.toList ++ behind := by
  have hword : ∀ d ∈ word.toList, (!isGap d) = true := by
    intro d hd
    rw [not_isGap_of_not_isBlank ((isWord_iff.mp h).2 d hd)]
    rfl
  refine (KeywordFree.of_gaps ?_ before).joinKeywords_eq
  rw [List.dropWhile_append_of_pos hword]
  exact fun d hd => gaps d ((List.dropWhile_sublist _).subset hd)

/-- The keyword is joined, and nothing else is. -/
private theorem joinKeywords_declaration (printable : c.Printable) :
    joinKeywords none 0 c.declaration.toList =
      (joined c.kind).toList ++
        ' ' :: (c.name.toList ++ ' ' :: '=' :: ' ' :: (c.value.text.toList ++ [';'])) := by
  have hgap : ∀ d ∈ [' '], isGap d = true := List.forall_mem_singleton.mpr rfl
  have hspells : Spells c.kind ("const".toList ++ ([' '] ++ c.kind.keyword.toList)) :=
    ⟨[' '], by simp, hgap, rfl⟩
  have hname := joinKeywords_word printable.name.isWord [' '] hgap (some ' ')
  have hvalue := joinKeywords_word printable.value [] (by simp) (some ' ')
  rw [List.append_nil] at hvalue
  rw [toList_declaration, joinKeywords_words hspells rfl rfl,
    joinKeywords_cons (startsKeyword_cons_of_ne (by decide) _ _),
    joinKeywords_append_cons (by decide) (by decide), hname,
    joinKeywords_cons (startsKeyword_cons_of_ne (by decide) _ _),
    joinKeywords_append_cons (by decide) (by decide), hvalue]
  simp [joinKeywords]

/-- The marks of the name and of the value are set apart in each by itself. -/
private theorem toList_spaced_declaration (printable : c.Printable) :
    (spaced c.declaration).toList = (joined c.kind).toList ++
      ' ' :: (setApart none c.name.toList ++ ' ' :: ([] ++ ' ' :: '=' :: ' ' :: ([] ++
        ' ' :: (setApart none c.value.text.toList ++ ' ' :: ';' :: ' ' :: [])))) := by
  have hblank : ∀ before after, standsApart before ' ' after = false := fun _ _ => rfl
  have hbehind (text : List Char) : setApart (some ' ') text = setApart none text :=
    setApart_before (by decide) text
  have hkeyword : setApart none (joined c.kind).toList = (joined c.kind).toList := by
    cases c.kind <;> rfl
  have hvalue : setApart none (c.value.text.toList ++ [';']) =
      setApart none c.value.text.toList ++ ' ' :: ';' :: ' ' :: [] :=
    setApart_append_apart rfl
  have hsign := setApart_append_cons hblank none ['='] (c.value.text.toList ++ [';'])
  rw [hbehind, hvalue, List.singleton_append] at hsign
  rw [spaced, String.toList_ofList, joinKeywords_declaration printable,
    setApart_append_cons hblank, hkeyword, hbehind, setApart_append_cons hblank, hbehind, hsign]
  rfl

private theorem words_spaced_declaration (printable : c.Printable) :
    words (spaced c.declaration) =
      joined c.kind :: (apartWords c.name ++ "=" :: (apartWords c.value.text ++ [";"])) := by
  have hspace : isBlank ' ' = true := rfl
  have hkeyword : (fullFields isBlank (joined c.kind).toList).map String.ofList =
      [joined c.kind] := by
    cases c.kind <;> decide
  rw [words, toList_spaced_declaration printable, fullFields_append_separator hspace,
    fullFields_append_separator hspace, fullFields_apart (by decide),
    fullFields_append_separator hspace, fullFields_apart (by decide), List.map_append, hkeyword]
  simp [apartWords, fullFields, fields]

private theorem unmarked_spaced_declaration (printable : c.Printable)
    (unmarked : Comment.Unmarked c.value.text.toList) :
    Comment.Unmarked (spaced c.declaration).toList := by
  have hspace : ' ' ≠ '/' ∧ ' ' ≠ '*' := by decide
  have hkeyword : Comment.Unmarked (joined c.kind).toList :=
    Comment.unmarked_of_free fun hslash => (Comment.free_joined c.kind _ hslash).1 rfl
  have hmark {d : Char} (hd : d ≠ '/' ∧ d ≠ '*') {rest : List Char} :
      Comment.Unmarked (d :: rest) ↔ Comment.Unmarked rest := by
    rw [← List.nil_append (d :: rest), Comment.unmarked_append_cons hd]
    simp [Comment.unmarked_nil]
  rw [spaced, String.toList_ofList, joinKeywords_declaration printable]
  refine Comment.unmarked_setApart ?_ none
  refine (Comment.unmarked_append_cons hspace).mpr ⟨hkeyword, ?_⟩
  refine (Comment.unmarked_append_cons hspace).mpr ⟨printable.name.unmarked, ?_⟩
  rw [hmark (by decide), hmark hspace, Comment.unmarked_append_cons (by decide)]
  exact ⟨unmarked, Comment.unmarked_nil⟩

/-! ### Reading the line -/

/-- Tokens of words on the first line of a file. -/
def tokensOnFirst (path : String) (words : List String) : List Token :=
  words.map fun word => ⟨path, 1, word⟩

private theorem read_declaration (printable : c.Printable) (path : String) :
    SourceLine.read path c.declaration = [⟨path, 1, spaced c.declaration⟩] := by
  have hfull : c.declaration.toList ≠ [] := by
    rw [toList_declaration]
    simp
  have hline : SourceLine.split path c.declaration = [⟨path, 1, c.declaration⟩] := by
    rw [SourceLine.split, fileLines_last (free_declaration printable) hfull]
    simp
  rw [SourceLine.read_eq_map, hline]
  rfl

private theorem tokensOfText_declaration (printable : c.Printable)
    (unmarked : Comment.Unmarked c.value.text.toList) (path : String) :
    ShaderUnit.tokensOfText .empty path c.declaration =
      .ok (tokensOnFirst path
        (joined c.kind :: (apartWords c.name ++ "=" :: (apartWords c.value.text ++ [";"])))) := by
  let line : SourceLine := ⟨path, 1, spaced c.declaration⟩
  have hwords := words_spaced_declaration printable
  have hstrip : stripComments (SourceLine.read path c.declaration) = ⟨[line], none⟩ := by
    rw [read_declaration printable path]
    refine Comment.stripFrom_of_unmarked ?_
    simpa using unmarked_spaced_declaration printable unmarked
  have hplain : ∀ other ∈ [line], other.directive? = none := by
    rw [List.forall_mem_singleton]
    show Directive.ofWords? (words (spaced c.declaration)) = none
    rw [hwords]
    cases c.kind <;> simp [Directive.ofWords?, joined, ConstKind.keyword]
  have hdecided : evaluateConditions (Settings.flags .empty) [line] = ⟨[line], none⟩ :=
    Condition.evaluateFrom_of_plain hplain
  have htokens : tokenize [line] = tokensOnFirst path (words (spaced c.declaration)) :=
    List.append_nil _
  rw [← hwords, ← htokens]
  refine bind_eq_ok_iff.mpr ⟨[line], LinePass.toExcept_eq_ok_iff.mpr ?_, ?_⟩
  · rw [hstrip]
    exact ⟨rfl, rfl⟩
  · refine bind_eq_ok_iff.mpr ⟨[line], LinePass.toExcept_eq_ok_iff.mpr ?_, rfl⟩
    rw [hdecided]
    exact ⟨rfl, rfl⟩

/-- Behind the first of the value's words there is no semicolon. -/
private theorem ne_stop_of_apartWords (printable : c.Printable) {first : String}
    {more : List String} (h : apartWords c.value.text = first :: more) :
    ∀ word ∈ more, word ≠ ";" := by
  rintro word hword rfl
  have hjoin := congrArg String.toList (join_apartWords printable.value)
  rw [h, String.toList_join, List.flatMap_cons] at hjoin
  have hfirst : first ∈ apartWords c.value.text := by simp [h]
  obtain ⟨d, rest, hd⟩ := List.exists_cons_of_ne_nil (ne_nil_of_mem_apartWords hfirst)
  have hstop : ';' ∈ c.value.text.toList.tail := by
    rw [← hjoin, hd, List.cons_append, List.tail_cons]
    exact List.mem_append_right _ (List.mem_flatMap.mpr ⟨_, hword, by decide⟩)
  exact printable.stops _ hstop rfl

/-- The statement of a declaration on the first line of a file, whose value has the words given. -/
def statementOnFirst (path : String) (c : Constant) (first : String) (more : List String) :
    Statement :=
  let token (word : String) : Token := ⟨path, 1, word⟩
  .constant c.kind (token (joined c.kind)) (token c.name) (token "=") (token first)
    (tokensOnFirst path more) (token ";")

/-- The tokens of a declaration whose name is one word are its statement. -/
theorem ofTokens_declaration (printable : c.Printable) (whole : apartWords c.name = [c.name])
    {first : String} {more : List String} (value : apartWords c.value.text = first :: more)
    (path : String) :
    Reading.ofTokens path (tokensOnFirst path
        (joined c.kind :: (apartWords c.name ++ "=" :: (apartWords c.value.text ++ [";"])))) =
      ⟨[statementOnFirst path c first more], none⟩ := by
  have htokens : tokensOnFirst path
      (joined c.kind :: (apartWords c.name ++ "=" :: (apartWords c.value.text ++ [";"]))) =
        (statementOnFirst path c first more).tokens ++ [] := by
    simp [tokensOnFirst, whole, value, statementOnFirst, Statement.tokens]
  have hread : (statementOnFirst path c first more).ReadBefore [] := by
    refine ⟨rfl, rfl, fun other hother => ?_⟩
    obtain ⟨word, hword, rfl⟩ := List.mem_map.mp hother
    exact ne_stop_of_apartWords printable value word hword
  rw [htokens, Script.ofTokens_append hread, Reading.ofTokens]
  rfl

/-- The statement declares what was printed. -/
theorem constantsOf_declaration (printable : c.Printable) {first : String} {more : List String}
    (value : apartWords c.value.text = first :: more) (path : String) :
    ShaderUnit.constantsOf .empty path [statementOnFirst path c first more] =
      .ok (Table.empty.insert { c with origin := path, line := some 1 }) := by
  have hinitializer : String.join
      (((⟨path, 1, first⟩ : Token) :: tokensOnFirst path more).map (·.text)) = c.value.text := by
    rw [← join_apartWords printable.value, value]
    simp [tokensOnFirst, Function.comp_def]
  have hinitial := printable.initial
  rw [ConstValue.initial, ← hinitializer] at hinitial
  refine foldlM_cons_eq_ok_iff.mpr ⟨_, bind_eq_ok_iff.mpr ⟨_, ?_, rfl⟩, rfl⟩
  refine Statement.declaredConstant_eq_ok_iff.mpr (.inr ⟨rfl, ?_⟩)
  rw [hinitial]

/-- A name that stays one word when its marks are set apart is read back with its kind and value. -/
theorem Printable.readsBack (printable : c.Printable)
    (unmarked : Comment.Unmarked c.value.text.toList) (whole : apartWords c.name = [c.name])
    (path : String) : c.ReadsBack path := by
  obtain ⟨first, more, hvalue⟩ :=
    List.exists_cons_of_ne_nil (apartWords_ne_nil printable.value)
  have hcuts : ShaderUnit.Cuts .empty path c.declaration [statementOnFirst path c first more] :=
    ⟨_, tokensOfText_declaration printable unmarked path,
      ofTokens_declaration printable whole hvalue path⟩
  have hconstants := constantsOf_declaration printable hvalue path
  exact ⟨_, _, ShaderUnit.ofText_eq_ok_iff.mpr ⟨_, _, hcuts, hconstants, rfl⟩, rfl, rfl, rfl, rfl,
    rfl⟩

/-- A constant that is read back has a name that stays one word. -/
private theorem ReadsBack.whole (h : c.ReadsBack path) (printable : c.Printable)
    (unmarked : Comment.Unmarked c.value.text.toList) : apartWords c.name = [c.name] := by
  obtain ⟨file, d, hfile, hentries, hname, -⟩ := h
  obtain ⟨statements, constants, ⟨tokens, htokens, hcuts⟩, hconstants, rfl⟩ :=
    ShaderUnit.ofText_eq_ok_iff.mp hfile
  obtain ⟨word, more, hwords⟩ := List.exists_cons_of_ne_nil (apartWords_ne_nil printable.name.isWord)
  rw [tokensOfText_declaration printable unmarked, Except.ok.injEq, hwords] at htokens
  rw [← htokens] at hcuts
  -- the first statement declares a constant whose name is the first word
  have hfirst : ∃ s ∈ statements, s.constantName? = some word :=
    Reading.exists_constantName? rfl hcuts
  obtain ⟨other, hother, hotherName⟩ :=
    Statement.exists_mem_foldlM_addConstant hconstants (.inr hfirst)
  have hsame : c.name = word := by
    rw [show constants.entries = [d] from hentries, List.mem_singleton] at hother
    rw [← hname, ← hother, hotherName]
  rw [← hsame] at hwords
  exact apartWords_eq_singleton printable.name.isWord hwords

/-! ### Constants of files -/

/-- Spaced by itself, a name stays one word when an equals sign in it is part of a longer operator
there or all of it. -/
private theorem whole_iff (name : StrippedWord c.name) :
    apartWords c.name = [c.name] ↔ c.name = "=" ∨ ∀ left right, c.name.toList = left ++ '=' :: right →
      isCompound left.getLast? right.head? = true := by
  obtain ⟨hfull, hfree⟩ := isWord_iff.mp name.isWord
  have hchars : apartWords c.name = [c.name] ↔
      fullFields isBlank (setApart none c.name.toList) = [c.name.toList] := by
    have hname : [c.name] = [c.name.toList].map String.ofList := by simp
    rw [apartWords, hname]
    exact List.map_inj_right fun a b hab => String.ofList_injective hab
  rw [hchars, fullFields_setApart_iff hfull hfree]
  constructor
  · intro hwhole
    by_cases hsign : c.name = "="
    · exact .inl hsign
    · right
      intro left right htext
      by_contra hsingle
      have hapart : standsApart left.getLast? '=' right.head? = true :=
        standsApart_eq_true_iff.mpr (.inr ⟨rfl, by simpa using hsingle⟩)
      exact hsign (String.toList_inj.mp (hwhole left '=' right htext hapart))
  · intro hcases left d right htext hapart
    rcases standsApart_eq_true_iff.mp hapart with hmark | ⟨rfl, hsingle⟩
    · refine name.alone d (by simp [htext]) ?_
      rcases hmark with rfl | rfl | rfl <;> rfl
    · rcases hcases with hsign | hcompound
      · rw [hsign]
        rfl
      · rw [hcompound left right htext] at hsingle
        exact absurd hsingle (by simp)

/-- The words of an initializer that are put together make a word, in which a semicolon can stand at
the front only. -/
private theorem word_of_initializer {first : Token} {more : List Token}
    (words : ∀ token ∈ first :: more, StrippedWord token.text)
    (inner : ∀ token ∈ more, token.text ≠ ";") :
    isWord (String.join ((first :: more).map (·.text))) = true ∧
      ∀ d ∈ (String.join ((first :: more).map (·.text))).toList.tail, d ≠ ';' := by
  have hfirst := words first (List.mem_cons_self ..)
  obtain ⟨hfull, -⟩ := isWord_iff.mp hfirst.isWord
  obtain ⟨d, rest, hd⟩ := List.exists_cons_of_ne_nil hfull
  have hjoin : (String.join ((first :: more).map (·.text))).toList =
      (first :: more).flatMap fun token => token.text.toList := by
    rw [String.toList_join, List.flatMap_map]
  rw [isWord_iff, hjoin]
  refine ⟨⟨by simp [hd], ?_⟩, ?_⟩
  · intro e he
    obtain ⟨token, htoken, hmem⟩ := List.mem_flatMap.mp he
    exact (isWord_iff.mp (words token htoken).isWord).2 e hmem
  · rintro e he rfl
    rw [List.flatMap_cons, hd, List.cons_append, List.tail_cons] at he
    rcases List.mem_append.mp he with hrest | hmore
    · have hstop := hfirst.alone ';' (by simp [hd, hrest]) rfl
      rw [hd] at hstop
      rw [(List.cons.inj hstop).2] at hrest
      exact absurd hrest List.not_mem_nil
    · obtain ⟨token, htoken, hmem⟩ := List.mem_flatMap.mp hmore
      have hstop := (words token (List.mem_cons_of_mem _ htoken)).alone ';' hmem rfl
      exact inner token htoken (String.toList_inj.mp hstop)

private theorem printable_of_ofText {settings : Settings} {text : String} {file : ShaderUnit}
    (h : ShaderUnit.ofText settings path text = .ok file) (hc : c ∈ file.constants.entries)
    (finite : ∀ x, c.value = .float x → x.isFinite = true) : c.Printable := by
  obtain ⟨statements, constants, hcuts, hconstants, rfl⟩ := ShaderUnit.ofText_eq_ok_iff.mp h
  obtain ⟨before, s, after, rfl, hdeclares, -⟩ := (ShaderUnit.mem_constantsOf hconstants).mp hc
  obtain ⟨kind, keyword, name, sign, first, more, stop, rfl, hdeclared⟩ := hdeclares
  have hwords : ∀ token ∈ Statement.tokens (.constant kind keyword name sign first more stop),
      StrippedWord token.text := by
    intro token htoken
    refine strippedWord_of_tokensOfText hcuts.tokensOfText token ?_
    simp [htoken]
  have hvalues : ∀ token ∈ first :: more, StrippedWord token.text := by
    intro token htoken
    refine hwords token ?_
    rcases List.mem_cons.mp htoken with rfl | hmore
    · simp [Statement.tokens]
    · simp [Statement.tokens, hmore]
  have hmore := hcuts.ne_stop (List.mem_append_right before (List.mem_cons_self ..))
  have hinitializer := word_of_initializer hvalues hmore
  have hname : StrippedWord c.name := by
    rw [Statement.name_of_declaredConstant hdeclared]
    exact hwords name (by simp [Statement.tokens])
  have hinitial := Statement.initial_of_declaredConstant hdeclared finite
  rcases Statement.value_cases_of_declaredConstant hdeclared with hkind | ⟨hexpr, -⟩
  · obtain ⟨hvalue, hchars⟩ := ConstValue.isWord_text_of_kind? hkind finite
    refine ⟨hname, hvalue, ?_, hinitial⟩
    rintro d hd rfl
    exact absurd (hchars ';' (List.mem_of_mem_tail hd)) (by decide)
  · have htext : c.value.text = String.join ((first :: more).map (·.text)) := by
      rw [hexpr]
      rfl
    rw [← htext] at hinitializer
    exact ⟨hname, hinitializer.1, hinitializer.2, hinitial⟩

/--
**A constant of a file reads back exactly when no equals sign in its name stands alone.**  The
constant is finite and its value holds no mark of a comment; and every equals sign of its name is part
of a longer operator within the name, unless it is the name.
-/
theorem readsBack_iff {settings : Settings} {text : String} {file : ShaderUnit}
    (h : ShaderUnit.ofText settings path text = .ok file) (hc : c ∈ file.constants.entries)
    (finite : ∀ x, c.value = .float x → x.isFinite = true)
    (unmarked : Comment.Unmarked c.value.text.toList) (other : String) :
    c.ReadsBack other ↔ c.name = "=" ∨ ∀ left right, c.name.toList = left ++ '=' :: right →
      isCompound left.getLast? right.head? = true := by
  have hprintable := printable_of_ofText h hc finite
  rw [← whole_iff hprintable.name]
  constructor
  · intro hreads
    exact hreads.whole hprintable unmarked
  · intro hwhole
    exact hprintable.readsBack unmarked hwhole other

/-- A file with nothing but a constant. -/
def alone (c : Constant) : ShaderUnit where
  path := "main"
  version := none
  stage := none
  precision := none
  includes := []
  constants := ⟨[c], by simp⟩
  body := []

/-- A constant that an expression declares. -/
def waved : Constant := ⟨"S", .float, .expr "sin(0.5)", "main", some 1⟩

theorem waved_readsBack_iff :
    ShaderUnit.ofText .empty "main" "const float S = sin(0.5);\n" = .ok (alone waved) ∧
      waved ∈ (alone waved).constants.entries ∧
      (∀ x, waved.value = .float x → x.isFinite = true) ∧
      Comment.Unmarked waved.value.text.toList ∧
      (waved.ReadsBack "again" ↔ waved.name = "=" ∨
        ∀ left right, waved.name.toList = left ++ '=' :: right →
          isCompound left.getLast? right.head? = true) := by
  have hread : ShaderUnit.ofText .empty "main" "const float S = sin(0.5);\n" =
      .ok (alone waved) := by
    decide +kernel
  have hmem : waved ∈ (alone waved).constants.entries := List.mem_singleton.mpr rfl
  have hfinite : ∀ x, waved.value = .float x → x.isFinite = true := by
    intro x hx
    exact absurd hx (by simp [waved])
  have hunmarked : Comment.Unmarked waved.value.text.toList :=
    Comment.unmarked_of_free (by decide)
  exact ⟨hread, hmem, hfinite, hunmarked, readsBack_iff hread hmem hfinite hunmarked "again"⟩

/-- A constant with a comment in front of its equals sign. -/
def glued : Constant := ⟨"S=2.5", .float, .expr "vec4v=S*w", "main", some 1⟩

/-- What its declaration is read as. -/
def parted : Constant := ⟨"S", .float, .expr "2.5=vec4v=S*w", "main", some 1⟩

/-- The comment glues the name to the sign and the value, and the declaration parts them. -/
theorem glued_not_readsBack :
    ShaderUnit.ofText .empty "main" "const float S/* scale */=2.5;\nvec4 v = S * w;\n" =
        .ok (alone glued) ∧
      glued ∈ (alone glued).constants.entries ∧
      (∀ x, glued.value = .float x → x.isFinite = true) ∧
      Comment.Unmarked glued.value.text.toList ∧
      ShaderUnit.ofText .empty "main" glued.declaration = .ok (alone parted) ∧
      ¬ glued.ReadsBack "main" := by
  have hparted : ShaderUnit.ofText .empty "main" glued.declaration = .ok (alone parted) := by
    decide +kernel
  refine ⟨by decide +kernel, List.mem_singleton.mpr rfl, ?_, ?_, hparted, ?_⟩
  · intro x hx
    exact absurd hx (by simp [glued])
  · exact Comment.unmarked_of_free (by decide)
  · intro hreads
    obtain ⟨file, d, hfile, hentries, hname, -⟩ := hreads
    rw [hparted, Except.ok.injEq] at hfile
    rw [← hfile] at hentries
    have hd : [parted] = [d] := hentries
    rw [← (List.cons.inj hd).1] at hname
    exact absurd hname (by decide)

end Constant

end ShaderLink
