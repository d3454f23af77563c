/-
What the tokens of a text hold.

Spacing a text and cutting it into words loses no character but blanks and makes none but
the underscore of a joined keyword.  `Condensed` says so of a text and the characters of
its tokens without a pass over either, and it is said of the whole text, of each line, and
of what stands on either side of an equals sign; so every token is found where its
characters stand.

The marks that the statements are told by are tokens of their own: semicolons and
parentheses always, an equals sign when it is no part of a longer operator.
-/
import ShaderLink.Proofs.Source.Respacing
import ShaderLink.Proofs.Source.StripOrder

namespace ShaderLink

namespace Spacing

open Text

/-! ### Characters that stay -/

/-- A text behind a character begins with the two words of a keyword, and words may end there. -/
def BeginsKeyword (before : Option Char) (text : List Char) : Prop :=
  isWordEdge before = true ∧
    ∃ kind words rest, text = words ++ rest ∧ Spells kind words ∧ isWordEdge rest.head? = true

/-- A text behind a character, and its characters without blanks where a joined keyword stands for
each keyword. -/
inductive Condensed : Option Char → List Char → List Char → Prop where
  | nil {before : Option Char} : Condensed before [] []
  | keyword {before : Option Char} {kind : ConstKind} {words rest ink : List Char}
      (fresh : isWordEdge before = true) (spells : Spells kind words)
      (ends : isWordEdge rest.head? = true) (more : Condensed (some 't') rest ink) :
      Condensed before (words ++ rest) ((joined kind).toList ++ ink)
  | blank {before : Option Char} {c : Char} {rest ink : List Char} (blank : isBlank c = true)
      (more : Condensed (some c) rest ink) : Condensed before (c :: rest) ink
  | plain {before : Option Char} {c : Char} {rest ink : List Char} (full : isBlank c = false)
      (plain : ¬ BeginsKeyword before (c :: rest)) (more : Condensed (some c) rest ink) :
      Condensed before (c :: rest) (c :: ink)

theorem condensed_joinKeywords (before : Option Char) (text : List Char) :
    Condensed before text (inked (joinKeywords before 0 text)) := by
  induction before, text using keywordInduction with
  | nil before => exact .nil
  | keyword before kind words rest hbefore hspells hrest ih =>
      have hjoined : inked (joined kind).toList = (joined kind).toList := by
        cases kind <;> rfl
      rw [joinKeywords_words hspells hbefore hrest, inked_append, hjoined]
      exact .keyword hbefore hspells hrest ih
  | cons before c rest hstarts ih =>
      rw [joinKeywords_cons hstarts]
      by_cases hc : isBlank c = true
      · rw [inked, List.filter_cons_of_neg (by simp [hc])]
        exact .blank hc ih
      · rw [inked, List.filter_cons_of_pos (by simpa using hc)]
        refine .plain (by simpa using hc) ?_ ih
        intro hkeyword
        rw [startsKeyword_eq_true_iff.mpr hkeyword] at hstarts
        exact absurd hstarts (by simp)

/-- Setting marks apart behind it leaves the characters of a text. -/
theorem condensed_setApart (before left : Option Char) (text : List Char) :
    Condensed left text (inked (setApart before (joinKeywords left 0 text))) := by
  rw [inked_setApart]
  exact condensed_joinKeywords left text

end Spacing

open Text Spacing

/-! ### Tokens of numbered lines -/

/-- The characters of tokens. -/
def Token.ink (tokens : List Token) : List Char := tokens.flatMap (·.text.toList)

private theorem Token.ink_append (tokens more : List Token) :
    ink (tokens ++ more) = ink tokens ++ ink more :=
  List.flatMap_append

/-- Lines of a file with their numbers from one on. -/
def SourceLine.numbered (path : String) (first : Nat) (lines : List (List Char)) :
    List SourceLine :=
  (lines.zipIdx first).map fun (line, number) => ⟨path, number, String.ofList line⟩

private theorem SourceLine.numbered_append (path : String) (first : Nat)
    (lines more : List (List Char)) :
    numbered path first (lines ++ more) =
      numbered path first lines ++ numbered path (first + lines.length) more := by
  rw [numbered, List.zipIdx_append, List.map_append]
  rfl

private theorem SourceLine.ink_tokens (line : SourceLine) :
    Token.ink line.tokens = inked line.text.toList := by
  rw [Token.ink, tokens, List.flatMap_map, words, List.flatMap_map]
  simp only [String.toList_ofList, List.flatMap_id']
  exact flatten_fullFields _

private theorem ink_tokenize_numbered (path : String) (first : Nat) (lines : List (List Char)) :
    Token.ink (tokenize (SourceLine.numbered path first lines)) = lines.flatMap inked := by
  induction lines generalizing first with
  | nil => rfl
  | cons line lines ih =>
      have hline := SourceLine.ink_tokens ⟨path, first, String.ofList line⟩
      rw [String.toList_ofList] at hline
      rw [List.flatMap_cons, ← ih (first + 1), ← hline, ← Token.ink_append]
      rfl

/-- Line ends are blanks, so the lines of a text hold all that is no blank. -/
private theorem flatMap_inked_fileLines (text : List Char) :
    (fileLines text).flatMap inked = inked text := by
  obtain ⟨lines, hlines⟩ : ∃ lines, Lined text lines := ⟨_, lined_fileLines text⟩
  rw [hlines.fileLines_eq]
  induction hlines with
  | nil => rfl
  | last free full => exact List.append_nil _
  | @line line mark rest lines free ends more ih =>
      have hmark : inked mark = [] := by
        rcases ends with rfl | rfl | ⟨rfl, -⟩ <;> rfl
      rw [List.flatMap_cons, ih, inked_append, inked_append, hmark]
      rfl

private theorem ink_tokenize_split (path text : String) :
    Token.ink (tokenize (SourceLine.split path text)) = inked text.toList := by
  rw [← flatMap_inked_fileLines]
  exact ink_tokenize_numbered path 1 _

/-- The tokens that bear the number of a line are its own. -/
private theorem filter_tokenize_of_mem {lines : List SourceLine}
    (distinct : lines.Pairwise fun a b => a.number ≠ b.number) {line : SourceLine}
    (hline : line ∈ lines) : (tokenize lines).filter (·.line == line.number) = line.tokens := by
  induction lines with
  | nil => exact absurd hline (by simp)
  | cons first rest ih =>
      obtain ⟨hfirst, hrest⟩ := List.pairwise_cons.mp distinct
      by_cases heq : line = first
      · rw [heq]
        exact (filter_tokenize_cons hfirst).1
      · have hmem : line ∈ rest := (List.mem_cons.mp hline).resolve_left heq
        have hnone : first.tokens.filter (·.line == line.number) = [] := by
          rw [List.filter_eq_nil_iff]
          intro token htoken
          obtain ⟨word, -, rfl⟩ := List.mem_map.mp htoken
          simpa using hfirst line hmem
        show (first.tokens ++ tokenize rest).filter _ = _
        rw [List.filter_append, hnone, ih hrest hmem]
        rfl

/-! ### A mark that is a token -/

private theorem SourceLine.tokens_apart {c : Char} (hc : isBlank c = false) (path : String)
    (number : Nat) (left right : List Char) :
    tokens ⟨path, number, String.ofList (left ++ ([' ', c, ' '] ++ right))⟩ =
      tokens ⟨path, number, String.ofList left⟩ ++ ⟨path, number, String.ofList [c]⟩ ::
        tokens ⟨path, number, String.ofList right⟩ := by
  have hfields := fullFields_apart hc left right
  simp only [tokens, words, String.toList_ofList, List.cons_append, List.nil_append, hfields,
    List.map_append, List.map_cons]

/-- The line of a mark between blanks is cut in two there. -/
private theorem tokenize_numbered_apart {c : Char} (hc : isBlank c = false) (path : String)
    (first : Nat) (earlier : List (List Char)) (left right : List Char) (later : List (List Char)) :
    tokenize (SourceLine.numbered path first
        (earlier ++ (left ++ ([' ', c, ' '] ++ right)) :: later)) =
      tokenize (SourceLine.numbered path first (earlier ++ [left])) ++
        ⟨path, first + earlier.length, String.ofList [c]⟩ ::
          tokenize (SourceLine.numbered path (first + earlier.length) (right :: later)) := by
  have htokens (number : Nat) (line : List Char) (lines : List (List Char)) :
      tokenize (SourceLine.numbered path number (line :: lines)) =
        SourceLine.tokens ⟨path, number, String.ofList line⟩ ++
          tokenize (SourceLine.numbered path (number + 1) lines) := rfl
  rw [SourceLine.numbered_append, SourceLine.numbered_append, tokenize_append, tokenize_append,
    htokens, htokens, htokens, SourceLine.tokens_apart hc]
  simp [SourceLine.numbered, tokenize]

/-- The lines of a text cut at a mark hold what stands on either side of it. -/
private theorem inked_of_fileLines_append {front mark behind left right : List Char}
    {earlier later : List (List Char)}
    (hfront : fileLines (front ++ mark) = earlier ++ [left ++ mark])
    (hall : fileLines (front ++ (mark ++ behind)) = earlier ++ (left ++ (mark ++ right)) :: later) :
    (earlier ++ [left]).flatMap inked = inked front ∧
      (right :: later).flatMap inked = inked behind := by
  have hbefore := flatMap_inked_fileLines (front ++ mark)
  rw [hfront, List.flatMap_append, List.flatMap_singleton, inked_append, inked_append,
    ← List.append_assoc, List.append_cancel_right_eq] at hbefore
  have hafter := flatMap_inked_fileLines (front ++ (mark ++ behind))
  rw [hall, List.flatMap_append, List.flatMap_cons] at hafter
  simp only [inked_append] at hafter
  rw [← hbefore] at hafter
  simp only [List.append_assoc, List.append_cancel_left_eq] at hafter
  refine ⟨?_, hafter⟩
  rw [List.flatMap_append, List.flatMap_singleton]
  exact hbefore

/-- A mark between blanks is a token on its line, between the tokens of the texts beside it. -/
private theorem exists_tokenize_apart {c : Char} (hc : isBlank c = false) (path : String)
    (front behind : List Char) :
    ∃ before after, tokenize (SourceLine.split path
        (String.ofList (front ++ ' ' :: c :: ' ' :: behind))) =
          before ++ ⟨path, (fileLines (front ++ [' ', c, ' '])).length, String.ofList [c]⟩ :: after ∧
      Token.ink before = inked front ∧ Token.ink after = inked behind := by
  have hfree : ∀ d ∈ [' ', c, ' '], isLineEnd d = false := by
    simpa [not_isLineEnd_of_not_isBlank hc] using (by decide : isLineEnd ' ' = false)
  obtain ⟨earlier, left, right, later, hfront, hall⟩ :=
    exists_fileLines_append front (by simp) hfree behind
  obtain ⟨hbefore, hafter⟩ := inked_of_fileLines_append hfront hall
  have hnumber : (fileLines (front ++ [' ', c, ' '])).length = 1 + earlier.length := by
    rw [hfront, List.length_append]
    exact Nat.add_comm _ _
  have hlines : SourceLine.split path (String.ofList (front ++ ' ' :: c :: ' ' :: behind)) =
      SourceLine.numbered path 1 (earlier ++ (left ++ ([' ', c, ' '] ++ right)) :: later) := by
    rw [← hall, SourceLine.split, String.toList_ofList]
    rfl
  rw [hlines, tokenize_numbered_apart hc, hnumber]
  refine ⟨_, _, rfl, ?_, ?_⟩
  · rw [ink_tokenize_numbered]
    exact hbefore
  · rw [ink_tokenize_numbered]
    exact hafter

/-- An equals sign that is no part of a longer operator stands between blanks once it is spaced. -/
private theorem spaced_equals {left right : List Char}
    (single : isCompound left.getLast? right.head? = false) :
    setApart none (joinKeywords none 0 (left ++ '=' :: right)) =
      setApart none (joinKeywords none 0 left) ++
        ' ' :: '=' :: ' ' :: setApart (some '=') (joinKeywords none 0 right) := by
  have hedge : isWordEdge (some '=') = isWordEdge none := by decide
  have hapart : standsApart ((joinKeywords none 0 left).getLast?.or none) '='
      (joinKeywords none 0 right).head? = true := by
    rw [Option.or_none, getLast?_joinKeywords, head?_joinKeywords]
    exact standsApart_eq_true_iff.mpr (.inr ⟨rfl, single⟩)
  rw [joinKeywords_append_cons (by decide) (by decide), joinKeywords_before hedge,
    setApart_append_apart hapart]

/-- It is spaced with what stands in front of it, whatever stands behind it. -/
private theorem length_fileLines_equals {left right : List Char}
    (single : isCompound left.getLast? right.head? = false) :
    (fileLines (setApart none (joinKeywords none 0 left) ++ [' ', '=', ' '])).length =
      (fileLines (left ++ ['='])).length := by
  have hsingle : isCompound left.getLast? [].head? = false := by
    rw [isCompound, Bool.or_eq_false_iff] at single ⊢
    exact ⟨single.1, rfl⟩
  have hlines := linewise_spaced.fileLines_eq (left ++ ['='])
  rw [spaced_equals hsingle] at hlines
  exact (congrArg List.length hlines).trans (List.length_map _)

/-! ### All tokens -/

/-- The tokens of a file's text. -/
structure Tokenized (path : String) (text : List Char) (tokens : List Token) : Prop where
  /-- A token that holds a semicolon or a parenthesis is this character. -/
  marks : ∀ token ∈ tokens, ∀ c ∈ token.text.toList, c = ';' ∨ c = '(' ∨ c = ')' →
    token.text.toList = [c]
  /-- An equals sign that is no part of a longer operator is a token on its line, between the tokens
  of the text in front of it and those of the text behind it. -/
  equals : ∀ left right, text = left ++ '=' :: right →
    isCompound left.getLast? right.head? = false →
    ∃ before after, tokens = before ++ ⟨path, (fileLines (left ++ ['='])).length, "="⟩ :: after ∧
      Condensed none left (Token.ink before) ∧ Condensed none right (Token.ink after)
  /-- Together they hold the text without its blanks, with its keywords joined. -/
  whole : Condensed none text (Token.ink tokens)
  /-- Those with the number of a line hold this line. -/
  lines : ∀ line number, (line, number) ∈ (fileLines text).zipIdx 1 →
    Condensed none line (Token.ink (tokens.filter (·.line == number)))
  /-- No other number stands on a token. -/
  numbers : ∀ token ∈ tokens, 1 ≤ token.line ∧ token.line ≤ (fileLines text).length
  /-- They name the file and come in the order of its lines, and none holds a blank. -/
  file : FileTokens path tokens

private theorem SourceLine.places_read (path text : String) :
    (read path text).map place = (split path text).map place := by
  rw [read_eq_map, List.map_map]
  rfl

private theorem mark_of_mem_tokenize_read {path text : String} {token : Token}
    (htoken : token ∈ tokenize (SourceLine.read path text)) {c : Char}
    (hc : c ∈ token.text.toList) (alone : standsAlone c = true) : token.text.toList = [c] := by
  rw [SourceLine.read_eq_map] at htoken
  obtain ⟨line, hline, htoken⟩ := List.mem_flatMap.mp htoken
  obtain ⟨raw, -, rfl⟩ := List.mem_map.mp hline
  obtain ⟨word, hword, rfl⟩ := List.mem_map.mp htoken
  obtain ⟨field, hfield, rfl⟩ := List.mem_map.mp hword
  have hspaced : field ∈
      fullFields isBlank (setApart none (joinKeywords none 0 raw.text.toList)) := by
    simpa [SourceLine.spaced, spaced] using hfield
  rw [String.toList_ofList] at hc ⊢
  exact (setOff_setApart none _).eq_singleton hspaced hc alone

private theorem exists_equals_tokenize_read (path : String) {text : String} {left right : List Char}
    (htext : text.toList = left ++ '=' :: right)
    (single : isCompound left.getLast? right.head? = false) :
    ∃ before after, tokenize (SourceLine.read path text) =
        before ++ ⟨path, (fileLines (left ++ ['='])).length, "="⟩ :: after ∧
      Condensed none left (Token.ink before) ∧ Condensed none right (Token.ink after) := by
  obtain ⟨before, after, htokens, hbefore, hafter⟩ :=
    exists_tokenize_apart (by decide : isBlank '=' = false) path
      (setApart none (joinKeywords none 0 left)) (setApart (some '=') (joinKeywords none 0 right))
  rw [length_fileLines_equals single, ← spaced_equals single, ← htext] at htokens
  refine ⟨before, after, htokens, ?_, ?_⟩
  · rw [hbefore]
    exact condensed_setApart none none left
  · rw [hafter]
    exact condensed_setApart (some '=') none right

private theorem condensed_line {path text : String} {line : List Char} {number : Nat}
    (hline : (line, number) ∈ (fileLines text.toList).zipIdx 1) :
    Condensed none line
      (Token.ink ((tokenize (SourceLine.read path text)).filter (·.line == number))) := by
  have hdistinct : (SourceLine.read path text).Pairwise fun a b => a.number ≠ b.number :=
    SourceLine.pairwise_number_split path (spaced text)
  have hread : SourceLine.spaced ⟨path, number, String.ofList line⟩ ∈
      SourceLine.read path text := by
    rw [SourceLine.read_eq_map]
    exact List.mem_map_of_mem (List.mem_map.mpr ⟨_, hline, rfl⟩)
  have hfilter := filter_tokenize_of_mem hdistinct hread
  have hnumber : (SourceLine.spaced ⟨path, number, String.ofList line⟩).number = number := rfl
  rw [hnumber] at hfilter
  rw [hfilter, SourceLine.ink_tokens]
  simpa [SourceLine.spaced, spaced] using condensed_setApart none none line

/--
**The tokens of a text hold its characters where they stand.**  Marks are tokens of their own, and
blanks are lost and keywords joined but nothing else is changed, on every line; and spacing the text
once more leaves the tokens as they are.
-/
theorem tokenized_read (path text : String) :
    Tokenized path text.toList (tokenize (SourceLine.read path text)) ∧
      tokenize (SourceLine.read path (spaced text)) = tokenize (SourceLine.read path text) := by
  refine ⟨⟨?_, ?_, ?_, ?_, ?_, ?_⟩, tokenize_read_spaced path text⟩
  · intro token htoken c hc hmark
    refine mark_of_mem_tokenize_read htoken hc ?_
    rcases hmark with rfl | rfl | rfl <;> rfl
  · intro left right htext hsingle
    exact exists_equals_tokenize_read path htext hsingle
  · rw [SourceLine.read, ink_tokenize_split, spaced, String.toList_ofList]
    exact condensed_setApart none none _
  · intro line number hline
    exact condensed_line hline
  · intro token htoken
    exact SourceLine.number_bounds_of_places (SourceLine.places_read path text) htoken
  · exact .of_places (SourceLine.places_read path text)

example : (tokenize (SourceLine.read "main" "const  int n=3;\nx+=(a==b);")).map (·.text) =
    ["const_int", "n", "=", "3", ";", "x+=", "(", "a==b", ")", ";"] := by
  decide +kernel

end ShaderLink
