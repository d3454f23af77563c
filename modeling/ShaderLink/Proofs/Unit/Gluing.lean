/-
How an initializer reads once it is put together.

The initializer of a constant is kept as the texts of its tokens with nothing between them,
and is printed so when it spells no number.  This takes back the blanks that are put
around parentheses when the file is read, and with them every other blank.  So it reads as
the file does exactly when none of the blanks was needed: when nowhere between the equals
sign and the semicolon do blanks or line ends alone stand between two characters that are
read together.  In `N - -2` they do, and what is printed is `N--2`.
-/
import ShaderLink.Proofs.Text.Clumps
import ShaderLink.Proofs.Unit.Script

namespace ShaderLink

open Text (Apart BlanksIdle clumps fullFields isBlank)

/-! ### Text of lines and texts of tokens -/

/-- The text of lines, joined by line ends. -/
def page (lines : List SourceLine) : List Char := Text.joinWith '\n' (lines.map (·.text.toList))

def tokenTexts (tokens : List Token) : List (List Char) := tokens.map (·.text.toList)

private theorem tokenTexts_append (tokens more : List Token) :
    tokenTexts (tokens ++ more) = tokenTexts tokens ++ tokenTexts more :=
  List.map_append ..

private theorem SourceLine.tokenTexts_tokens (line : SourceLine) :
    tokenTexts line.tokens = fullFields isBlank line.text.toList := by
  simp [tokenTexts, tokens, Text.words, Function.comp_def]

/-- The words of a page are the texts of its tokens. -/
private theorem fullFields_page (lines : List SourceLine) :
    fullFields isBlank (page lines) = tokenTexts (tokenize lines) := by
  rw [page, Text.fullFields_joinWith (by decide)]
  induction lines with
  | nil => rfl
  | cons line rest ih =>
      rw [List.map_cons, List.flatMap_cons, ih, ← line.tokenTexts_tokens, ← tokenTexts_append]
      rfl

private theorem toList_join_texts (tokens : List Token) :
    (String.join (tokens.map (·.text))).toList = (tokenTexts tokens).flatten := by
  rw [String.toList_join, tokenTexts, List.flatMap_map, List.flatMap_def]

/-- A stretch of a text has words of it, between what has those before and what has those behind. -/
def IsStretch (text stretch : List Char) (before words behind : List (List Char)) : Prop :=
  ∃ left right, text = left ++ (stretch ++ right) ∧ fullFields isBlank left = before ∧
    fullFields isBlank stretch = words ∧ fullFields isBlank right = behind

private theorem IsStretch.words {text stretch : List Char} {before words behind : List (List Char)}
    (h : IsStretch text stretch before words behind) : fullFields isBlank stretch = words := by
  obtain ⟨-, -, -, -, hwords, -⟩ := h
  exact hwords

private theorem exists_isStretch {text : List Char} {before words behind : List (List Char)}
    (h : fullFields isBlank text = before ++ (words ++ behind)) :
    ∃ stretch, IsStretch text stretch before words behind := by
  obtain ⟨left, rest, rfl, hleft, hrest⟩ := Text.exists_append_of_fullFields h
  obtain ⟨stretch, right, rfl, hstretch, hright⟩ := Text.exists_append_of_fullFields hrest
  exact ⟨stretch, left, right, rfl, hleft, hstretch, hright⟩

namespace ShaderUnit

variable {settings : Settings} {path text : String} {tokens : List Token}

/-- Lines are left of a text when its comments are taken out and its conditions are decided. -/
def Leaves (settings : Settings) (path text : String) (lines : List SourceLine) : Prop :=
  ∃ stripped, (stripComments (SourceLine.read path text)).toExcept = .ok stripped ∧
    (evaluateConditions settings.flags stripped).toExcept = .ok lines

private theorem exists_leaves (h : tokensOfText settings path text = .ok tokens) :
    ∃ lines, Leaves settings path text lines ∧ tokens = tokenize lines := by
  unfold tokensOfText at h
  obtain ⟨stripped, hstripped, h⟩ := bind_eq_ok_iff.mp h
  obtain ⟨lines, hlines, h⟩ := bind_eq_ok_iff.mp h
  exact ⟨lines, ⟨stripped, hstripped, hlines⟩, (Except.ok.inj h).symm⟩

/--
**An initializer is put together as it reads exactly when its blanks keep nothing apart.**  The
values of a constant make up a stretch of what comments and conditions leave of the file.  No value
joins the next exactly when no blanks in this stretch stand between characters that join, and
exactly when the values put together have the clumps of the values; and this is the text that the
constant has, unless it is a number of its kind.
-/
theorem apart_initializer_iff {kind : ConstKind} {keyword name sign first : Token}
    {more : List Token} {stop : Token} (cut : tokensOfText settings path text = .ok tokens)
    (read : .constant kind keyword name sign first more stop ∈
      (Reading.ofTokens path tokens).statements) :
    ∃ lines before after written, Leaves settings path text lines ∧
      tokens = before ++ (keyword :: name :: sign :: first :: (more ++ stop :: after)) ∧
      IsStretch (page lines) written (tokenTexts (before ++ [keyword, name, sign]))
        (tokenTexts (first :: more)) (tokenTexts (stop :: after)) ∧
      (Apart (tokenTexts (first :: more)) ↔ BlanksIdle written) ∧
      (Apart (tokenTexts (first :: more)) ↔
        clumps (String.join ((first :: more).map (·.text))).toList =
          (tokenTexts (first :: more)).flatMap clumps) ∧
      ∀ c, (Statement.constant kind keyword name sign first more stop).Declares settings path c →
        c.value = .expr (String.join ((first :: more).map (·.text))) ∨ c.value.kind? = some kind := by
  obtain ⟨lines, hleaves, rfl⟩ := exists_leaves cut
  obtain ⟨before, after, hsplit, -⟩ := Script.exists_append_readBefore read
  have htokens : tokenize lines = (before ++ [keyword, name, sign]) ++
      ((first :: more) ++ (stop :: after)) := by
    rw [hsplit]
    simp [Statement.tokens]
  have hpage : fullFields isBlank (page lines) = tokenTexts (before ++ [keyword, name, sign]) ++
      (tokenTexts (first :: more) ++ tokenTexts (stop :: after)) := by
    rw [fullFields_page, htokens, tokenTexts_append, tokenTexts_append (first :: more)]
  obtain ⟨written, hwritten⟩ := exists_isStretch hpage
  have hwords := hwritten.words
  refine ⟨lines, before, after, written, hleaves, by simpa using htokens, hwritten, ?_, ?_, ?_⟩
  · rw [Text.blanksIdle_iff, hwords]
  · rw [toList_join_texts]
    refine (Text.clumps_flatten_iff ?_).symm
    intro value hvalue
    rw [← hwords] at hvalue
    simpa using (List.mem_filter.mp hvalue).2
  · rintro c ⟨_, _, _, _, _, _, _, heq, hc⟩
    cases heq
    exact (Statement.value_of_declaredConstant hc).2

/-- A constant with a call and a sign in its initializer, on two lines. -/
def wave : String := "const float S = sin(0.5)\n  * -2.0;\n"

theorem wave_apart_iff :
    ∃ tokens keyword name sign first more stop,
      tokensOfText .empty "main" wave = .ok tokens ∧
      .constant .float keyword name sign first more stop ∈
        (Reading.ofTokens "main" tokens).statements ∧
      (first :: more).map (·.text) = ["sin", "(", "0.5", ")", "*", "-2.0"] ∧
      ∃ lines before after written, Leaves .empty "main" wave lines ∧
        tokens = before ++ (keyword :: name :: sign :: first :: (more ++ stop :: after)) ∧
        IsStretch (page lines) written (tokenTexts (before ++ [keyword, name, sign]))
          (tokenTexts (first :: more)) (tokenTexts (stop :: after)) ∧
        (Apart (tokenTexts (first :: more)) ↔ BlanksIdle written) ∧
        (Apart (tokenTexts (first :: more)) ↔
          clumps (String.join ((first :: more).map (·.text))).toList =
            (tokenTexts (first :: more)).flatMap clumps) ∧
        ∀ c, (Statement.constant .float keyword name sign first more stop).Declares .empty "main" c →
          c.value = .expr (String.join ((first :: more).map (·.text))) ∨
            c.value.kind? = some .float := by
  have hcut : tokensOfText .empty "main" wave =
      .ok (["const_float", "S", "=", "sin", "(", "0.5", ")"].map mainToken ++
        ["*", "-2.0", ";"].map fun text => ⟨"main", 2, text⟩) := by decide +kernel
  have hread : .constant .float (mainToken "const_float") (mainToken "S") (mainToken "=")
      (mainToken "sin") (["(", "0.5", ")"].map mainToken ++
        ["*", "-2.0"].map fun text => ⟨"main", 2, text⟩) ⟨"main", 2, ";"⟩ ∈
      (Reading.ofTokens "main" (["const_float", "S", "=", "sin", "(", "0.5", ")"].map mainToken ++
        ["*", "-2.0", ";"].map fun text => ⟨"main", 2, text⟩)).statements := by decide +kernel
  exact ⟨_, _, _, _, _, _, _, hcut, hread, rfl, apart_initializer_iff hcut hread⟩

/-- A constant that takes away a negative number. -/
def raised : String := "const int M = N - -2;\n"

/-- **The two minus signs are joined**: what the constant has, and its declaration prints, is a
decrement of `N` in front of a number. -/
theorem raised_not_apart :
    ∃ keyword name sign first more stop file,
      tokensOfText .empty "main" raised =
        .ok (keyword :: name :: sign :: first :: (more ++ [stop])) ∧
      .constant .int keyword name sign first more stop ∈
        (Reading.ofTokens "main" (keyword :: name :: sign :: first :: (more ++ [stop]))).statements ∧
      (first :: more).map (·.text) = ["N", "-", "-2"] ∧ ¬ Apart (tokenTexts (first :: more)) ∧
      (tokenTexts (first :: more)).flatMap clumps = ["N", "-", "-", "2"].map String.toList ∧
      clumps "N--2".toList = ["N", "--", "2"].map String.toList ∧
      ofText .empty "main" raised = .ok file ∧
      file.constants.entries = [⟨"M", .int, .expr "N--2", "main", some 1⟩] ∧
      file.constants.entries.map Constant.declaration = ["const int M = N--2;"] := by
  have hconstants : (ofText .empty "main" raised).map (·.constants.entries) =
      .ok [⟨"M", .int, .expr "N--2", "main", some 1⟩] := by decide +kernel
  obtain ⟨file, hfile, hentries⟩ := exists_of_map_eq_ok hconstants
  refine ⟨mainToken "const_int", mainToken "M", mainToken "=", mainToken "N",
    ["-", "-2"].map mainToken, mainToken ";", file, by decide +kernel, by decide +kernel, rfl,
    by decide +kernel, by decide +kernel, by decide +kernel, hfile, hentries, ?_⟩
  rw [hentries]
  rfl

end ShaderUnit

end ShaderLink
