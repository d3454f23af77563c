/-
Spacing before stripping.

The tokens of a file are those of its text spaced first and stripped of comments then.
Stripping fails at the same line in either order, but the tokens can differ, for a comment
hides from a keyword or an equals sign what stands behind it.  `tokenize_read_iff` says
that they are the same exactly when every line of the file reads alike.

Each line settles this for its own tokens.  Lines are told apart by their numbers, so no
difference in one line makes up for a difference in another.
-/
import ShaderLink.Proofs.Source.Alike
import ShaderLink.Proofs.Unit.Tokens

namespace ShaderLink

/-! ### Tokens of lines with numbers of their own -/

private theorem SourceLine.tokens_eq_iff {line other : SourceLine}
    (place : line.place = other.place) :
    line.tokens = other.tokens ↔ Text.words line.text = Text.words other.text := by
  obtain ⟨hfile, hnumber⟩ := Prod.mk.inj place
  rw [tokens, tokens, hfile, hnumber]
  exact List.map_inj_right fun a b hab => (Token.mk.inj hab).2.2

/-- The tokens of a line are those that bear its number, when no line behind it does. -/
theorem filter_tokenize_cons {line : SourceLine} {rest : List SourceLine}
    (distinct : ∀ other ∈ rest, line.number ≠ other.number) :
    (tokenize (line :: rest)).filter (·.line == line.number) = line.tokens ∧
      (tokenize (line :: rest)).filter (·.line != line.number) = tokenize rest := by
  have hfirst : ∀ token ∈ line.tokens, token.line = line.number := by
    intro token htoken
    obtain ⟨word, -, rfl⟩ := List.mem_map.mp htoken
    rfl
  have hrest : ∀ token ∈ tokenize rest, token.line ≠ line.number := by
    intro token htoken heq
    obtain ⟨other, hother, hline⟩ := line_of_mem_tokenize htoken
    exact distinct other hother (heq.symm.trans hline)
  show (line.tokens ++ tokenize rest).filter _ = _ ∧ (line.tokens ++ tokenize rest).filter _ = _
  rw [List.filter_append, List.filter_append,
    List.filter_eq_self.mpr (by simpa using hfirst),
    List.filter_eq_nil_iff.mpr (by simpa using hrest),
    List.filter_eq_nil_iff.mpr (by simpa using hfirst),
    List.filter_eq_self.mpr (by simpa using hrest)]
  simp

private theorem tokenize_cons_eq_iff {line other : SourceLine} {rest more : List SourceLine}
    (number : line.number = other.number)
    (distinct : ∀ later ∈ rest, line.number ≠ later.number)
    (distinct' : ∀ later ∈ more, other.number ≠ later.number) :
    tokenize (line :: rest) = tokenize (other :: more) ↔
      line.tokens = other.tokens ∧ tokenize rest = tokenize more := by
  have hline := filter_tokenize_cons distinct
  have hother := filter_tokenize_cons distinct'
  refine ⟨fun h => ?_, fun ⟨hfirst, hmore⟩ => ?_⟩
  · rw [h, number] at hline
    exact ⟨hline.1.symm.trans hother.1, hline.2.symm.trans hother.2⟩
  · show line.tokens ++ tokenize rest = other.tokens ++ tokenize more
    rw [hfirst, hmore]

namespace Comment

/-! ### One line in both orders -/

/-- The outline of a line, with a gap at the front when a comment is open there. -/
def lineOutline (inside : Bool) (o : Outline) : Outline := if inside then none :: o else o

/-- The outlines of lines, up to one where a comment ends that was never begun. -/
def outlines (inside : Bool) : List SourceLine → List Outline
  | [] => []
  | line :: rest =>
    match outline inside line.text.toList with
    | some (o, after) => lineOutline inside o :: outlines after rest
    | none => []

private theorem words_eq_iff_readsAlike_line {inside : Bool} {o o' : Outline}
    (h : Joined (leftOf inside none) o o') :
    Text.words (String.ofList (kept (setApartOutline (leftOf inside none) o'))) =
      Text.words (spaced (String.ofList (kept o))) ↔ ReadsAlike (lineOutline inside o) := by
  cases inside with
  | true =>
      have hline := words_eq_iff_readsAlike (.comment none h)
      rwa [setApartOutline, kept_none_cons, kept_none_cons] at hline
  | false => exact words_eq_iff_readsAlike h

private theorem strip_spaced_eq_none {inside : Bool} {text : String}
    (h : outline inside text.toList = none) : strip inside (spaced text).toList = none := by
  have hjoined := outline_joinKeywords none inside text.toList
  rw [h] at hjoined
  rw [spaced, String.toList_ofList, strip_eq, outline_setApart]
  cases hfound : outline inside (Spacing.joinKeywords none 0 text.toList) with
  | none => rfl
  | some found =>
      rw [hfound] at hjoined
      cases hjoined

/-- A line strips in both orders alike, and to the same words when it reads alike. -/
private theorem strip_spaced_eq_some {inside after : Bool} {text : String} {o : Outline}
    (h : outline inside text.toList = some (o, after)) :
    ∃ left, strip inside (spaced text).toList = some (left, after) ∧
      (Text.words (String.ofList left) = Text.words (spaced (String.ofList (kept o))) ↔
        ReadsAlike (lineOutline inside o)) := by
  have hjoined := outline_joinKeywords none inside text.toList
  rw [h] at hjoined
  cases hfound : outline inside (Spacing.joinKeywords none 0 text.toList) with
  | none =>
      rw [hfound] at hjoined
      cases hjoined
  | some found =>
      obtain ⟨o', after'⟩ := found
      rw [hfound] at hjoined
      cases hjoined with
      | some both =>
          obtain ⟨hjoined, hafter⟩ := both
          refine ⟨kept (setApartOutline (leftOf inside none) o'), ?_,
            words_eq_iff_readsAlike_line hjoined⟩
          rw [spaced, String.toList_ofList, strip_eq, outline_setApart, hfound,
            show after = after' from hafter]
          rfl

/-! ### All lines -/

/-- **Stripping fails alike in both orders.** -/
theorem failure_stripFrom_spaced (inside : Bool) (lines : List SourceLine) :
    (stripFrom inside (lines.map SourceLine.spaced)).failure = (stripFrom inside lines).failure := by
  induction lines generalizing inside with
  | nil => rfl
  | cons line rest ih =>
      rw [List.map_cons]
      cases ho : outline inside line.text.toList with
      | none =>
          have hspaced : strip inside line.spaced.text.toList = none := strip_spaced_eq_none ho
          rw [stripFrom, stripFrom, stripLine, stripLine, hspaced, strip_eq, ho]
          rfl
      | some found =>
          obtain ⟨o, after⟩ := found
          obtain ⟨left, hspaced, -⟩ := strip_spaced_eq_some ho
          rw [stripFrom_cons (strip_of_outline ho), @stripFrom_cons _ _ line.spaced _ hspaced,
            LinePass.failure_cons, LinePass.failure_cons, ih]

/-- Stripped lines have the numbers that they had. -/
private theorem number_ne_of_mem_stripFrom {number : Nat} {lines : List SourceLine}
    (h : ∀ line ∈ lines, number ≠ line.number) (inside : Bool) :
    ∀ line ∈ (stripFrom inside lines).lines, number ≠ line.number := by
  intro line hline
  have hmem := List.mem_map_of_mem (f := SourceLine.place) hline
  rw [places_stripFrom] at hmem
  obtain ⟨other, hother, hplace⟩ := List.mem_map.mp hmem
  have hnumber : other.number = line.number := congrArg Prod.snd hplace
  rw [← hnumber]
  exact h other hother

/-- The tokens of lines are the same in both orders when every line reads alike. -/
theorem tokenize_stripFrom_iff (inside : Bool) {lines : List SourceLine}
    (distinct : lines.Pairwise fun a b => a.number ≠ b.number)
    (strips : (stripFrom inside lines).failure = none) :
    tokenize (stripFrom inside (lines.map SourceLine.spaced)).lines =
        tokenize ((stripFrom inside lines).lines.map SourceLine.spaced) ↔
      ∀ o ∈ outlines inside lines, ReadsAlike o := by
  induction lines generalizing inside with
  | nil => simp [stripFrom, outlines]
  | cons line rest ih =>
      obtain ⟨hfirst, hrest⟩ := List.pairwise_cons.mp distinct
      have hspacedFirst : ∀ other ∈ rest.map SourceLine.spaced, line.number ≠ other.number := by
        intro other hother
        obtain ⟨bare, hbare, rfl⟩ := List.mem_map.mp hother
        exact hfirst bare hbare
      cases ho : outline inside line.text.toList with
      | none =>
          rw [stripFrom, stripLine, strip_eq, ho] at strips
          exact absurd strips (by simp)
      | some found =>
          obtain ⟨o, after⟩ := found
          obtain ⟨left, hspaced, hwords⟩ := strip_spaced_eq_some ho
          have hstrip := strip_of_outline ho
          rw [stripFrom_cons hstrip, LinePass.failure_cons] at strips
          -- what stripping leaves of the line and of the spaced line
          let bare : SourceLine := { line with text := String.ofList (kept o) }
          let first : SourceLine := { line with text := String.ofList left }
          have hbehind : ∀ other ∈ (stripFrom after rest).lines.map SourceLine.spaced,
              line.number ≠ other.number := by
            intro other hother
            obtain ⟨stripped, hstripped, rfl⟩ := List.mem_map.mp hother
            exact number_ne_of_mem_stripFrom hfirst after stripped hstripped
          have htokens : first.tokens = bare.spaced.tokens ↔ ReadsAlike (lineOutline inside o) :=
            (@SourceLine.tokens_eq_iff first bare.spaced rfl).trans hwords
          have hcut := @tokenize_cons_eq_iff first bare.spaced _ _ rfl
            (number_ne_of_mem_stripFrom hspacedFirst after) hbehind
          rw [List.map_cons, stripFrom_cons hstrip, @stripFrom_cons _ _ line.spaced _ hspaced,
            LinePass.lines_cons, LinePass.lines_cons, List.map_cons]
          exact hcut.trans (by rw [htokens, ih after hrest strips, outlines, ho, List.forall_mem_cons])

end Comment

theorem SourceLine.pairwise_number_split (path text : String) :
    (split path text).Pairwise fun a b => a.number ≠ b.number := by
  have hnumbers : ((split path text).map place).Pairwise fun a b => a.2 ≠ b.2 := by
    rw [places_split, List.pairwise_map]
    exact List.nodup_range'
  rwa [List.pairwise_map] at hnumbers

/-- Stripping the comments of a file's text fails at the same line, spaced or not. -/
theorem failure_stripComments_read (path text : String) :
    (stripComments (SourceLine.read path text)).failure =
      (stripComments (SourceLine.split path text)).failure := by
  rw [SourceLine.read_eq_map]
  exact Comment.failure_stripFrom_spaced false _

/--
**Spacing before stripping and spacing after it make the same tokens exactly when every line reads
alike.**  At every character outside comments the line starts a keyword with a slash for each comment
and with the comments left out, or in neither reading; and every equals sign is part of an operator in
both readings or in none, or has breaks on both sides once the comments are gone.
-/
theorem tokenize_read_iff {path text : String}
    (strips : (stripComments (SourceLine.read path text)).failure = none) :
    (stripComments (SourceLine.split path text)).failure = none ∧
      (tokenize (stripComments (SourceLine.read path text)).lines =
          tokenize ((stripComments (SourceLine.split path text)).lines.map SourceLine.spaced) ↔
        ∀ o ∈ Comment.outlines false (SourceLine.split path text), Comment.ReadsAlike o) := by
  rw [failure_stripComments_read] at strips
  refine ⟨strips, ?_⟩
  rw [SourceLine.read_eq_map]
  exact Comment.tokenize_stripFrom_iff false (SourceLine.pairwise_number_split path text) strips

/-- A declaration with a comment between its name and the equals sign. -/
def commentedName : String := "const int N/* count */=4;\nfloat x = 1.0;\n"

theorem commentedName_tokens_iff :
    (stripComments (SourceLine.read "main" commentedName)).failure = none ∧
      (tokenize (stripComments (SourceLine.read "main" commentedName)).lines =
          tokenize ((stripComments (SourceLine.split "main" commentedName)).lines.map
            SourceLine.spaced) ↔
        ∀ o ∈ Comment.outlines false (SourceLine.split "main" commentedName),
          Comment.ReadsAlike o) :=
  ⟨by decide +kernel, (tokenize_read_iff (by decide +kernel)).2⟩

/-- The comment glues the name, the equals sign and the value to one token. -/
theorem commentedName_tokens_ne :
    (stripComments (SourceLine.read "main" commentedName)).failure = none ∧
      tokenize (stripComments (SourceLine.read "main" commentedName)).lines ≠
        tokenize ((stripComments (SourceLine.split "main" commentedName)).lines.map
          SourceLine.spaced) := by
  decide +kernel

/-- A comment with blanks around it is no neighbour of the equals sign. -/
example : ∀ o ∈ Comment.outlines false (SourceLine.split "main" "int N /* count */ = 4;"),
    Comment.ReadsAlike o := by
  decide +kernel

end ShaderLink
