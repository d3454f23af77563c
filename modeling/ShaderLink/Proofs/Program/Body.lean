/-
The body of a program with its literals shared.

Literals are looked for in the body as one text, and what comes out is cut at its
line breaks again.  As no name brings a line break with it, the lines fit: each has
the record that it had, and its text is that of the line alone with its literals
replaced by the constants of the end.

Where the constants of values have identifiers for names, that says all there is to
say: every literal in range has become the name of the one constant that holds its
value, two of them the same name exactly when they are the same number of the same
kind, and nothing else has changed.
-/
import ShaderLink.Proofs.Program.Lines
import ShaderLink.Proofs.Unit.Constants

namespace ShaderLink

namespace Body

open Literal (Named byConstants imageBy pieces value?)

/-- The text that literals are looked for in. -/
def code (body : List OutputLine) : List Char := Text.joinWith '\n' (body.map (·.text.toList))

/-- A line with its literals replaced by the names of constants. -/
def imageLine (constants : List Constant) (line : OutputLine) : OutputLine :=
  { line with text := String.ofList (imageBy constants line.text.toList) }

variable {constants : List Constant} {body : List OutputLine}

theorem share_fst (constants : List Constant) (body : List OutputLine) :
    (share constants body).1 = (Literal.share constants (code body)).2 := by
  unfold share
  split
  · rename_i hbody
    rw [hbody]
    rfl
  · rfl

/-- **Literals are shared line by line.** -/
theorem share_snd (texts : ∀ line ∈ body, Text.OneLine line.text)
    (names : ∀ c ∈ (share constants body).1, c.value.kind?.isSome = true → Text.OneLine c.name) :
    (share constants body).2 = body.map (imageLine (share constants body).1) := by
  rw [share_fst] at names ⊢
  unfold share
  split
  · rename_i hbody
    rw [hbody]
    rfl
  · rename_i hbody
    show body.zipWith _ (Text.fields (· == '\n') (Literal.share constants (code body)).1) = _
    rw [Literal.share_fst]
    generalize (Literal.share constants (code body)).2 = after at names ⊢
    have hfields : Text.fields (· == '\n') (imageBy after (code body)) =
        body.map fun line => imageBy after line.text.toList := by
      rw [code, Literal.imageBy_joinWith, List.map_map]
      refine Text.fields_joinWith (by simpa using hbody) ?_
      intro text htext
      obtain ⟨line, hline, rfl⟩ := List.mem_map.mp htext
      exact Literal.newline_notMem_imageBy names (texts line hline)
    rw [hfields, List.zipWith_map_right, List.zipWith_self]
    rfl

/-! ### Bodies of files -/

variable {files : List ShaderUnit} {table : ConstantTable}

theorem oneLine_assemble (read : ∀ file ∈ files, file.IsRead) :
    ∀ line ∈ assemble files, Text.OneLine line.text := by
  intro line hline
  obtain ⟨file, hfile, hline⟩ := List.mem_flatMap.mp hline
  have htokens := (read file hfile).fileTokens
  obtain ⟨numbers, -, hlines⟩ := exists_fileLines htokens
  rw [hlines] at hline
  obtain ⟨number, -, rfl⟩ := List.mem_map.mp hline
  exact oneLine_lineOf htokens number

theorem wellFormed_of_mergeAll (read : ∀ file ∈ files, file.IsRead)
    (merged : ConstantTable.mergeAll (files.map (·.constants)) = .ok table) :
    ∀ c ∈ table.entries, c.WellFormed := by
  intro c hc
  rw [ConstantTable.entries_of_mergeAll merged] at hc
  obtain ⟨constants, hconstants, hmem⟩ := List.mem_flatMap.mp hc
  obtain ⟨file, hfile, rfl⟩ := List.mem_map.mp hconstants
  exact (read file hfile).wellFormed c hmem

theorem share_assemble (read : ∀ file ∈ files, file.IsRead)
    (merged : ConstantTable.mergeAll (files.map (·.constants)) = .ok table) :
    Literal.Grows table.entries (share table.entries (assemble files)).1 ∧
      (share table.entries (assemble files)).2 =
        (assemble files).map (imageLine (share table.entries (assemble files)).1) := by
  have hgrows : Literal.Grows table.entries (share table.entries (assemble files)).1 := by
    rw [share_fst]
    exact Literal.grows_share _ _
  refine ⟨hgrows, share_snd (oneLine_assemble read) ?_⟩
  intro c hc _
  exact (hgrows.wellFormed (wellFormed_of_mergeAll read merged) c hc).name

/-! ### Names for numbers -/

/-- A body, and what it is when its literals are shared. -/
structure Shared (body : List OutputLine) (constants : List Constant) (result : List OutputLine) :
    Prop where
  /-- No two constants have one name. -/
  distinct : (constants.map (·.name)).Nodup
  /-- Every line keeps its record, and its text is replaced by itself. -/
  lines : result = body.map fun line =>
    { line with text := String.ofList (Literal.replace (byConstants constants) line.text.toList) }
  /-- So the body as one text is: each literal is the name it is given or stays, and everything
  else stays. -/
  replaced : code result = Literal.replace (byConstants constants) (code body)
  /-- A literal out of range stays. -/
  kept : ∀ kind text, value? kind text = none → byConstants constants kind text = none
  /-- Every other is given the name of exactly one constant, which has its kind and its value. -/
  held : ∀ kind text value, .literal kind text ∈ pieces none 0 (code body) →
    value? kind text = some value →
      ∃ c ∈ constants, byConstants constants kind text = some c.name.toList ∧
        c.kind = kind ∧ c.value = value ∧ ∀ d ∈ constants, d.name = c.name → d = c
  /-- Two of them are given one name exactly when they have one kind and one value. -/
  alike : ∀ kind text value kind' text' value', .literal kind text ∈ pieces none 0 (code body) →
    .literal kind' text' ∈ pieces none 0 (code body) → value? kind text = some value →
      value? kind' text' = some value' →
        (byConstants constants kind text = byConstants constants kind' text' ↔
          kind = kind' ∧ value = value')

private theorem Shared.of_imageLine {result : List OutputLine}
    (lines : result = body.map (imageLine constants)) (wellFormed : ∀ c ∈ constants, c.WellFormed)
    (distinct : (constants.map (·.name)).Nodup) (named : Named constants)
    (held : ∀ kind text value, .literal kind text ∈ pieces none 0 (code body) →
      value? kind text = some value → ∃ name, Literal.nameOf? constants value = some name) :
    Shared body constants result := by
  have hunique : ∀ kind text value, .literal kind text ∈ pieces none 0 (code body) →
      value? kind text = some value →
        ∃ c ∈ constants, byConstants constants kind text = some c.name.toList ∧
          c.kind = kind ∧ c.value = value ∧ ∀ d ∈ constants, d.name = c.name → d = c := by
    intro kind text value hmem ranged
    obtain ⟨name, hname⟩ := held kind text value hmem ranged
    obtain ⟨c, hc, rfl, rfl⟩ := Literal.exists_of_nameOf? hname
    refine ⟨c, hc, Literal.byConstants_of_nameOf? ranged hname, ?_, rfl, ?_⟩
    · exact (wellFormed c hc).fits kind (Literal.kind?_of_value? ranged)
    · intro d hd heq
      exact List.inj_on_of_nodup_map distinct hd hc heq
  refine ⟨distinct, ?_, ?_, ?_, hunique, ?_⟩
  · rw [lines]
    refine List.map_congr_left ?_
    intro line _
    rw [imageLine, named.imageBy]
  · rw [lines, code, List.map_map, code, ← named.imageBy, Literal.imageBy_joinWith, List.map_map]
    refine congrArg _ (List.map_congr_left ?_)
    intro line _
    exact String.toList_ofList
  · intro kind text hnone
    rw [byConstants, hnone]
    rfl
  · intro kind text value kind' text' value' hmem hmem' ranged ranged'
    constructor
    · intro heq
      obtain ⟨c, hc, hname, hkind, hvalue, -⟩ := hunique kind text value hmem ranged
      obtain ⟨d, hd, hname', hkind', hvalue', honly⟩ := hunique kind' text' value' hmem' ranged'
      rw [hname, hname', Option.some.injEq, String.toList_inj] at heq
      rw [honly c hc heq] at hkind hvalue
      exact ⟨hkind.symm.trans hkind', hvalue.symm.trans hvalue'⟩
    · intro hsame
      obtain ⟨rfl, rfl⟩ := hsame
      rw [byConstants, ranged, byConstants, ranged']

/-- **In the bodies of files whose constants of values have identifiers for names, sharing changes
literals only, and each in range becomes the name of the one constant that is its number.** -/
theorem shared_of_mergeAll (read : ∀ file ∈ files, file.IsRead)
    (merged : ConstantTable.mergeAll (files.map (·.constants)) = .ok table)
    (named : Named table.entries) :
    Shared (assemble files) (share table.entries (assemble files)).1
      (share table.entries (assemble files)).2 := by
  obtain ⟨hgrows, hlines⟩ := share_assemble read merged
  refine .of_imageLine hlines (hgrows.wellFormed (wellFormed_of_mergeAll read merged))
    (hgrows.distinct table.distinct) (hgrows.named named) ?_
  intro kind text value hmem ranged
  rw [share_fst]
  exact Literal.nameOf?_share named hmem ranged

/-- A file with a constant, an integer that is its value and a number that is the value of none. -/
def sample : ShaderUnit where
  path := "a"
  version := none
  stage := none
  precision := none
  includes := []
  constants := ⟨[⟨"N", .int, .int 2, "a", some 1⟩], by simp⟩
  body := [⟨"a", 2, "x"⟩, ⟨"a", 2, "="⟩, ⟨"a", 2, "2"⟩, ⟨"a", 2, ";"⟩, ⟨"a", 3, "y"⟩,
    ⟨"a", 3, "="⟩, ⟨"a", 3, ".5"⟩, ⟨"a", 3, ";"⟩]

theorem isRead_sample : sample.IsRead :=
  ⟨.empty, "a", "const int N=2;\nx=2;\ny=.5;\n", by decide +kernel⟩

/-- The integer becomes the name of the constant, and the number that of an added one. -/
theorem shared_sample :
    (share sample.constants.entries (assemble [sample])).2.map (·.text) =
        ["x = N ;", "y = F_0_5 ;"] ∧
      Shared (assemble [sample]) (share sample.constants.entries (assemble [sample])).1
        (share sample.constants.entries (assemble [sample])).2 := by
  refine ⟨by decide +kernel, shared_of_mergeAll ?_ ?_ ?_⟩
  · intro file hfile
    rw [List.mem_singleton.mp hfile]
    exact isRead_sample
  · decide +kernel
  · decide +kernel

end Body

end ShaderLink
