/-
The lines of a body and the runs of its tokens.

A body can be put together in one list: each token goes to the end of the last line, or
begins another when it stands further down in its file than the line that was begun last.
What keeps files apart is that nothing has been begun for a file at its first token, and
no token stands above line one.  So `gather`, which works this way, and `assemble`, which
takes each file by itself, make the same lines.

These lines are the maximal runs of tokens of one file on one of its lines, in their
order; and as the text of a line is words joined by spaces, no token is lost.
-/
import Mathlib.Data.List.Forall2
import Mathlib.Data.List.SplitBy
import ShaderLink.Proofs.Program.Body
import ShaderLink.Proofs.Source.Declarations

namespace ShaderLink

namespace ShaderUnit

variable {settings : Settings} {path text : String} {file : ShaderUnit}

/-- The tokens of a body are words on lines from the first on. -/
private theorem IsRead.words (h : file.IsRead) :
    ∀ token ∈ file.body, 1 ≤ token.line ∧ Text.isWord token.text = true := by
  obtain ⟨settings, path, text, hread⟩ := h
  obtain ⟨tokens, htokens, hsub⟩ := body_sublist hread
  obtain ⟨-, hlines⟩ := tokenize_of_tokensOfText htokens
  intro token htoken
  have hmem := hlines token (hsub.subset htoken)
  have hplaces := Comment.places_stripFrom false (SourceLine.read path text)
  refine ⟨(SourceLine.number_bounds_of_places hplaces hmem).1, ?_⟩
  obtain ⟨line, -, hline⟩ := List.mem_flatMap.mp hmem
  obtain ⟨word, hword, rfl⟩ := List.mem_map.mp hline
  exact Text.isWord_of_mem_words hword

end ShaderUnit

namespace Body

/-! ### One list for all files -/

/-- The lines so far, and the line of the file at which the last of them was begun. -/
structure Gathering where
  lines : List OutputLine
  sourceLine : Nat

/-- The lines with one token more. -/
def Gathering.add (g : Gathering) (token : Token) : Gathering :=
  match g.lines.getLast? with
  | some current =>
    if token.line ≤ g.sourceLine then
      { g with lines := g.lines.dropLast ++ [current.append token] }
    else ⟨g.lines ++ [.ofToken token], token.line⟩
  | none => ⟨g.lines ++ [.ofToken token], token.line⟩

/-- The lines with those of a file, of which none has been begun. -/
def gatherFile (lines : List OutputLine) (file : ShaderUnit) : List OutputLine :=
  (file.body.foldl Gathering.add ⟨lines, 0⟩).lines

/-- The output lines of the bodies of files in order, put together in one list. -/
def gather (files : List ShaderUnit) : List OutputLine := files.foldl gatherFile []

private theorem Gathering.add_of_le {lines : List OutputLine} {current : OutputLine} {number : Nat}
    {token : Token} (h : token.line ≤ number) :
    add ⟨lines ++ [current], number⟩ token = ⟨lines ++ [current.append token], number⟩ := by
  rw [add]
  simp [h]

private theorem Gathering.add_of_lt (lines : List OutputLine) {number : Nat} {token : Token}
    (h : number < token.line) :
    add ⟨lines, number⟩ token = ⟨lines ++ [.ofToken token], token.line⟩ := by
  have hnot : ¬ token.line ≤ number := by omega
  unfold add
  split
  · rw [if_neg hnot]
  · rfl

/-- Lines in front of the one that was begun last are left alone. -/
private theorem lines_foldl_add (lines : List OutputLine) (current : OutputLine) (number : Nat)
    (tokens : List Token) :
    (tokens.foldl Gathering.add ⟨lines ++ [current], number⟩).lines =
      lines ++ linesFrom current number tokens := by
  induction tokens generalizing lines current number with
  | nil => rfl
  | cons token rest ih =>
      rw [List.foldl_cons, linesFrom]
      by_cases hle : token.line ≤ number
      · rw [Gathering.add_of_le hle, if_pos hle, ih]
      · rw [Gathering.add_of_lt _ (by omega), if_neg hle, ih, List.append_assoc]
        rfl

private theorem gatherFile_eq {file : ShaderUnit} (positive : ∀ token ∈ file.body, 1 ≤ token.line)
    (lines : List OutputLine) : gatherFile lines file = lines ++ fileLines file.body := by
  unfold gatherFile
  cases hbody : file.body with
  | nil => exact (List.append_nil lines).symm
  | cons token rest =>
      rw [hbody] at positive
      have hfirst : 0 < token.line := positive token (List.mem_cons_self ..)
      rw [List.foldl_cons, Gathering.add_of_lt lines hfirst, lines_foldl_add]
      rfl

/-- **One list for all files has the lines that each file makes by itself.** -/
theorem gather_eq_assemble {files : List ShaderUnit}
    (positive : ∀ file ∈ files, ∀ token ∈ file.body, 1 ≤ token.line) :
    gather files = assemble files := by
  suffices h : ∀ lines, files.foldl gatherFile lines = lines ++ assemble files from h []
  induction files with
  | nil => exact fun lines => (List.append_nil lines).symm
  | cons file rest ih =>
      intro lines
      have hfile := positive file (List.mem_cons_self ..)
      rw [List.foldl_cons, gatherFile_eq hfile,
        ih fun other hother => positive other (List.mem_cons_of_mem _ hother), List.append_assoc]
      rfl

/-! ### Runs -/

/-- The maximal runs of tokens side by side with one line number. -/
def lineRuns (tokens : List Token) : List (List Token) :=
  tokens.splitBy fun a b => a.line == b.line

/-- An output line has the record that every token of a run begins a line with, and their texts
joined by single spaces. -/
structure Shows (run : List Token) (line : OutputLine) : Prop where
  record : ∀ token ∈ run, line.record = ⟨token.file, some token.line⟩
  text : line.text = spacedText run

variable {path : String} {tokens seen : List Token} {number : Nat}

private theorem lineRuns_of_line (hseen : seen ≠ []) (hline : ∀ token ∈ seen, token.line = number) :
    lineRuns seen = [seen] := by
  refine List.splitBy_of_isChain hseen (List.Pairwise.isChain ?_)
  rw [List.pairwise_iff_forall_sublist]
  intro a b hab
  have ha := hline a (hab.subset (by simp))
  have hb := hline b (hab.subset (by simp))
  simp [ha, hb]

private theorem lineRuns_append (hseen : seen ≠ []) (hline : ∀ token ∈ seen, token.line = number)
    {token : Token} (hlater : number < token.line) (rest : List Token) :
    lineRuns (seen ++ token :: rest) = seen :: lineRuns (token :: rest) := by
  rw [lineRuns, List.splitBy_append_cons]
  · show lineRuns seen ++ _ = _
    rw [lineRuns_of_line hseen hline]
    rfl
  · intro last hlast
    have hlastLine := hline last (List.mem_of_getLast? hlast)
    rw [beq_eq_false_iff_ne]
    omega

private theorem forall₂_linesFrom (hseen : seen ≠ []) (hline : ∀ token ∈ seen, token.line = number)
    (hfile : ∀ token ∈ seen, token.file = path) (hlater : ∀ token ∈ tokens, number ≤ token.line)
    (h : FileTokens path tokens) :
    List.Forall₂ Shows (lineRuns (seen ++ tokens))
      (linesFrom ⟨⟨path, some number⟩, spacedText seen⟩ number tokens) := by
  have hshows : Shows seen ⟨⟨path, some number⟩, spacedText seen⟩ := by
    refine ⟨fun token htoken => ?_, rfl⟩
    rw [hfile token htoken, hline token htoken]
  induction tokens generalizing seen number with
  | nil =>
      rw [List.append_nil, lineRuns_of_line hseen hline, linesFrom]
      exact .cons hshows .nil
  | cons token rest ih =>
      have hrest := h.sublist (List.sublist_cons_self token rest)
      have hnext : ∀ other ∈ rest, token.line ≤ other.line := (List.pairwise_cons.mp h.ordered).1
      have htoken := h.file token (List.mem_cons_self ..)
      rw [linesFrom]
      by_cases hle : token.line ≤ number
      · -- The token goes on with the run.
        have heq : token.line = number := Nat.le_antisymm hle (hlater token (by simp))
        have hline' : ∀ other ∈ seen ++ [token], other.line = number :=
          List.forall_mem_append.mpr ⟨hline, by simpa using heq⟩
        have hfile' : ∀ other ∈ seen ++ [token], other.file = path :=
          List.forall_mem_append.mpr ⟨hfile, by simpa using htoken⟩
        have hsplit : seen ++ token :: rest = seen ++ [token] ++ rest := by simp
        rw [if_pos hle, append_spacedText hseen, hsplit]
        refine ih (by simp) hline' hfile' (fun other hother => heq ▸ hnext other hother) hrest ?_
        refine ⟨fun other hother => ?_, rfl⟩
        rw [hfile' other hother, hline' other hother]
      · -- It ends the run and begins another.
        rw [if_neg hle, ofToken_eq htoken, lineRuns_append hseen hline (by omega)]
        refine .cons hshows (ih (List.cons_ne_nil token []) (by simp) (by simpa using htoken) hnext
          hrest ?_)
        refine ⟨fun other hother => ?_, rfl⟩
        rw [List.mem_singleton.mp hother, htoken]

/-- The lines of a file are the runs of its tokens. -/
private theorem forall₂_fileLines (h : FileTokens path tokens) :
    List.Forall₂ Shows (lineRuns tokens) (fileLines tokens) := by
  cases tokens with
  | nil => exact .nil
  | cons token rest =>
      have hnext : ∀ other ∈ rest, token.line ≤ other.line := (List.pairwise_cons.mp h.ordered).1
      have hfile := h.file token (List.mem_cons_self ..)
      rw [fileLines, ofToken_eq hfile]
      exact forall₂_linesFrom (List.cons_ne_nil token []) (by simp) (by simpa using hfile) hnext
        (h.sublist (List.sublist_cons_self token rest))

/-! ### Words of lines -/

private theorem words_spacedText (words : ∀ token ∈ tokens, Text.isWord token.text = true) :
    Text.words (spacedText tokens) = tokens.map (·.text) := by
  induction tokens with
  | nil => rfl
  | cons token rest ih =>
      have htoken := words token (List.mem_cons_self ..)
      have hrest := ih fun other hother => words other (List.mem_cons_of_mem _ hother)
      by_cases hnil : rest = []
      · rw [hnil]
        simpa [spacedText] using Text.words_of_isWord htoken
      · have hmap : rest.map (·.text) ≠ [] := by simpa using hnil
        rw [spacedText, List.map_cons, String.intercalate_cons_of_ne_nil hmap,
          Text.words_append_blank htoken]
        exact congrArg _ hrest

/-- The words of lines are the tokens of their runs. -/
private theorem flatMap_words {runs : List (List Token)} {lines : List OutputLine}
    (h : List.Forall₂ Shows runs lines)
    (words : ∀ run ∈ runs, ∀ token ∈ run, Text.isWord token.text = true) :
    lines.flatMap (Text.words ·.text) = runs.flatten.map (·.text) := by
  induction h with
  | nil => rfl
  | @cons run line runs lines hshows _ ih =>
      obtain ⟨hrun, hruns⟩ := List.forall_mem_cons.mp words
      rw [List.flatMap_cons, ih hruns, hshows.text, words_spacedText hrun, List.flatten_cons,
        List.map_append]

/-! ### Bodies of files -/

variable {files : List ShaderUnit}

/-- The runs of all files, each file's by themselves. -/
def runs (files : List ShaderUnit) : List (List Token) :=
  files.flatMap fun file => lineRuns file.body

private theorem flatten_runs (files : List ShaderUnit) :
    (runs files).flatten = files.flatMap (·.body) := by
  induction files with
  | nil => rfl
  | cons file rest ih =>
      show (lineRuns file.body ++ runs rest).flatten = file.body ++ rest.flatMap (·.body)
      rw [List.flatten_append, ih, lineRuns, List.flatten_splitBy]

private theorem forall₂_assemble (read : ∀ file ∈ files, file.IsRead) :
    List.Forall₂ Shows (runs files) (assemble files) := by
  induction files with
  | nil => exact .nil
  | cons file rest ih =>
      obtain ⟨hfile, hrest⟩ := List.forall_mem_cons.mp read
      exact List.rel_append (forall₂_fileLines hfile.fileTokens) (ih hrest)

/--
**The lines of a body are the runs of its tokens.**  They come one for one in the order of the runs,
each with its place and its tokens between single spaces; the lines of some files and of those behind
them are those of both together; and the words of all lines are the tokens of all files.
-/
theorem assembled_by_runs (read : ∀ file ∈ files, file.IsRead) :
    gather files = assemble files ∧
      List.Forall₂ Shows (runs files) (assemble files) ∧
      (∀ front behind, files = front ++ behind →
        gather files = gather front ++ gather behind) ∧
      (assemble files).flatMap (Text.words ·.text) =
        (files.flatMap (·.body)).map (·.text) := by
  have hpositive : ∀ file ∈ files, ∀ token ∈ file.body, 1 ≤ token.line :=
    fun file hfile token htoken => ((read file hfile).words token htoken).1
  have hruns := forall₂_assemble read
  refine ⟨gather_eq_assemble hpositive, hruns, ?_, ?_⟩
  · intro front behind hfiles
    rw [hfiles] at hpositive ⊢
    obtain ⟨hfront, hbehind⟩ := List.forall_mem_append.mp hpositive
    rw [gather_eq_assemble hpositive, gather_eq_assemble hfront, gather_eq_assemble hbehind]
    exact List.flatMap_append
  · rw [flatMap_words hruns, flatten_runs]
    intro run hrun token htoken
    obtain ⟨file, hfile, hmem⟩ := List.mem_flatMap.mp hrun
    have hbody : token ∈ (lineRuns file.body).flatten := List.mem_flatten.mpr ⟨run, hmem, htoken⟩
    rw [lineRuns, List.flatten_splitBy] at hbody
    exact ((read file hfile).words token hbody).2

/-- A file without a body. -/
def bare : ShaderUnit where
  path := "b"
  version := some ⟨"330 core", 1⟩
  stage := none
  precision := none
  includes := []
  constants := .empty
  body := []

/-- A file with less in front of its body than the one before it has. -/
def shallow : ShaderUnit where
  path := "c"
  version := none
  stage := none
  precision := none
  includes := []
  constants := .empty
  body := [⟨"c", 1, "z"⟩, ⟨"c", 1, ";"⟩]

theorem isRead_three : ∀ file ∈ [sample, bare, shallow], file.IsRead := by
  have hbare : bare.IsRead := ⟨.empty, "b", "#version 330 core\n", by decide +kernel⟩
  have hshallow : shallow.IsRead := ⟨.empty, "c", "z;\n", by decide +kernel⟩
  intro file hfile
  rcases List.mem_cons.mp hfile with rfl | hfile
  · exact isRead_sample
  · rcases List.mem_cons.mp hfile with rfl | hfile
    · exact hbare
    · rw [List.mem_singleton.mp hfile]
      exact hshallow

theorem three_assembled_by_runs :
    (assemble [sample, bare, shallow]).map (fun line => (line.record.text, line.text)) =
        [("a:2", "x = 2 ;"), ("a:3", "y = .5 ;"), ("c:1", "z ;")] ∧
      gather [sample, bare, shallow] = assemble [sample, bare, shallow] ∧
      List.Forall₂ Shows (runs [sample, bare, shallow]) (assemble [sample, bare, shallow]) ∧
      (∀ front behind, [sample, bare, shallow] = front ++ behind →
        gather [sample, bare, shallow] = gather front ++ gather behind) ∧
      (assemble [sample, bare, shallow]).flatMap (Text.words ·.text) =
        ([sample, bare, shallow].flatMap (·.body)).map (·.text) :=
  ⟨by decide +kernel, assembled_by_runs isRead_three⟩

end Body

end ShaderLink
