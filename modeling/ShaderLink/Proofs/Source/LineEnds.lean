/-
How the lines of files are ended makes no difference.

A file is read line by line: its text is spaced by spacing its lines, and everything
behind that works on numbered lines.  So texts with the same lines are read as the same
unit, or fail in the same way at the same line, and a build does not tell them apart.
A text whose lines end with line feeds has the same lines when each line feed is
replaced by a carriage return, or by the pair of both, as long as it held no carriage
return before.
-/
import Mathlib.Data.List.Forall2
import ShaderLink.Proofs.Link.Locality
import ShaderLink.Proofs.Source.Spacing

namespace ShaderLink

namespace Text

/-- What may end the lines of a file. -/
inductive LineEnd where
  | lineFeed
  | carriageReturn
  | both
  deriving DecidableEq

def LineEnd.mark : LineEnd → List Char
  | .lineFeed => ['\n']
  | .carriageReturn => ['\r']
  | .both => ['\r', '\n']

/-- A text with every line feed replaced. -/
def endedBy (lineEnd : LineEnd) (text : List Char) : List Char :=
  text.flatMap fun c => if c = '\n' then lineEnd.mark else [c]

private theorem endedBy_newline (lineEnd : LineEnd) (rest : List Char) :
    endedBy lineEnd ('\n' :: rest) = lineEnd.mark ++ endedBy lineEnd rest := rfl

private theorem endedBy_cons {c : Char} (hc : c ≠ '\n') (lineEnd : LineEnd) (rest : List Char) :
    endedBy lineEnd (c :: rest) = c :: endedBy lineEnd rest := by
  rw [endedBy, List.flatMap_cons, if_neg hc]
  rfl

/-- Where carriage returns alone end the lines, no line feed is left. -/
private theorem head?_endedBy_carriageReturn (text : List Char) :
    (endedBy .carriageReturn text).head? ≠ some '\n' := by
  cases text with
  | nil => simp [endedBy]
  | cons c rest =>
      by_cases hc : c = '\n'
      · rw [hc, endedBy_newline]
        simp [LineEnd.mark]
      · rw [endedBy_cons hc]
        simpa using hc

private theorem endsLine_mark (lineEnd : LineEnd) (text : List Char) :
    EndsLine lineEnd.mark (endedBy lineEnd text) := by
  cases lineEnd with
  | lineFeed => exact .inl rfl
  | carriageReturn => exact .inr (.inr ⟨rfl, head?_endedBy_carriageReturn text⟩)
  | both => exact .inr (.inl rfl)

/-- **A text without carriage returns keeps its lines, whatever its line feeds are replaced by.** -/
theorem fileLines_endedBy {text : List Char} (plain : '\r' ∉ text) (lineEnd : LineEnd) :
    fileLines (endedBy lineEnd text) = fileLines text := by
  induction text with
  | nil => rfl
  | cons c rest ih =>
      obtain ⟨hc, hrest⟩ := not_or.mp (mt List.mem_cons.mpr plain)
      by_cases hfeed : c = '\n'
      · have hmark : EndsLine ['\n'] rest := .inl rfl
        rw [hfeed, endedBy_newline, fileLines_of_endsLine (endsLine_mark lineEnd rest), ih hrest]
        exact (fileLines_of_endsLine hmark).symm
      · have hfree : isLineEnd c = false := by simp [isLineEnd, hfeed, Ne.symm hc]
        rw [endedBy_cons hfeed, fileLines_cons hfree, fileLines_cons hfree, ih hrest]

end Text

/-! ### Texts with the same lines -/

/-- The lines of a file's text, as nothing but line ends separates them. -/
def linesOf (text : String) : List (List Char) := Text.fileLines text.toList

theorem SourceLine.read_congr {text other : String} (h : linesOf other = linesOf text)
    (path : String) : read path other = read path text := by
  have hlines : Text.fileLines other.toList = Text.fileLines text.toList := h
  rw [read_eq_map, read_eq_map, split, split, hlines]

namespace ShaderUnit

variable {text other : String}

/-- Texts with the same lines give the same unit, or fail alike. -/
theorem ofText_congr (h : linesOf other = linesOf text) (settings : Settings) (path : String) :
    ofText settings path other = ofText settings path text := by
  unfold ofText tokensOfText
  rw [SourceLine.read_congr h]

theorem ofMainText_congr (h : linesOf other = linesOf text) (settings : Settings) (path : String) :
    ofMainText settings path other = ofMainText settings path text := by
  unfold ofMainText
  rw [ofText_congr h]

end ShaderUnit

/-! ### Builds of such texts -/

namespace Project

variable {p q : Project}

/-- Two projects that answer every path alike, line ends aside. -/
def SameLines (p q : Project) : Prop :=
  ∀ path, (q.text path).map linesOf = (p.text path).map linesOf

private theorem SameLines.bind_congr (same : p.SameLines q) (path : String)
    {read : String → Except BuildError ShaderUnit}
    (hread : ∀ text other, linesOf other = linesOf text → read other = read text) :
    (q.text path >>= read) = (p.text path >>= read) := by
  have hpath := same path
  cases hp : p.text path with
  | error error =>
      rw [hp] at hpath
      cases hq : q.text path with
      | error other =>
          rw [hq] at hpath
          rw [Except.error.inj hpath]
      | ok other =>
          rw [hq] at hpath
          exact absurd hpath (by simp [Except.map])
  | ok text =>
      rw [hp] at hpath
      obtain ⟨other, hother, hlines⟩ := exists_of_map_eq_ok hpath
      rw [hother]
      exact hread text other hlines

/-- **A build does not tell projects apart whose texts have the same lines.** -/
theorem build_of_sameLines (same : p.SameLines q) (settings : Settings) (entry : String) :
    q.build settings entry = p.build settings entry :=
  build_congr
    (same.bind_congr entry fun _ _ h => ShaderUnit.ofMainText_congr h settings entry)
    fun _ _ path _ => same.bind_congr path fun _ _ h => ShaderUnit.ofText_congr h settings path

end Project

namespace Registry

/-- A file whose line feeds are replaced, or left as they are. -/
def EndsReplaced (file other : String × String) : Prop :=
  ∃ lineEnd, other = (file.1, String.ofList (Text.endedBy lineEnd file.2.toList))

/-- The files of a registry with the lines of their texts. -/
def lined (files : List (String × String)) : List (String × List (List Char)) :=
  files.map fun file => (file.1, linesOf file.2)

private theorem lined_of_endsReplaced {files others : List (String × String)}
    (plain : ∀ file ∈ files, '\r' ∉ file.2.toList)
    (replaced : List.Forall₂ EndsReplaced files others) : lined others = lined files := by
  induction replaced with
  | nil => rfl
  | @cons file other files others hfile _ ih =>
      obtain ⟨hplain, hrest⟩ := List.forall_mem_cons.mp plain
      obtain ⟨lineEnd, rfl⟩ := hfile
      have hlines : linesOf (String.ofList (Text.endedBy lineEnd file.2.toList)) =
          linesOf file.2 := by
        rw [linesOf, String.toList_ofList, Text.fileLines_endedBy hplain]
        rfl
      have hothers := ih hrest
      rw [lined, lined] at hothers ⊢
      rw [List.map_cons, List.map_cons, hothers, hlines]

/-- What a registry answers is told, up to line ends, by the lines of its files. -/
private theorem map_linesOf_get? (files : List (String × String)) (path : String) :
    ((ofList files).get? path).map linesOf =
      ((lined files).reverse.find? fun file => Path.key file.1 == Path.key path).map (·.2) := by
  rw [get?, ofList, lined, ← List.map_reverse, List.find?_map, Option.map_map, Option.map_map]
  rfl

private theorem sameLines_of_lined {files others : List (String × String)}
    (h : lined others = lined files) (root : String) :
    (Project.mk (ofList files).toSource root).SameLines
      (Project.mk (ofList others).toSource root) := by
  intro path
  have hget := map_linesOf_get? others (Path.join root path)
  rw [h, ← map_linesOf_get?] at hget
  unfold Project.text toSource
  dsimp only
  cases hfile : (ofList files).get? (Path.join root path) with
  | none =>
      rw [hfile, Option.map_none, Option.map_eq_none_iff] at hget
      rw [hget]
  | some text =>
      rw [hfile, Option.map_some, Option.map_eq_some_iff] at hget
      obtain ⟨other, hother, hlines⟩ := hget
      rw [hother]
      exact congrArg Except.ok hlines

end Registry

/-- **Replacing the line feeds of files by carriage returns, or by the pairs of both, leaves the
outcome of every build as it was.** -/
theorem Project.build_of_endsReplaced {files others : List (String × String)}
    (plain : ∀ file ∈ files, '\r' ∉ file.2.toList)
    (replaced : List.Forall₂ Registry.EndsReplaced files others) (root : String)
    (settings : Settings) (entry : String) :
    (Project.mk (Registry.ofList others).toSource root).build settings entry =
      (Project.mk (Registry.ofList files).toSource root).build settings entry :=
  build_of_sameLines (Registry.sameLines_of_lined (Registry.lined_of_endsReplaced plain replaced)
    root) settings entry

/-- Two files, the second with a line left empty and no end behind its last one. -/
def Registry.lineFed : List (String × String) :=
  [("main", "#version 300\n#type VERTEX\nprecision highp float;\n#include on\n"),
    ("on", "y = 1\n\n;")]

/-- The same two with the lines of the one ended by pairs and those of the other by carriage
returns. -/
def Registry.returned : List (String × String) :=
  [("main", "#version 300\r\n#type VERTEX\r\nprecision highp float;\r\n#include on\r\n"),
    ("on", "y = 1\r\r;")]

theorem Project.build_of_returned :
    (∃ program, (Project.mk (Registry.ofList Registry.returned).toSource "").build .empty "main" =
        .ok program) ∧
      (Project.mk (Registry.ofList Registry.returned).toSource "").build .empty "main" =
        (Project.mk (Registry.ofList Registry.lineFed).toSource "").build .empty "main" := by
  refine ⟨exists_eq_ok_of_toBool (by decide +kernel), build_of_endsReplaced ?_ ?_ "" .empty "main"⟩
  · decide +kernel
  · exact .cons ⟨.both, by decide +kernel⟩ (.cons ⟨.carriageReturn, by decide +kernel⟩ .nil)

end ShaderLink
