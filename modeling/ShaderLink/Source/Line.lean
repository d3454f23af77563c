/-
Source lines and tokens.

A source line is a line of a file with its place; a token is a word of such a
line and keeps that place.  Passes over a file change the texts of lines and
never their places, so a token still tells where it stands when everything
around it has been taken away.
-/
import ShaderLink.Text.Blank
import ShaderLink.Text.Lines

namespace ShaderLink

/-- A line of a file; lines are numbered from one. -/
structure SourceLine where
  file : String
  number : Nat
  text : String
  deriving DecidableEq

/-- A word of a source line with the place of its line. -/
structure Token where
  file : String
  line : Nat
  text : String
  deriving DecidableEq

namespace SourceLine

/-- The numbered lines of a file's text. -/
def split (file text : String) : List SourceLine :=
  ((Text.fileLines text.toList).zipIdx 1).map fun (line, number) =>
    ⟨file, number, String.ofList line⟩

/-- The line without its text. -/
def blanked (line : SourceLine) : SourceLine := { line with text := "" }

/-- The tokens of a line. -/
def tokens (line : SourceLine) : List Token :=
  (Text.words line.text).map fun word => ⟨line.file, line.number, word⟩

end SourceLine

/-- The tokens of lines in order. -/
def tokenize (lines : List SourceLine) : List Token := lines.flatMap SourceLine.tokens

@[simp] theorem tokenize_append (a b : List SourceLine) :
    tokenize (a ++ b) = tokenize a ++ tokenize b := by
  simp [tokenize]

end ShaderLink
