/-
Paths.

A path is a text whose steps are separated by slashes; one that begins with a
slash is absolute.  Joining keeps the texts as they are written, because messages
show them.  Two spellings are the same place when their keys agree, for which
repeated and trailing slashes do not count, nor does a step of one dot, unless a
relative path begins with it; a step of two dots always counts.
-/
import ShaderLink.Text.Fields

namespace ShaderLink

namespace Path

def isAbsolute (path : String) : Bool := path.toList.head? == some '/'

/-- The steps of a path as they are written. -/
def steps (path : String) : List String :=
  (Text.fields (· == '/') path.toList).map String.ofList

/-- Whether a path holds a zero character, which no name of a file can. -/
def hasZero (path : String) : Bool := path.toList.contains '\x00'

/-- A path below a root. -/
def join (root path : String) : String :=
  if isAbsolute path then path
  else if root = "" ∨ root.toList.getLast? = some '/' then root ++ path
  else root ++ "/" ++ path

/-- What identifies a place: whether the path is absolute, and the steps that count. -/
structure Key where
  absolute : Bool
  steps : List String
  deriving DecidableEq

def key (path : String) : Key :=
  let written := steps path
  let startsWithDot := written.head? == some "."
  let counted := written.filter fun step => step != "" && step != "."
  ⟨isAbsolute path, if startsWithDot then "." :: counted else counted⟩

end Path

end ShaderLink
