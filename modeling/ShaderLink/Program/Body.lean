/-
The body of a program.

The bodies of the files follow one another.  The tokens of one source line make
one output line, joined by single spaces, and the line keeps a record of where
they stood.  Literals are then shared over the whole body at once; as no
replacement adds or removes a line break, the records still fit their lines.
-/
import ShaderLink.Literal.Sharing
import ShaderLink.Unit.Basic

namespace ShaderLink

/-- Where an output line comes from; a line that stands in no file has no number. -/
structure LineRecord where
  file : String
  line : Option Nat
  deriving DecidableEq

def LineRecord.text (record : LineRecord) : String :=
  match record.line with
  | some line => record.file ++ ":" ++ toString line
  | none => record.file

/-- A line of output and where it comes from. -/
structure OutputLine where
  record : LineRecord
  text : String
  deriving DecidableEq

namespace OutputLine

/-- The line that a token begins. -/
def ofToken (token : Token) : OutputLine := ⟨⟨token.file, some token.line⟩, token.text⟩

def append (line : OutputLine) (token : Token) : OutputLine :=
  { line with text := line.text ++ " " ++ token.text }

end OutputLine

namespace Body

/-- The output lines of tokens that follow a line begun at a source line.  A token of a later source
line begins a new one. -/
def linesFrom (current : OutputLine) (sourceLine : Nat) : List Token → List OutputLine
  | [] => [current]
  | token :: rest =>
    if token.line ≤ sourceLine then linesFrom (current.append token) sourceLine rest
    else current :: linesFrom (.ofToken token) token.line rest

/-- The output lines of the body of one file. -/
def fileLines : List Token → List OutputLine
  | [] => []
  | token :: rest => linesFrom (.ofToken token) token.line rest

/-- The output lines of the bodies of files in order. -/
def assemble (files : List ShaderUnit) : List OutputLine :=
  files.flatMap fun file => fileLines file.body

/-- The body with its literals replaced by constants, and the constants then. -/
def share (constants : List Constant) (body : List OutputLine) :
    List Constant × List OutputLine :=
  if body = [] then (constants, [])
  else
    let code := Text.joinWith '\n' (body.map (·.text.toList))
    let (code, constants) := Literal.share constants code
    let texts := Text.fields (· == '\n') code
    (constants, body.zipWith (fun line text => { line with text := String.ofList text }) texts)

end Body

end ShaderLink
