/-
Programs.

A program is the source text for the compiler together with a table that has one
record for each of its lines.  The listing shows every line with its number and
its record, and a compiler's failure is reported with the listing behind it.
-/
import ShaderLink.Program.Header

namespace ShaderLink

/-- A source text with the origins of its lines. -/
structure Program where
  /-- The path of the main file. -/
  path : String
  stage : Stage
  source : String
  lineTable : List LineRecord
  deriving DecidableEq

namespace Program

/-- All lines of the output: the head, the constants and the body. -/
def outputLines (header : Header) (constants : List Constant) (body : List OutputLine) :
    List OutputLine :=
  header.lines ++ constants.map OutputLine.ofConstant ++ body

/-- The text of lines, each ended by a line feed. -/
def textOfLines (lines : List OutputLine) : String :=
  String.join (lines.map (·.text ++ "\n"))

/-- The program of a head, constants and a body. -/
def ofParts (header : Header) (constants : List Constant) (body : List OutputLine) : Program :=
  let lines := outputLines header constants body
  ⟨header.path, header.stage, textOfLines lines, lines.map (·.record)⟩

/-- The record of a line, lines being numbered from one. -/
def lineInfo? (program : Program) (line : Nat) : Option LineRecord :=
  if line = 0 then none else program.lineTable[line - 1]?

def padRight (width : Nat) (text : List Char) : List Char :=
  text ++ List.replicate (width - text.length) ' '

def padLeft (width : Nat) (text : List Char) : List Char :=
  List.replicate (width - text.length) ' ' ++ text

/-- A line of the listing: the number, the text and the record, each in its column. -/
def listingLine (number : Nat) (text : List Char) (record : LineRecord) : List Char :=
  padLeft 6 (toString number ++ ": ").toList ++ padRight 80 text ++
    padRight 20 ("// (" ++ record.text ++ ")").toList ++ ['\n']

def listing (program : Program) : String :=
  let lines := (Text.textLines program.source.toList).zip program.lineTable
  String.ofList ((lines.zipIdx 1).flatMap fun ((text, record), number) =>
    listingLine number text record)

/-- What a compiler makes of a program, or its report with the listing. -/
def compile {Handle : Type} (compiler : Stage → String → Except String Handle)
    (program : Program) : Except BuildError Handle :=
  match compiler program.stage program.source with
  | .ok handle => .ok handle
  | .error report => .error (.compile program.path report program.listing)

end Program

end ShaderLink
