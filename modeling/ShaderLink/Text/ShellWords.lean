/-
Words in shell quoting.

Spaces, tabs and line feeds separate words.  A number sign where a word would
start opens a comment that runs to the line feed.  Outside quotes a backslash
takes the next character literally, between single quotes every character is
literal, and between double quotes a backslash escapes only a dollar sign, a
grave accent, a double quote and itself.  A backslash before a line feed removes
both, except between single quotes.  A quote left open and a final lone
backslash spoil the whole text.

The reader is an automaton: `Mode.step` says what one character does, and
`readFrom` collects the words that a text completes from a mode on.  In the
middle of a word the first word it returns is the remainder of that word.
-/
namespace ShaderLink

namespace ShellWords

/-- Where in a shell text a character stands. -/
inductive Mode where
  | gap
  | comment
  | bare
  /-- After a backslash outside quotes. -/
  | bareEscape
  | single
  | double
  /-- After a backslash between double quotes. -/
  | doubleEscape
  deriving DecidableEq

def Mode.inWord : Mode → Bool
  | .gap | .comment => false
  | _ => true

def separates (c : Char) : Bool := c == ' ' || c == '\t' || c == '\n'

/-- What a character that belongs to a word does outside quotes. -/
def bareStep (c : Char) : Mode × List Char :=
  if c = '"' then (.double, [])
  else if c = '\'' then (.single, [])
  else if c = '\\' then (.bareEscape, [])
  else (.bare, [c])

/-- The mode after a character, and the characters it adds to the word. -/
def Mode.step : Mode → Char → Mode × List Char
  | .gap, c =>
    if separates c then (.gap, []) else if c = '#' then (.comment, []) else bareStep c
  | .comment, c => (if c = '\n' then .gap else .comment, [])
  | .bare, c => if separates c then (.gap, []) else bareStep c
  | .bareEscape, c => (.bare, if c = '\n' then [] else [c])
  | .single, c => if c = '\'' then (.bare, []) else (.single, [c])
  | .double, c =>
    if c = '"' then (.bare, [])
    else if c = '\\' then (.doubleEscape, [])
    else (.double, [c])
  | .doubleEscape, c =>
    (.double,
      if c = '\n' then [] else if c ∈ ['$', '\x60', '"', '\\'] then [c] else ['\\', c])

/-- The words that an ended text leaves open, when it may end in the mode. -/
def Mode.atEnd? : Mode → Option (List (List Char))
  | .gap | .comment => some []
  | .bare => some [[]]
  | _ => none

/-- The words with characters put in front of the first. -/
def addToFirst (added : List Char) : List (List Char) → List (List Char)
  | [] => [added]
  | word :: rest => (added ++ word) :: rest

/-- The words that a text completes from a mode on. -/
def readFrom (mode : Mode) : List Char → Option (List (List Char))
  | [] => mode.atEnd?
  | c :: rest =>
    let (next, added) := mode.step c
    (readFrom next rest).map fun words =>
      if next.inWord then addToFirst added words
      else if mode.inWord then [] :: words
      else words

/-- The words of a shell text, or nothing when a quote or backslash is left open. -/
def read? (text : String) : Option (List String) :=
  (readFrom .gap text.toList).map (·.map String.ofList)

end ShellWords

end ShaderLink
