/-
Writing JSON.

A document is written over several lines, each level of nesting set in by two
spaces, with a colon and a space behind a name; a list or a record without
content stays on its line.  A string escapes the double quote, the backslash and
the control characters below U+0020, those with a letter of their own by it.
-/
namespace ShaderLink

namespace Json

/-- A document to be written. -/
inductive Document where
  | null
  | count (n : Nat)
  | text (s : String)
  | list (items : List Document)
  | record (entries : List (String × Document))

namespace Document

def hexChar (n : Nat) : Char := if n < 10 then Char.ofNat (48 + n) else Char.ofNat (87 + n)

/-- A character as a string holds it. -/
def escapeChar (c : Char) : List Char :=
  if c = '"' then ['\\', '"']
  else if c = '\\' then ['\\', '\\']
  else if c = '\x08' then ['\\', 'b']
  else if c = '\t' then ['\\', 't']
  else if c = '\n' then ['\\', 'n']
  else if c = '\x0c' then ['\\', 'f']
  else if c = '\r' then ['\\', 'r']
  else if c.toNat < 0x20 then
    ['\\', 'u', '0', '0', hexChar (c.toNat / 16), hexChar (c.toNat % 16)]
  else [c]

/-- A text between quotes, escaped. -/
def quote (s : String) : String :=
  String.ofList ('"' :: s.toList.flatMap escapeChar ++ ['"'])

def newLine (level : Nat) : String := "\n".pushn ' ' (2 * level)

mutual

/-- A document at a level of nesting. -/
def write (level : Nat) : Document → String
  | .null => "null"
  | .count n => toString n
  | .text s => quote s
  | .list [] => "[]"
  | .list (item :: more) =>
    "[" ++ newLine (level + 1) ++ write (level + 1) item ++ writeItems level more ++
      newLine level ++ "]"
  | .record [] => "\x7b\x7d"
  | .record ((name, value) :: more) =>
    "\x7b" ++ newLine (level + 1) ++ quote name ++ ": " ++ write (level + 1) value ++
      writeEntries level more ++ newLine level ++ "\x7d"

def writeItems (level : Nat) : List Document → String
  | [] => ""
  | item :: more =>
    "," ++ newLine (level + 1) ++ write (level + 1) item ++ writeItems level more

def writeEntries (level : Nat) : List (String × Document) → String
  | [] => ""
  | (name, value) :: more =>
    "," ++ newLine (level + 1) ++ quote name ++ ": " ++ write (level + 1) value ++
      writeEntries level more

end

end Document

end Json

end ShaderLink
