/-
Reading JSON text: blanks, words and strings.

A reader takes the characters that are left and returns what it read together
with the characters after it, or the first flaw it meets.  A flaw is one of
three: the text ends where more is needed, the text breaks the grammar, or a
well-formed value has the wrong shape for its place.  Which of several flaws is
reported is settled by reading strictly from left to right.
-/
namespace ShaderLink

namespace Json

/-- Why a JSON text is refused. -/
inductive Flaw where
  | truncated
  | malformed
  /-- A value does not have the shape that its place asks for. -/
  | misshapen
  deriving DecidableEq

def skipBlanks (text : List Char) : List Char :=
  text.dropWhile fun c => c == ' ' || c == '\n' || c == '\t' || c == '\r'

/-- The flaw of a text that does not go on as it should: an early end or a wrong character. -/
def wrongAt : List Char → Flaw
  | [] => .truncated
  | _ => .malformed

def expectChar (expected : Char) : List Char → Except Flaw (List Char)
  | [] => .error .truncated
  | c :: rest => if c = expected then .ok rest else .error .malformed

def expectWord : List Char → List Char → Except Flaw (List Char)
  | [], text => .ok text
  | c :: more, text => (expectChar c text).bind (expectWord more)

/-! ### Strings -/

def hexDigit? (c : Char) : Option Nat :=
  if c.isDigit then some (c.toNat - 48)
  else if 'a' ≤ c ∧ c ≤ 'f' then some (c.toNat - 87)
  else if 'A' ≤ c ∧ c ≤ 'F' then some (c.toNat - 55)
  else none

/-- The number that four hexadecimal digits spell.  They take four bytes; with fewer left the text
ends too early. -/
def hexUnit (text : List Char) : Except Flaw (Nat × List Char) :=
  if (String.ofList (text.take 4)).utf8ByteSize < 4 then .error .truncated
  else
    match (text.take 4).mapM hexDigit? with
    | some [a, b, c, d] => .ok (((a * 16 + b) * 16 + c) * 16 + d, text.drop 4)
    | _ => .error .malformed

/-- Whether a UTF-16 unit opens a pair. -/
def isLeading (unit : Nat) : Bool := 0xD800 ≤ unit && unit ≤ 0xDBFF

/-- Whether a UTF-16 unit closes a pair. -/
def isTrailing (unit : Nat) : Bool := 0xDC00 ≤ unit && unit ≤ 0xDFFF

/-- The character of an escape by number, the letter u already read.  A leading unit needs the
escape of a trailing one directly after it. -/
def numberedChar (text : List Char) : Except Flaw (Char × List Char) := do
  let (unit, rest) ← hexUnit text
  if isTrailing unit then .error .malformed
  else if isLeading unit then
    let (second, rest) ← hexUnit (← expectChar 'u' (← expectChar '\\' rest))
    if isTrailing second then
      .ok (Char.ofNat (0x10000 + (unit - 0xD800) * 0x400 + (second - 0xDC00)), rest)
    else .error .malformed
  else .ok (Char.ofNat unit, rest)

/-- The character of an escape, the backslash already read. -/
def escapedChar : List Char → Except Flaw (Char × List Char)
  | [] => .error .truncated
  | 'u' :: rest => numberedChar rest
  | c :: rest =>
    match c with
    | '"' | '\\' | '/' => .ok (c, rest)
    | 'b' => .ok ('\x08', rest)
    | 'f' => .ok ('\x0c', rest)
    | 'n' => .ok ('\n', rest)
    | 'r' => .ok ('\r', rest)
    | 't' => .ok ('\t', rest)
    | _ => .error .malformed

/-- The characters up to the closing quote; each step reads one of them, so the length of the text
bounds their number. -/
def stringFrom : Nat → List Char → Except Flaw (List Char × List Char)
  | 0, _ => .error .truncated
  | _ + 1, [] => .error .truncated
  | steps + 1, c :: rest =>
    if c = '"' then .ok ([], rest)
    else if c = '\\' then do
      let (decoded, rest) ← escapedChar rest
      let (more, rest) ← stringFrom steps rest
      .ok (decoded :: more, rest)
    else if c.toNat < 0x20 then .error .malformed
    else do
      let (more, rest) ← stringFrom steps rest
      .ok (c :: more, rest)

/-- The content of a string whose opening quote is already read. -/
def string (text : List Char) : Except Flaw (List Char × List Char) :=
  stringFrom (text.length + 1) text

end Json

end ShaderLink
