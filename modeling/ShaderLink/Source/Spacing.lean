/-
Spacing a file's text so that its tokens are its words.

Two things are done to the text.  The words `const int` and `const float`, with
blanks or tabs between them, become one word each.  Then semicolons and
parentheses get a space on either side, and so does an equals sign that is no
part of a longer operator.  Neither touches a line break, so the lines stay what
they are.
-/
import ShaderLink.Constant.Basic
import ShaderLink.Source.Line
import ShaderLink.Text.WordChar

namespace ShaderLink

namespace Spacing

/-! ### Joining the words of a constant's keyword -/

/-- The characters that may stand between the words of a keyword. -/
def isGap (c : Char) : Bool := c == ' ' || c == '\t'

/-- Whether a text starts with a word that ends there. -/
def startsWithWord (word text : List Char) : Bool :=
  word.isPrefixOf text && Text.isWordEdge (text.drop word.length).head?

/-- The kind of constant that a text starts to declare, and how many characters the two words and
the gap between them take. -/
def constWords? (text : List Char) : Option (ConstKind × Nat) :=
  if "const".toList.isPrefixOf text then
    let gap := (text.drop 5).takeWhile isGap
    let rest := (text.drop 5).dropWhile isGap
    if gap.isEmpty then none
    else [ConstKind.int, .float].findSome? fun kind =>
      if startsWithWord kind.keyword.toList rest then
        some (kind, 5 + gap.length + kind.keyword.length)
      else none
  else none

/-- The single word for the keyword of a kind. -/
def joined (kind : ConstKind) : String := "const_" ++ kind.keyword

/-- The text with the words of each keyword joined.  `before` is the character to the left, and
`skip` counts the characters still to pass over because a keyword already stands for them. -/
def joinKeywords (before : Option Char) (skip : Nat) : List Char → List Char
  | [] => []
  | c :: rest =>
    match skip with
    | more + 1 => joinKeywords (some c) more rest
    | 0 =>
      match if Text.isWordEdge before then constWords? (c :: rest) else none with
      | some (kind, length) => (joined kind).toList ++ joinKeywords (some c) (length - 1) rest
      | none => c :: joinKeywords (some c) 0 rest

/-! ### Setting marks apart -/

/-- The characters that make a longer operator of an equals sign behind them. -/
def operatorChars : List Char := ['+', '-', '*', '/', '!', '<', '>', '=', '%', '&', '|', '^']

/-- Whether an equals sign between these neighbours is part of a longer operator. -/
def isCompound (before after : Option Char) : Bool :=
  before.any operatorChars.contains || after == some '='

/-- A character between its neighbours, with the spaces that it needs. -/
def spacedChar (before : Option Char) (c : Char) (after : Option Char) : List Char :=
  if c = ';' ∨ c = '(' ∨ c = ')' then [' ', c, ' ']
  else if c = '=' ∧ isCompound before after = false then [' ', c, ' ']
  else [c]

/-- The text with its marks set apart; `before` is the character to the left. -/
def setApart (before : Option Char) : List Char → List Char
  | [] => []
  | c :: rest => spacedChar before c rest.head? ++ setApart (some c) rest

end Spacing

/-- The text of a file spaced so that its words are its tokens. -/
def spaced (text : String) : String :=
  String.ofList (Spacing.setApart none (Spacing.joinKeywords none 0 text.toList))

/-- The numbered lines of a file's text, spaced. -/
def SourceLine.read (file text : String) : List SourceLine := SourceLine.split file (spaced text)

end ShaderLink
