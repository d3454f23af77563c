/-
Lines of a text.

Two kinds of text are cut into lines.  A shader file may end its lines with a
line feed, a carriage return, or both in that order; a produced text ends them
with a line feed, before which one carriage return is dropped, while a carriage
return anywhere else is an ordinary character.  In both, the end of the last
line need not be marked: a text ending in a line break has no empty line after
it, and the empty text has no line at all.
-/
import ShaderLink.Text.Fields

namespace ShaderLink

namespace Text

/-- The lines of a text; the flag says whether a lone carriage return ends a line. -/
def linesBy (loneReturn : Bool) : List Char → List (List Char)
  | [] => []
  | '\r' :: '\n' :: rest => [] :: linesBy loneReturn rest
  | c :: rest =>
    if c = '\n' ∨ (c = '\r' ∧ loneReturn = true) then [] :: linesBy loneReturn rest
    else consField c (linesBy loneReturn rest)

/-- The lines of a shader file, ended by a line feed, a carriage return, or the pair of both. -/
def fileLines : List Char → List (List Char) := linesBy true

/-- The lines of a produced text, ended by a line feed and the carriage return before it, if any. -/
def textLines : List Char → List (List Char) := linesBy false

end Text

end ShaderLink
