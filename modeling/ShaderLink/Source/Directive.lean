/-
Lines that direct conditional compilation.

A line is such a directive when its words are those of one of four forms; blanks
around and between the words do not matter, and any other line is code.
-/
import ShaderLink.Text.Blank

namespace ShaderLink

/-- A directive of conditional compilation. -/
inductive Directive where
  /-- Gives a name a boolean, unless it has one. -/
  | declare (name : String) (value : Bool)
  /-- Opens a block that is on when the name, or its negation, holds. -/
  | test (name : String) (negated : Bool)
  /-- Turns the innermost block off or on. -/
  | otherwise
  /-- Ends the innermost block. -/
  | close
  deriving DecidableEq

namespace Directive

/-- The test that a word spells: an exclamation mark before a name negates it, and alone it is a
name. -/
def ofCondition (word : String) : Directive :=
  match word.toList with
  | '!' :: c :: rest => .test (String.ofList (c :: rest)) true
  | _ => .test word false

/-- The directive that words spell. -/
def ofWords? : List String → Option Directive
  | ["#const", name, "true"] => some (.declare name true)
  | ["#const", name, "false"] => some (.declare name false)
  | ["#if", condition] => some (ofCondition condition)
  | ["#else"] => some .otherwise
  | ["#endif"] => some .close
  | _ => none

/-- The directive that a line is. -/
def read? (text : String) : Option Directive := ofWords? (Text.words text)

end Directive

end ShaderLink
