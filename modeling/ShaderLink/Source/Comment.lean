/-
Removing comments.

A line comment runs to the end of its line.  A block comment runs to the next
end mark, over line breaks if need be, and to the end of the file when there is
none.  Inside one kind of comment the marks of the other mean nothing, and an
end mark outside a comment is an error.

Lines are read one by one, and all that passes from one to the next is whether a
block comment is open.
-/
import ShaderLink.Source.Pass

namespace ShaderLink

namespace Comment

/-- The characters of a line that stand outside comments, and whether a block comment is open behind
it; nothing when a comment ends that was never begun.  The flag says whether one is open at the
start. -/
def strip : Bool → List Char → Option (List Char × Bool)
  | true, '*' :: '/' :: rest => strip false rest
  | true, _ :: rest => strip true rest
  | true, [] => some ([], true)
  | false, '/' :: '/' :: _ => some ([], false)
  | false, '/' :: '*' :: rest => strip true rest
  | false, '*' :: '/' :: _ => none
  | false, c :: rest => (strip false rest).map fun (kept, inside) => (c :: kept, inside)
  | false, [] => some ([], false)

/-- One line without its comments, and whether a block comment is open behind it. -/
def stripLine (inside : Bool) (line : SourceLine) : Except BuildError (SourceLine × Bool) :=
  match strip inside line.text.toList with
  | some (kept, after) => .ok ({ line with text := String.ofList kept }, after)
  | none => .error (.unmatchedCommentEnd line.file line.number)

/-- Lines without their comments, from a line on. -/
def stripFrom (inside : Bool) : List SourceLine → LinePass
  | [] => ⟨[], none⟩
  | line :: rest =>
    match stripLine inside line with
    | .ok (stripped, after) => (stripFrom after rest).cons stripped
    | .error error => ⟨line :: rest, some error⟩

end Comment

/-- The lines of a file without their comments. -/
def stripComments (lines : List SourceLine) : LinePass := Comment.stripFrom false lines

end ShaderLink
