/-
Passes over the lines of a file.

A pass goes through the lines from the first to the last and changes texts; it
may fail at a line.  What it leaves is a `LinePass`: the lines as they are when
it stops, and the failure that stopped it, if one did.
-/
import ShaderLink.Error
import ShaderLink.Source.Line

namespace ShaderLink

/-- Lines after a pass over them, and the failure that ended it early. -/
structure LinePass where
  lines : List SourceLine
  failure : Option BuildError
  deriving DecidableEq

namespace LinePass

/-- What a pass leaves that has done a line and then the lines of another. -/
def cons (line : SourceLine) (pass : LinePass) : LinePass :=
  { pass with lines := line :: pass.lines }

/-- The lines, when the pass came to their end. -/
def toExcept (pass : LinePass) : Except BuildError (List SourceLine) :=
  match pass.failure with
  | some error => .error error
  | none => .ok pass.lines

@[simp] theorem lines_cons (line : SourceLine) (pass : LinePass) :
    (pass.cons line).lines = line :: pass.lines := rfl

@[simp] theorem failure_cons (line : SourceLine) (pass : LinePass) :
    (pass.cons line).failure = pass.failure := rfl

end LinePass

end ShaderLink
