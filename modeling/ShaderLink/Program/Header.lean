/-
The head of a program.

A program begins with the version and the default precision of its main file and
the declarations of all constants, each on a line of its own.
-/
import ShaderLink.Program.Body

namespace ShaderLink

/-- The metadata of the main file that the head of a program is made from. -/
structure Header where
  path : String
  stage : Stage
  version : Declared String
  precision : Declared String
  deriving DecidableEq

namespace Header

/-- The header of a main file, which has to declare all metadata. -/
def ofUnit (file : ShaderUnit) : Except BuildError Header :=
  match file.stage, file.version, file.precision with
  | some stage, some version, some precision => .ok ⟨file.path, stage.value, version, precision⟩
  | none, _, _ => .error (.missingMetadata file.path .stage)
  | _, none, _ => .error (.missingMetadata file.path .version)
  | _, _, none => .error (.missingMetadata file.path .precision)

/-- The lines of the version and of the default precision. -/
def lines (header : Header) : List OutputLine :=
  [⟨⟨header.path, some header.version.line⟩, "#version " ++ header.version.value⟩,
    ⟨⟨header.path, some header.precision.line⟩,
      "precision " ++ header.precision.value ++ " float;"⟩]

end Header

def OutputLine.ofConstant (c : Constant) : OutputLine := ⟨⟨c.origin, c.line⟩, c.declaration⟩

end ShaderLink
