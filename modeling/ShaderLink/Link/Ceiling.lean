/-
Version ceilings.

A file may not include a file of a greater version, directly or through others.
Along a chain of includes the ceiling is the lowest version declared so far, and
of two equally low ones the one declared first; files without a version neither
lower it nor are held to it.
-/
import ShaderLink.Unit.Basic

namespace ShaderLink

/-- The lowest version along a chain of includes, and the file that declares it. -/
structure Ceiling where
  number : Nat
  version : String
  path : String
  deriving DecidableEq

namespace Ceiling

/-- The ceiling that a file sets by itself. -/
def ofUnit? (file : ShaderUnit) : Option Ceiling := do
  let version ← file.version
  let number ← versionNumber? version.value
  some ⟨number, version.value, file.path⟩

/-- The ceiling below a file that stands below another ceiling. -/
def tighten (ceiling : Option Ceiling) (file : ShaderUnit) : Option Ceiling :=
  match ceiling, ofUnit? file with
  | some above, some own => some (if own.number < above.number then own else above)
  | some above, none => some above
  | none, own => own

/-- An included file has to stay at or below the ceiling. -/
def check (ceiling : Option Ceiling) (file : ShaderUnit) : Except BuildError Unit :=
  match ceiling, ofUnit? file with
  | some above, some own =>
    if above.number < own.number then
      .error (.versionViolation own.path own.version above.path above.version)
    else .ok ()
  | _, _ => .ok ()

end Ceiling

end ShaderLink
