/-
Pipeline stages and declared values.
-/
namespace ShaderLink

/-- The stage of the pipeline that a shader is for. -/
inductive Stage where
  | vertex
  | fragment
  | geometry
  deriving DecidableEq

namespace Stage

def name : Stage → String
  | .vertex => "VERTEX"
  | .fragment => "FRAGMENT"
  | .geometry => "GEOMETRY"

/-- The stage of a name. -/
def ofName? (name : String) : Option Stage :=
  [vertex, fragment, geometry].find? (·.name == name)

end Stage

/-- A value together with the line that declares it. -/
structure Declared (α : Type) where
  value : α
  line : Nat
  deriving DecidableEq

end ShaderLink
