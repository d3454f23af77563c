/-
Numeric constants.

A shader declares constants of two kinds, and a constant's value is an integer,
a single-precision number, or, when its initializer is no literal, the text of
an expression that is passed on as it stands.  Two values are equal when they
are the same integer or have the same bits; this is what sharing literals goes by.

A constant also tells where its value came from: a file and a line, the
settings, or the build itself.
-/
import ShaderLink.Number.Shortest

namespace ShaderLink

/-- The type that a constant is declared with. -/
inductive ConstKind where
  | int
  | float
  deriving DecidableEq

def ConstKind.keyword : ConstKind → String
  | .int => "int"
  | .float => "float"

/-- The value of a constant. -/
inductive ConstValue where
  | int (value : Int64)
  | float (value : Binary32)
  | expr (text : String)
  deriving DecidableEq

namespace ConstValue

/-- The value that an initializer spells: an integer, else a finite number, else an expression. -/
def read (text : String) : ConstValue :=
  match Text.int64? text with
  | some i => .int i
  | none =>
    match Binary32.readFinite? text with
    | some x => .float x
    | none => .expr text

/-- The value for a constant of the kind: an integer becomes a number where a number is asked for,
and a number does not fit an integer constant. -/
def coerce? (kind : ConstKind) : ConstValue → Option ConstValue
  | .int i => some (match kind with | .int => .int i | .float => .float (.ofInt i.toInt))
  | .float x => match kind with | .int => none | .float => some (.float x)
  | .expr text => some (.expr text)

/-- The initializer of a declaration. -/
def text : ConstValue → String
  | .int i => toString i.toInt
  | .float x => x.toText
  | .expr text => text

end ConstValue

/-- The origin of a constant whose value the settings gave. -/
def settingsOrigin : String := "<settings>"

/-- The origin of a constant that the build added. -/
def generatedOrigin : String := "<generated>"

/-- A declared constant. -/
structure Constant where
  name : String
  kind : ConstKind
  value : ConstValue
  /-- The declaring file, or one of the two markers. -/
  origin : String
  /-- The declaring line, for a constant that a file declares. -/
  line : Option Nat
  deriving DecidableEq

namespace Constant

/-- The declaration of a constant. -/
def declaration (c : Constant) : String :=
  "const " ++ c.kind.keyword ++ " " ++ c.name ++ " = " ++ c.value.text ++ ";"

/-- A constant as messages cite it: its place, its name and its value. -/
def citation (c : Constant) : String :=
  match c.line with
  | some line => c.origin ++ ":" ++ toString line ++ ":" ++ c.name ++ " = " ++ c.value.text
  | none => c.origin ++ ":" ++ c.name ++ " = " ++ c.value.text

end Constant

end ShaderLink
