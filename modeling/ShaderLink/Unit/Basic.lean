/-
Shader units.

A shader unit is what a build takes from one file: its version, stage and
default precision, the files it includes, the constants it declares, and the
tokens that are left as its body.  Of several versions, stages or precisions the
last counts.

Only the constants depend on the settings, and among the failures of a file one
of a constant's setting comes before one of a statement further on.
-/
import ShaderLink.Constant.Table
import ShaderLink.Settings.Basic
import ShaderLink.Source.Comment
import ShaderLink.Source.Condition
import ShaderLink.Source.Spacing
import ShaderLink.Unit.Statement

namespace ShaderLink

/-! ### What a statement declares -/

namespace Statement

/-- The declared version: the number, and the profile behind it when there is one. -/
def version? : Statement → Option (Declared String)
  | .version keyword number none => some ⟨number.text, keyword.line⟩
  | .version keyword number (some profile) =>
    some ⟨number.text ++ " " ++ profile.text, keyword.line⟩
  | _ => none

def stage? : Statement → Option (Declared Stage)
  | .stage keyword _ found => some ⟨found, keyword.line⟩
  | _ => none

/-- The declared default precision, which is that of the type float. -/
def defaultPrecision? : Statement → Option (Declared String)
  | .precision keyword qualifier type _ =>
    if type.text = "float" then some ⟨qualifier.text, keyword.line⟩ else none
  | _ => none

/-- The included path, without the quotes around it. -/
def includedPath? : Statement → Option String
  | .inclusion _ path => some (String.ofList (Text.stripEnds (· == '"') path.text.toList))
  | _ => none

/-- The tokens that stay in the body: code, and a precision of another type than float. -/
def bodyTokens : Statement → List Token
  | .code first more => first :: more
  | .precision keyword qualifier type stop =>
    if type.text = "float" then [] else [keyword, qualifier, type, stop]
  | _ => []

/-- The constant that a name, a kind and an initializer declare in a file.  A number set for the
name takes the place of the initializer, and then the constant has no line. -/
def declaredConstant (settings : Settings) (path : String) (kind : ConstKind)
    (keyword name : Token) (initializer : String) : Except BuildError Constant :=
  match settings.number? name.text with
  | some set =>
    match set.coerce? kind with
    | some value => .ok ⟨name.text, kind, value, settingsOrigin, none⟩
    | none => .error (.unfitSetting name.text set kind)
  | none =>
    let value := ((ConstValue.read initializer).coerce? kind).getD (.expr initializer)
    .ok ⟨name.text, kind, value, path, some keyword.line⟩

/-- The constants after a statement. -/
def addConstant (settings : Settings) (path : String) (table : ConstantTable) :
    Statement → Except BuildError ConstantTable
  | .constant kind keyword name _ first more _ => do
    let initializer := String.join ((first :: more).map (·.text))
    let c ← declaredConstant settings path kind keyword name initializer
    .ok (table.insert c)
  | _ => .ok table

end Statement

/-! ### Units -/

/-- The number that a declared version begins with. -/
def versionNumber? (version : String) : Option Nat :=
  (Text.words version).head?.bind Text.count32?

/-- What a build takes from one file. -/
structure ShaderUnit where
  path : String
  version : Option (Declared String)
  stage : Option (Declared Stage)
  precision : Option (Declared String)
  includes : List String
  constants : ConstantTable
  body : List Token
  deriving DecidableEq

namespace ShaderUnit

/-- The number of the unit's version. -/
def versionNumber? (file : ShaderUnit) : Option Nat :=
  file.version.bind fun version => ShaderLink.versionNumber? version.value

/-- The unit that statements make up. -/
def ofReading (settings : Settings) (path : String) (reading : Reading) :
    Except BuildError ShaderUnit := do
  let statements := reading.statements
  let constants ← statements.foldlM (Statement.addConstant settings path) Table.empty
  match reading.failure with
  | some error => .error error
  | none =>
    .ok {
      path
      version := (statements.filterMap Statement.version?).getLast?
      stage := (statements.filterMap Statement.stage?).getLast?
      precision := (statements.filterMap Statement.defaultPrecision?).getLast?
      includes := statements.filterMap Statement.includedPath?
      constants
      body := statements.flatMap Statement.bodyTokens }

/-- The unit that tokens make up. -/
def ofTokens (settings : Settings) (path : String) (tokens : List Token) :
    Except BuildError ShaderUnit :=
  ofReading settings path (Reading.ofTokens path tokens)

/-- The tokens of a file's text, without comments and with its conditions decided. -/
def tokensOfText (settings : Settings) (path text : String) : Except BuildError (List Token) := do
  let stripped ← (stripComments (SourceLine.read path text)).toExcept
  let lines ← (evaluateConditions settings.flags stripped).toExcept
  .ok (tokenize lines)

/-- The unit of a file's text. -/
def ofText (settings : Settings) (path text : String) : Except BuildError ShaderUnit := do
  ofTokens settings path (← tokensOfText settings path text)

/-- The first declaration that a unit lacks for being the main file. -/
def missingMetadata? (file : ShaderUnit) : Option Metadata :=
  if file.version.isNone then some .version
  else if file.stage.isNone then some .stage
  else if file.precision.isNone then some .precision
  else none

/-- The unit of the main file's text, which has to declare all metadata. -/
def ofMainText (settings : Settings) (path text : String) : Except BuildError ShaderUnit := do
  let file ← ofText settings path text
  match file.missingMetadata? with
  | some what => .error (.missingMetadata path what)
  | none => .ok file

end ShaderUnit

end ShaderLink
