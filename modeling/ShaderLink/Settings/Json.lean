/-
Settings as a JSON object.

A settings text is one object whose values are booleans and numbers.  A later
entry of a name wins.  The text is read from left to right and the first flaw
decides; a list in place of the object is refused at its bracket, while any other
value there is first read whole.

A number that is no signed integer is set in single precision: it is rounded
once more, and a number too large for that becomes an infinity.
-/
import ShaderLink.Json.Value
import ShaderLink.Settings.Basic
import ShaderLink.Error

namespace ShaderLink

/-- The setting that a number stands for. -/
def Json.Number.setting : Json.Number → Setting
  | .int value => .int value
  | .unsigned value => .float (.ofRatio false ⟨value.toNat, 1⟩)
  | .double negative word => .float (.ofRatio negative (BinaryFormat.double.value word))

namespace Settings

/-- The value of an entry. -/
inductive JsonValue where
  | flag (value : Bool)
  | number (value : Json.Number)
  deriving DecidableEq

def JsonValue.setting : JsonValue → Setting
  | .flag value => .flag value
  | .number value => value.setting

/-- The value of an entry that a value may be. -/
def jsonValue? : Json.Value → Option JsonValue
  | .flag value => some (.flag value)
  | .number value => some (.number value)
  | _ => none

/-- An entry of the object. -/
abbrev JsonEntry := String × JsonValue

/-- The entry that a text begins with, the opening quote of its name already read. -/
def jsonEntry (text : List Char) : Except Json.Flaw (JsonEntry × List Char) := do
  let (name, rest) ← Json.entryName text
  let (value, rest) ← Json.value rest
  match jsonValue? value with
  | some value => .ok ((String.ofList name, value), Json.skipBlanks rest)
  | none => .error .misshapen

/-- The entries from the opening quote of a name on.  Each step reads one entry, so the length of
the text bounds their number. -/
def jsonEntries : Nat → List Char → Except Json.Flaw (List JsonEntry × List Char)
  | 0, _ => .error .truncated
  | steps + 1, text => do
    let (entry, rest) ← jsonEntry text
    match rest with
    | '\x7d' :: rest => .ok ([entry], rest)
    | ',' :: rest =>
      let (more, rest) ← jsonEntries steps (← Json.expectChar '"' (Json.skipBlanks rest))
      .ok (entry :: more, rest)
    | rest => .error (Json.wrongAt rest)

/-- The entries of the object that a text begins with. -/
def jsonObject (text : List Char) : Except Json.Flaw (List JsonEntry × List Char) :=
  match Json.skipBlanks text with
  | '\x7b' :: rest =>
    match Json.skipBlanks rest with
    | '\x7d' :: rest => .ok ([], rest)
    | '"' :: rest => jsonEntries (rest.length + 1) rest
    | rest => .error (Json.wrongAt rest)
  | '[' :: _ => .error .misshapen
  | rest => do
    let _ ← Json.scalar rest
    .error .misshapen

/-- The entries of a text that is one object. -/
def readJson (text : String) : Except Json.Flaw (List JsonEntry) := do
  let (entries, rest) ← jsonObject text.toList
  if (Json.skipBlanks rest).isEmpty then .ok entries else .error .malformed

/-- The settings that a JSON text gives. -/
def ofJson (text : String) : Except BuildError Settings :=
  match readJson text with
  | .ok entries => .ok (ofList (entries.map fun (name, value) => (name, value.setting)))
  | .error flaw => .error (.malformedSettings flaw)

end Settings

end ShaderLink
