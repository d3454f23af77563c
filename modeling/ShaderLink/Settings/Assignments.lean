/-
Settings as assignments.

An assignment is a shell word with an equals sign: the name before the first one
and the value behind it, each trimmed.  The value is a boolean, an integer or a
finite number.  A text that does not split into words is refused whole, and a
word that assigns nothing is refused by itself.
-/
import ShaderLink.Text.ShellWords
import ShaderLink.Settings.Basic
import ShaderLink.Error

namespace ShaderLink

namespace Settings

/-- The setting that the value of an assignment spells. -/
def readValue? (text : String) : Option Setting :=
  if text = "true" then some (.flag true)
  else if text = "false" then some (.flag false)
  else
    match Text.int64? text with
    | some i => some (.int i)
    | none => (Binary32.readFinite? text).map .float

/-- The entry that a word assigns. -/
def ofAssignment? (word : String) : Option (String × Setting) :=
  let characters := word.toList
  let name := Text.trim (String.ofList (characters.takeWhile (· != '=')))
  match characters.dropWhile (· != '=') with
  | [] => none
  | _ :: value =>
    if name = "" then none
    else (readValue? (Text.trim (String.ofList value))).map (name, ·)

/-- The settings that a text of assignments gives. -/
def ofAssignments (text : String) : Except BuildError Settings :=
  match ShellWords.read? text with
  | none => .error (.invalidSetting text)
  | some words => do
    let entries ← words.mapM fun word =>
      match ofAssignment? word with
      | some entry => .ok entry
      | none => .error (.invalidSetting word)
    .ok (ofList entries)

end Settings

end ShaderLink
