/-
The command line.

Arguments are read from left to right: a root directory, settings files and
assignments, the wish for JSON output, and the entry file.  Settings are loaded
as they are met, so the first thing wrong on the line is what is reported.  Then
the entry is built and its listing, or the program as JSON, is printed.
-/
import ShaderLink.Build
import ShaderLink.Json.Document
import ShaderLink.Settings.Assignments
import ShaderLink.Settings.Json

namespace ShaderLink

namespace CommandLine

def usage : String :=
  "usage: shader-builder [--root DIR] [--settings FILE.json] " ++
    "[--set \"NAME=VALUE ...\"]... [--json] ENTRY"

/-- An option that needs an argument. -/
inductive Need where
  | root
  | settings
  | set
  deriving DecidableEq

def Need.message : Need → String
  | .root => "--root needs a directory"
  | .settings => "--settings needs a file"
  | .set => "--set needs NAME=VALUE"

/-- Why the command does not end well. -/
inductive Failure where
  /-- Nothing was asked for but the usage, or no entry file is given. -/
  | usage
  | missingArgument (need : Need)
  | unknownOption (name : String)
  | secondEntry
  /-- Settings could not be loaded. -/
  | settings (error : BuildError)
  | build (error : BuildError)
  deriving DecidableEq

def Failure.message : Failure → String
  | .usage => CommandLine.usage
  | .missingArgument need => need.message
  | .unknownOption name => "unknown option " ++ name ++ "\n" ++ CommandLine.usage
  | .secondEntry => "more than one entry file given\n" ++ CommandLine.usage
  | .settings error => error.message
  | .build error => "error: " ++ error.message

/-- The arguments read so far. -/
structure Arguments where
  root : String
  settings : Settings
  json : Bool
  entry : Option String
  deriving DecidableEq

/-- What the command assumes without arguments. -/
def Arguments.initial : Arguments := ⟨".", Table.empty, false, none⟩

/-- What the command is asked to do. -/
structure Options where
  root : String
  settings : Settings
  json : Bool
  entry : String
  deriving DecidableEq

/-- The settings of a file. -/
def loadSettings (source : AssetSource) (path : String) : Except BuildError Settings :=
  match source.read path with
  | .ok text => Settings.ofJson text
  | .error reason => .error (.unreadable path reason)

/-- The arguments with further settings, when those could be loaded. -/
def Arguments.merge (arguments : Arguments) (loaded : Except BuildError Settings) :
    Except Failure Arguments :=
  match loaded with
  | .ok settings => .ok { arguments with settings := arguments.settings.merge settings }
  | .error error => .error (.settings error)

/-- The arguments with a word that stands for itself: an unknown option or the entry file. -/
def Arguments.addWord (arguments : Arguments) (word : String) : Except Failure Arguments :=
  if "--".toList.isPrefixOf word.toList then .error (.unknownOption word)
  else if arguments.entry.isSome then .error .secondEntry
  else .ok { arguments with entry := some word }

/-- The arguments after further words. -/
def readFrom (source : AssetSource) (arguments : Arguments) :
    List String → Except Failure Arguments
  | [] => .ok arguments
  | "--root" :: rest =>
    match rest with
    | [] => .error (.missingArgument .root)
    | root :: rest => readFrom source { arguments with root } rest
  | "--settings" :: rest =>
    match rest with
    | [] => .error (.missingArgument .settings)
    | path :: rest => do
      readFrom source (← arguments.merge (loadSettings source path)) rest
  | "--set" :: rest =>
    match rest with
    | [] => .error (.missingArgument .set)
    | text :: rest => do
      readFrom source (← arguments.merge (Settings.ofAssignments text)) rest
  | "--json" :: rest => readFrom source { arguments with json := true } rest
  | "-h" :: _ => .error .usage
  | "--help" :: _ => .error .usage
  | word :: rest => do readFrom source (← arguments.addWord word) rest

/-- The options that a command line spells. -/
def options (source : AssetSource) (words : List String) : Except Failure Options := do
  let arguments ← readFrom source .initial words
  match arguments.entry with
  | some entry => .ok ⟨arguments.root, arguments.settings, arguments.json, entry⟩
  | none => .error .usage

/-! ### Running -/

/-- The record of an output line as JSON. -/
def recordDocument (record : LineRecord) : Json.Document :=
  .record [
    ("file", .text record.file),
    ("line", match record.line with | some line => .count line | none => .null)]

/-- A program as JSON. -/
def programDocument (program : Program) : Json.Document :=
  .record [
    ("path", .text program.path),
    ("stage", .text program.stage.name),
    ("source", .text program.source),
    ("line_table", .list (program.lineTable.map recordDocument))]

/-- What is printed for a program. -/
def output (json : Bool) (program : Program) : String :=
  if json then (programDocument program).write 0 ++ "\n" else program.listing

/-- What the command prints, or why it fails. -/
def run (source : AssetSource) (words : List String) : Except Failure String := do
  let options ← options source words
  match (Project.mk source options.root).build options.settings options.entry with
  | .ok program => .ok (output options.json program)
  | .error error => .error (.build error)

/-- What a command leaves behind. -/
structure Outcome where
  exitCode : Nat
  stdout : String
  stderr : String
  deriving DecidableEq

def outcome (source : AssetSource) (words : List String) : Outcome :=
  match run source words with
  | .ok text => ⟨0, text, ""⟩
  | .error failure => ⟨1, "", failure.message ++ "\n"⟩

end CommandLine

end ShaderLink
