/-
What can stop a build.

Each failure is a value that tells its cause; the wording for the reader is made
from it by `message` in one place.  A failure inside a file names the file and
the line as the file's author sees them.
-/
import ShaderLink.Constant.Basic
import ShaderLink.Json.Text

namespace ShaderLink

/-- Why a file could not be read. -/
inductive LoadFailure where
  | unregistered
  | missing
  | notDirectory
  | directory
  | notText
  | zeroCharacter
  | tooLong
  | system (reason : String)
  deriving DecidableEq

/-- The reason in words, for the path that was asked for. -/
def LoadFailure.message (path : String) : LoadFailure → String
  | .unregistered => "no shader source registered for " ++ path
  | .missing => "No such file or directory (os error 2)"
  | .notDirectory => "Not a directory (os error 20)"
  | .directory => "Is a directory (os error 21)"
  | .notText => "stream did not contain valid UTF-8"
  | .zeroCharacter => "file name contained an unexpected NUL byte"
  | .tooLong => "File name too long (os error 36)"
  | .system reason => reason

/-- What the main file of a build has to declare. -/
inductive Metadata where
  | version
  | stage
  | precision
  deriving DecidableEq

def Metadata.label : Metadata → String
  | .version => "version"
  | .stage => "type"
  | .precision => "default precision"

/-- What is wrong with a settings text, in words. -/
def Json.Flaw.message : Json.Flaw → String
  | .truncated => "the text ends too early"
  | .malformed => "the text is no well-formed object"
  | .misshapen => "a value is neither a boolean nor a number"

/-- Everything that can stop a build. -/
inductive BuildError where
  | unreadable (path : String) (reason : LoadFailure)
  /-- A file ends inside a statement; its last token is given. -/
  | exhausted (file : String) (line : Nat) (token : String)
  /-- A block comment ends where none is open. -/
  | unmatchedCommentEnd (file : String) (line : Nat)
  | unmatchedElse (file : String) (line : Nat)
  | unmatchedEndif (file : String) (line : Nat)
  | unclosedIf (file : String) (line : Nat)
  /-- A condition on a name without a value. -/
  | undefinedCondition (file : String) (line : Nat) (name : String)
  | illegalStage (file : String) (line : Nat) (value : String)
  | malformedVersion (file : String) (line : Nat) (version : String)
  /-- A file of a greater version than a file that includes it. -/
  | versionViolation (file fileVersion includer includerVersion : String)
  /-- A file that includes itself, directly or through others. -/
  | includeCycle (chain : List String)
  | duplicateConstant (first second : Constant)
  | missingMetadata (file : String) (what : Metadata)
  /-- An assignment that sets nothing. -/
  | invalidSetting (text : String)
  /-- A setting that does not fit the kind of its constant. -/
  | unfitSetting (name : String) (value : ConstValue) (kind : ConstKind)
  /-- A settings text that is no object of booleans and numbers. -/
  | malformedSettings (flaw : Json.Flaw)
  | compile (path report listing : String)
  deriving DecidableEq

/-- A message about a line of a file. -/
def atLine (file : String) (line : Nat) (text : String) : String :=
  file ++ ":" ++ toString line ++ ": " ++ text

def quoted (text : String) : String := "\"" ++ text ++ "\""

def BuildError.message : BuildError → String
  | .unreadable path reason => "could not read " ++ quoted path ++ ": " ++ reason.message path
  | .exhausted file line token =>
    file ++ ": missing tokens, last token parsed on line " ++ toString line ++ ": " ++ quoted token
  | .unmatchedCommentEnd file line =>
    atLine file line "block comment end without matching beginning"
  | .unmatchedElse file line => atLine file line "#else without matching #if"
  | .unmatchedEndif file line => atLine file line "#endif without matching #if"
  | .unclosedIf file line => atLine file line "unclosed #if"
  | .undefinedCondition file line name =>
    atLine file line ("undefined constant used in #if: " ++ name)
  | .illegalStage file line value => atLine file line ("illegal shader type: " ++ value)
  | .malformedVersion file line version =>
    atLine file line ("malformed #version " ++ quoted version)
  | .versionViolation file fileVersion includer includerVersion =>
    "included file " ++ quoted file ++ " (version " ++ fileVersion ++
      ") has a greater version than " ++ quoted includer ++ " (version " ++ includerVersion ++ ")"
  | .includeCycle chain => "include cycle: " ++ " -> ".intercalate chain
  | .duplicateConstant first second =>
    "duplicate constant definition: " ++ first.citation ++ " vs " ++ second.citation
  | .missingMetadata file what => what.label ++ " unspecified for main file " ++ quoted file
  | .invalidSetting text => "invalid setting " ++ quoted text
  | .unfitSetting name value kind =>
    "invalid setting " ++ quoted (name ++ " = " ++ value.text ++ " does not fit const " ++
      kind.keyword ++ " " ++ name)
  | .malformedSettings flaw => "invalid settings file: " ++ flaw.message
  | .compile path report listing =>
    "could not compile shader " ++ quoted path ++ ":\n" ++ report ++ "\n" ++ listing

end ShaderLink
