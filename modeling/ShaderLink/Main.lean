/-
The command on files of the system.

The command itself is pure: it asks a source for texts.  Here the source is the
files read so far.  The command is run, and when it fails at a file that has not
been read yet, that file is read and the command is run again; every run reads
one more file, until one ends or fails for good.
-/
import ShaderLink.CommandLine

namespace ShaderLink

/-- Files read so far, each with its text or the reason why it has none. -/
structure FilesRead where
  entries : List (String × Except LoadFailure String)

namespace FilesRead

def get? (files : FilesRead) (path : String) : Option (Except LoadFailure String) :=
  files.entries.lookup path

/-- The files read as a source; one not read yet counts as missing. -/
def read (files : FilesRead) (path : String) : Except LoadFailure String :=
  (files.get? path).getD (.error .missing)

def texts (files : FilesRead) : List String :=
  files.entries.filterMap fun entry => entry.2.toOption

private theorem mem_texts (files : FilesRead) {path text : String}
    (h : files.read path = .ok text) : text ∈ files.texts := by
  unfold read get? at h
  cases hl : files.entries.lookup path with
  | none => simp [hl] at h
  | some found =>
    simp only [hl, Option.getD_some] at h
    subst h
    obtain ⟨before, after, hsplit, _⟩ := List.lookup_eq_some_iff.mp hl
    exact List.mem_filterMap.mpr ⟨(path, .ok text), by simp [hsplit], rfl⟩

def toSource (files : FilesRead) : AssetSource where
  read := files.read
  texts := files.texts
  mem_texts _ _ h := files.mem_texts h

end FilesRead

/-- The path at which a command failed for want of a file. -/
def wantedPath? : Except CommandLine.Failure String → Option String
  | .error (.settings (.unreadable path _)) => some path
  | .error (.build (.unreadable path _)) => some path
  | _ => none

/-- The positive number of a system error, which may be reported negated. -/
def errorNumber (code : UInt32) : UInt32 := if 0x80000000 ≤ code.toNat then 0 - code else code

/-- The reason behind a failure of the system. -/
def LoadFailure.ofSystem (error : IO.Error) : LoadFailure :=
  match error with
  | .noFileOrDirectory .. => .missing
  | .inappropriateType _ code _ => if errorNumber code = 20 then .notDirectory else .directory
  | .invalidArgument _ code details =>
    if errorNumber code = 36 then .tooLong else .system details
  | .permissionDenied .. => .system "Permission denied (os error 13)"
  | _ => .system (toString error)

/-- The text of a file of the system, or the reason why there is none. -/
def readSystemFile (path : String) : IO (Except LoadFailure String) := do
  if Path.hasZero path then return .error .zeroCharacter
  try
    match String.fromUTF8? (← IO.FS.readBinFile path) with
    | some text => return .ok text
    | none => return .error .notText
  catch error => return .error (.ofSystem error)

/-- The files that a command needs. -/
partial def collectFiles (words : List String) (files : FilesRead) : IO FilesRead := do
  match wantedPath? (CommandLine.run files.toSource words) with
  | some path =>
    if (files.get? path).isSome then return files
    else
      let found ← readSystemFile path
      collectFiles words ⟨(path, found) :: files.entries⟩
  | none => return files

end ShaderLink

/-- Runs the command and leaves with its exit code. -/
def main (words : List String) : IO UInt32 := do
  let files ← ShaderLink.collectFiles words ⟨[]⟩
  let outcome := ShaderLink.CommandLine.outcome files.toSource words
  (← IO.getStdout).putStr outcome.stdout
  (← IO.getStderr).putStr outcome.stderr
  return UInt32.ofNat outcome.exitCode
