/-
A tree of files.

A tree is a set of files by their place below a working directory, and the
directories that their paths pass through, also those that a path leaves again
by a step of two dots.  A path is followed step by step as a file system does
it: every step but the last has to lead to a directory, a step of two dots leads
back, and a slash behind a path asks for a directory as well.  Above the working
directory there are directories only.

A path can fail by its spelling alone: by a zero character, or by its length in
bytes.  A name that is too long fails where it is looked up, so not below a file
or a directory that does not exist.
-/
import ShaderLink.Asset.Source

namespace ShaderLink

/-- A file: the steps of its place and its bytes. -/
structure FileEntry where
  place : List String
  bytes : ByteArray

/-- Files below a working directory, and the directories in it. -/
structure FileTree where
  files : List FileEntry
  directories : List (List String)

namespace FileTree

/-- The place one step further, read from the step alone. -/
def advance (place : List String) (step : String) : List String :=
  if step = "" ∨ step = "." then place
  else if step = ".." then place.dropLast
  else place ++ [step]

/-- The place that a path names below the working directory. -/
def placeOf (path : String) : List String := (Path.steps path).foldl advance []

/-- The places that steps pass through: all that they reach but the last. -/
def passedThrough (place : List String) : List String → List (List String)
  | [] => []
  | [_] => []
  | step :: next :: rest =>
    let reached := advance place step
    reached :: passedThrough reached (next :: rest)

/-- The tree of files given with their paths, a later file replacing an earlier one. -/
def ofList (files : List (String × ByteArray)) : FileTree where
  files := (files.map fun (path, bytes) => ⟨placeOf path, bytes⟩).reverse
  directories := files.flatMap fun (path, _) => passedThrough [] (Path.steps path)

def file? (tree : FileTree) (place : List String) : Option FileEntry :=
  tree.files.find? (·.place == place)

def isDirectory (tree : FileTree) (place : List String) : Bool :=
  place.isEmpty || tree.directories.contains place

/-- The greatest length of a path, in bytes. -/
def longestPath : Nat := 4095

/-- The greatest length of a name, in bytes. -/
def longestName : Nat := 255

/-- Where following a path stands: below the working directory or above it. -/
inductive Position where
  | above
  | inside (place : List String)

def step (tree : FileTree) (position : Position) (step : String) :
    Except LoadFailure Position :=
  match position with
  | .above =>
    if step = "" ∨ step = "." ∨ step = ".." then .ok .above
    else if longestName < step.utf8ByteSize then .error .tooLong
    else .error .missing
  | .inside place =>
    if (tree.file? place).isSome then .error .notDirectory
    else if step = "" ∨ step = "." then .ok (.inside place)
    else if step = ".." then .ok (if place = [] then .above else .inside place.dropLast)
    else if longestName < step.utf8ByteSize then .error .tooLong
    else
      let next := place ++ [step]
      if (tree.file? next).isSome || tree.isDirectory next then .ok (.inside next)
      else .error .missing

def locate (tree : FileTree) (path : String) : Except LoadFailure Position :=
  if Path.hasZero path then .error .zeroCharacter
  else if path = "" then .error .missing
  else if longestPath < path.utf8ByteSize then .error .tooLong
  else (Path.steps path).foldlM tree.step (if Path.isAbsolute path then .above else .inside [])

/-- The file that a path leads to. -/
def find (tree : FileTree) (path : String) : Except LoadFailure FileEntry :=
  match tree.locate path with
  | .error reason => .error reason
  | .ok .above => .error .directory
  | .ok (.inside place) =>
    match tree.file? place with
    | some file => .ok file
    | none => .error .directory

/-- The text that a path leads to. -/
def read (tree : FileTree) (path : String) : Except LoadFailure String :=
  match tree.find path with
  | .error reason => .error reason
  | .ok file =>
    match String.fromUTF8? file.bytes with
    | some text => .ok text
    | none => .error .notText

/-- A file that a path leads to is one of the tree. -/
private theorem mem_files_of_find {tree : FileTree} {path : String} {file : FileEntry}
    (h : tree.find path = .ok file) : file ∈ tree.files := by
  unfold find at h
  split at h
  · simp at h
  · simp at h
  · split at h
    · rename_i found hfound
      cases h
      exact List.mem_of_find?_eq_some hfound
    · simp at h

def toSource (tree : FileTree) : AssetSource where
  read := tree.read
  texts := tree.files.filterMap fun file => String.fromUTF8? file.bytes
  mem_texts path text h := by
    unfold read at h
    split at h
    · simp at h
    · rename_i file hfile
      split at h
      · rename_i found hfound
        cases h
        exact List.mem_filterMap.mpr ⟨file, mem_files_of_find hfile, hfound⟩
      · simp at h

end FileTree

end ShaderLink
