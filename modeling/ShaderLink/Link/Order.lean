/-
The order of files.

From the main file on, every file's includes are visited in turn, depth first,
and a file is listed once all its includes are.  So each file is listed once and
behind everything it needs.  A file that includes a file of the chain leading to
it closes a cycle, which is an error, and so is an included file above the
version ceiling of that chain.

A listing keeps, beside the files, the place of each by its path, and a file that
has been listed is found again by that place alone.

The recursion carries a bound on the length of the chain.  The paths of a chain
are distinct, so a bound at least as great as the number of paths is never met.
-/
import ShaderLink.Link.Ceiling

namespace ShaderLink

/-- Files in the order in which they were listed, and the places of paths among them, the latest
first. -/
structure Listing where
  files : List ShaderUnit
  places : List (String × Nat)
  deriving DecidableEq

namespace Listing

def empty : Listing := ⟨[], []⟩

/-- The place of a path, when it is listed. -/
def place? (listing : Listing) (path : String) : Option Nat := listing.places.lookup path

/-- The file at the place of a path. -/
def find? (listing : Listing) (path : String) : Option ShaderUnit :=
  (listing.place? path).bind fun place => listing.files[place]?

/-- The listing with a file behind the others. -/
def add (listing : Listing) (file : ShaderUnit) : Listing where
  files := listing.files ++ [file]
  places := (file.path, listing.files.length) :: listing.places

end Listing

namespace Order

/-- The cycle that an include closes: the chain from the included path on, and that path again. -/
def cycleAt (chain : List String) (path : String) : List String :=
  chain.dropWhile (· != path) ++ [path]

/-- The listing after an include.  A path of the chain closes a cycle, a listed file only has to keep
below the ceiling, and any other file is loaded and descended into. -/
def visitInclude (load : String → Except BuildError ShaderUnit)
    (descend : Listing → ShaderUnit → Except BuildError Listing)
    (chain : List String) (ceiling : Option Ceiling) (listed : Listing) (path : String) :
    Except BuildError Listing :=
  if chain.contains path then .error (.includeCycle (cycleAt chain path))
  else
    match listed.find? path with
    | some known => do
      Ceiling.check ceiling known
      .ok listed
    | none => do
      let included ← load path
      Ceiling.check ceiling included
      descend listed included

/-- The listing after a file and all it includes.  `chain` holds the paths that lead to the file,
`ceiling` is their version ceiling, and `listed` holds the files listed so far. -/
def visit (load : String → Except BuildError ShaderUnit) :
    Nat → List String → Option Ceiling → Listing → ShaderUnit → Except BuildError Listing
  | 0, chain, _, _, file => .error (.includeCycle (chain ++ [file.path]))
  | depth + 1, chain, ceiling, listed, file => do
    let chain := chain ++ [file.path]
    let ceiling := Ceiling.tighten ceiling file
    let listed ← file.includes.foldlM
      (visitInclude load (visit load depth chain ceiling) chain ceiling) listed
    .ok (listed.add file)

end Order

end ShaderLink
