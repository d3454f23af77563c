/-
Building a program.

A build reads the main file below a root, lists it with everything it includes,
and makes one program of their bodies and constants.  What can fail is tried in
this order: the main file and its metadata, the includes, and the names of the
constants.
-/
import ShaderLink.Asset.Source
import ShaderLink.Link.Order
import ShaderLink.Program.Basic

namespace ShaderLink

/-- Files below a root directory. -/
structure Project where
  source : AssetSource
  root : String

namespace Project

/-- The text of a file below the root. -/
def text (project : Project) (path : String) : Except BuildError String :=
  let full := Path.join project.root path
  match project.source.read full with
  | .ok text => .ok text
  | .error reason => .error (.unreadable full reason)

/-- The unit of an included file. -/
def loadIncluded (project : Project) (settings : Settings) (path : String) :
    Except BuildError ShaderUnit := do
  ShaderUnit.ofText settings path (← project.text path)

/-- The unit of the main file. -/
def loadMain (project : Project) (settings : Settings) (path : String) :
    Except BuildError ShaderUnit := do
  ShaderUnit.ofMainText settings path (← project.text path)

/-- The files that a main file needs, each behind those it includes, the main file last. -/
def order (project : Project) (settings : Settings) (main : ShaderUnit) :
    Except BuildError Listing :=
  Order.visit (project.loadIncluded settings) project.source.depth [] none .empty main

/-- The program of files in order under a header. -/
def link (header : Header) (files : List ShaderUnit) : Except BuildError Program := do
  let table ← ConstantTable.mergeAll (files.map (·.constants))
  let (constants, body) := Body.share table.entries (Body.assemble files)
  .ok (Program.ofParts header constants body)

/-- The program of a main file and everything it includes. -/
def build (project : Project) (settings : Settings) (entry : String) :
    Except BuildError Program := do
  let main ← project.loadMain settings entry
  let header ← Header.ofUnit main
  let listed ← project.order settings main
  link header listed.files

end Project

end ShaderLink
