/-
Conditional compilation.

Blocks of lines are on or off by named booleans.  A block counts only while
every block around it is on, which each frame of the nesting remembers, so
nothing inside a block that is off can turn lines on again.  A name's boolean is
the override of that name if there is one, and else the first one declared on a
line that is on.

A pass empties the lines of directives and of blocks that are off and leaves the
others as they are.  Directives inside a block that is off still nest, and their
names must still have values.
-/
import ShaderLink.Source.Directive
import ShaderLink.Source.Pass

namespace ShaderLink

/-! ### The nesting of blocks -/

/-- An open block. -/
structure Frame where
  /-- Whether all blocks around it are on. -/
  enclosing : Bool
  /-- Whether its own branch is on. -/
  branch : Bool
  /-- The line that opens it. -/
  openedAt : Nat
  deriving DecidableEq

/-- Whether lines of the block count. -/
def Frame.active (frame : Frame) : Bool := frame.enclosing && frame.branch

/-- The open blocks, the innermost first. -/
structure Nesting where
  frames : List Frame
  deriving DecidableEq

namespace Nesting

def outermost : Nesting := ⟨[]⟩

def active (nesting : Nesting) : Bool :=
  match nesting.frames with
  | [] => true
  | frame :: _ => frame.active

/-- The nesting inside a new block. -/
def enter (nesting : Nesting) (branch : Bool) (line : Nat) : Nesting :=
  ⟨⟨nesting.active, branch, line⟩ :: nesting.frames⟩

/-- The nesting with the innermost block turned over. -/
def flip (nesting : Nesting) (file : String) (line : Nat) : Except BuildError Nesting :=
  match nesting.frames with
  | [] => .error (.unmatchedElse file line)
  | frame :: outer => .ok ⟨{ frame with branch := !frame.branch } :: outer⟩

/-- The nesting behind the innermost block. -/
def leave (nesting : Nesting) (file : String) (line : Nat) : Except BuildError Nesting :=
  match nesting.frames with
  | [] => .error (.unmatchedEndif file line)
  | _ :: outer => .ok ⟨outer⟩

/-- A file may end only where no block is open. -/
def finish (nesting : Nesting) (file : String) : Except BuildError Unit :=
  match nesting.frames with
  | [] => .ok ()
  | frame :: _ => .error (.unclosedIf file frame.openedAt)

end Nesting

/-! ### Named booleans -/

/-- The booleans that conditions see. -/
structure Flags where
  overrides : List (String × Bool)
  /-- The booleans declared so far, none of a name that has an override. -/
  declared : List (String × Bool)
  deriving DecidableEq

namespace Flags

/-- The booleans before any declaration. -/
def ofOverrides (overrides : List (String × Bool)) : Flags := ⟨overrides, []⟩

def get? (flags : Flags) (name : String) : Option Bool :=
  (flags.overrides.lookup name).or (flags.declared.lookup name)

/-- The booleans after a declaration, which counts only for a name that has none. -/
def declare (flags : Flags) (name : String) (value : Bool) : Flags :=
  if (flags.get? name).isSome then flags
  else { flags with declared := flags.declared ++ [(name, value)] }

end Flags

/-! ### The pass -/

namespace Condition

/-- Where the pass stands between two lines. -/
structure State where
  flags : Flags
  nesting : Nesting
  deriving DecidableEq

/-- The state behind a line, and whether the line keeps its text. -/
def step (state : State) (line : SourceLine) : Except BuildError (State × Bool) :=
  match Directive.read? line.text with
  | some (.declare name value) =>
    let flags := if state.nesting.active then state.flags.declare name value else state.flags
    .ok ({ state with flags }, false)
  | some (.test name negated) =>
    match state.flags.get? name with
    | some value =>
      .ok ({ state with nesting := state.nesting.enter (value != negated) line.number }, false)
    | none => .error (.undefinedCondition line.file line.number name)
  | some .otherwise => do
    let nesting ← state.nesting.flip line.file line.number
    .ok ({ state with nesting }, false)
  | some .close => do
    let nesting ← state.nesting.leave line.file line.number
    .ok ({ state with nesting }, false)
  | none => .ok (state, state.nesting.active)

/-- The lines from a state on; `file` names the file at whose end a block may still be open. -/
def evaluateFrom (file : String) (state : State) : List SourceLine → LinePass
  | [] =>
    match state.nesting.finish file with
    | .ok () => ⟨[], none⟩
    | .error error => ⟨[], some error⟩
  | line :: rest =>
    match step state line with
    | .ok (next, kept) =>
      (evaluateFrom file next rest).cons (if kept then line else line.blanked)
    | .error error => ⟨line :: rest, some error⟩

end Condition

/-- The lines of a file with its conditions decided. -/
def evaluateConditions (overrides : List (String × Bool)) (lines : List SourceLine) : LinePass :=
  Condition.evaluateFrom ((lines.head?.map (·.file)).getD "")
    ⟨.ofOverrides overrides, .outermost⟩ lines

end ShaderLink
