/-
Sharing constants between literals.

A literal in code is replaced by the name of the first constant that holds its
value.  Where there is none, the build adds one behind the others, whose name
tells its value: `I_6` for the integer 6, `F_0_5` for the number 0.5.  A name
that is taken gets the smallest numbered ending that is free.

A piece of code is gone through twice, first for the integers and then for the
numbers, so the added integers stand before the added numbers.
-/
import ShaderLink.Literal.Scan

namespace ShaderLink

namespace Literal

/-- The value of a literal, when it is in range. -/
def value? (kind : ConstKind) (text : List Char) : Option ConstValue :=
  match kind with
  | .int => (Text.int64? (String.ofList text)).map .int
  | .float => (Binary32.readFinite? (String.ofList text)).map .float

/-! ### Names for added constants -/

/-- The text of a value with the characters replaced that a name cannot hold. -/
def nameText (text : String) : String :=
  String.ofList <| text.toList.flatMap fun c =>
    if c = '-' then ['n', 'e', 'g'] else if c = '.' then ['_'] else [c]

/-- The name that tells an integer or a number. -/
def baseName (kind : ConstKind) (value : ConstValue) : String :=
  match kind with
  | .int => "I_" ++ nameText value.text
  | .float => "F_" ++ nameText value.text

/-- The candidates for a name: the name itself and the name with the endings 1, 2 and so on. -/
def candidate (base : String) : Nat → String
  | 0 => base
  | k + 1 => base ++ "_" ++ toString (k + 1)

/-- The first candidate that is not taken; there is one among as many as are taken and one more. -/
def freshName (taken : List String) (base : String) : String :=
  let free := (List.range (taken.length + 1)).find? fun k => !taken.contains (candidate base k)
  candidate base (free.getD 0)

/-! ### Replacing literals -/

/-- The constant that the build adds for a value. -/
def added (constants : List Constant) (kind : ConstKind) (value : ConstValue) : Constant where
  name := freshName (constants.map (·.name)) (baseName kind value)
  kind := kind
  value := value
  origin := generatedOrigin
  line := none

/-- The name of the first constant of a value, and the constants with one added if none has it. -/
def reference (constants : List Constant) (kind : ConstKind) (value : ConstValue) :
    String × List Constant :=
  match constants.find? (·.value == value) with
  | some holder => (holder.name, constants)
  | none =>
    let c := added constants kind value
    (c.name, constants ++ [c])

/-- What a piece becomes when the literals of a kind are replaced, and the constants then. -/
def sharePiece (kind : ConstKind) (constants : List Constant) (piece : Piece) :
    List Char × List Constant :=
  match piece with
  | .verbatim c => ([c], constants)
  | .literal found text =>
    match if found = kind then value? kind text else none with
    | some value =>
      let (name, constants) := reference constants kind value
      (name.toList, constants)
    | none => (text, constants)

/-- The code of pieces with the literals of a kind replaced, and the constants then. -/
def sharePieces (kind : ConstKind) (constants : List Constant) :
    List Piece → List Char × List Constant
  | [] => ([], constants)
  | piece :: rest =>
    let (text, constants) := sharePiece kind constants piece
    let (more, constants) := sharePieces kind constants rest
    (text ++ more, constants)

/-- The code with the literals of a kind replaced, and the constants then. -/
def shareKind (kind : ConstKind) (constants : List Constant) (code : List Char) :
    List Char × List Constant :=
  sharePieces kind constants (pieces none 0 code)

/-- The code with its literals replaced, and the constants then. -/
def share (constants : List Constant) (code : List Char) : List Char × List Constant :=
  let (code, constants) := shareKind .int constants code
  shareKind .float constants code

end Literal

end ShaderLink
