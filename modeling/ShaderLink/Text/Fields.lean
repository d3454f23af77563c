/-
Fields of a text.

`fields` cuts a text at every character that a test calls a separator and keeps
what stands between two separators, the empty fields included: `n` separators
make `n + 1` fields.  `fullFields` keeps the fields that hold something, and
`joinWith` puts texts together with a separator between neighbours.
-/
namespace ShaderLink

namespace Text

/-- The first field of a list of fields with a character put in front. -/
def consField (c : Char) : List (List Char) → List (List Char)
  | [] => [[c]]
  | field :: rest => (c :: field) :: rest

/-- The pieces of a text between its separators, empty ones included. -/
def fields (separates : Char → Bool) : List Char → List (List Char)
  | [] => [[]]
  | c :: rest =>
    if separates c then [] :: fields separates rest
    else consField c (fields separates rest)

/-- The pieces of a text between its separators that hold a character. -/
def fullFields (separates : Char → Bool) (text : List Char) : List (List Char) :=
  (fields separates text).filter (!·.isEmpty)

/-- The texts of a list with one separator put between neighbours. -/
def joinWith (separator : Char) : List (List Char) → List Char
  | [] => []
  | [piece] => piece
  | piece :: rest => piece ++ separator :: joinWith separator rest

theorem fields_ne_nil (separates : Char → Bool) (text : List Char) :
    fields separates text ≠ [] := by
  cases text with
  | nil => simp [fields]
  | cons c rest =>
    unfold fields
    split
    · simp
    · cases fields separates rest <;> simp [consField]

end Text

end ShaderLink
