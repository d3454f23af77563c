/-
Numeric literals in code.

A lexeme is a run of digits, with a fraction or an exponent or both, or a point
and digits with or without an exponent; it is the longest such text at its
start.  A literal is a lexeme that touches no identifier and no point on either
side, and it is a float literal when it has a point or an exponent.

`pieces` cuts code into its literals and the characters around them, and their
texts put together are the code again.
-/
import ShaderLink.Constant.Basic
import ShaderLink.Text.WordChar

namespace ShaderLink

namespace Literal

/-- A part of code: a literal, or one character of anything else. -/
inductive Piece where
  | verbatim (c : Char)
  | literal (kind : ConstKind) (text : List Char)
  deriving DecidableEq

/-- The code that a piece stands for. -/
def Piece.text : Piece → List Char
  | .verbatim c => [c]
  | .literal _ text => text

/-! ### Lexemes -/

/-- The number of characters of the fraction that a text begins with: a point and digits. -/
def fractionLength : List Char → Nat
  | '.' :: rest => 1 + (rest.takeWhile Char.isDigit).length
  | _ => 0

/-- The number of characters of the sign that a text begins with. -/
def signLength : List Char → Nat
  | '+' :: _ | '-' :: _ => 1
  | _ => 0

/-- The number of characters of the exponent that a text begins with: the letter, a sign or none,
and digits, without which it is no exponent. -/
def exponentLength : List Char → Nat
  | c :: rest =>
    if c = 'e' ∨ c = 'E' then
      let digits := (rest.drop (signLength rest)).takeWhile Char.isDigit
      if digits.isEmpty then 0 else 1 + signLength rest + digits.length
    else 0
  | [] => 0

/-- The kind and the length of the lexeme that a text begins with. -/
def lexeme (text : List Char) : ConstKind × Nat :=
  let whole := (text.takeWhile Char.isDigit).length
  let fraction := fractionLength (text.drop whole)
  let exponent := exponentLength (text.drop (whole + fraction))
  (if fraction = 0 ∧ exponent = 0 then .int else .float, whole + fraction + exponent)

/-! ### Literals -/

/-- Whether a literal may not touch this character. -/
def attaches (neighbour : Option Char) : Bool :=
  neighbour.any fun c => Text.isPlainWordChar c || c == '.'

/-- Whether a lexeme begins at the start of a text: with a digit, or with a point and a digit. -/
def startsLexeme : List Char → Bool
  | '.' :: rest => rest.head?.any Char.isDigit
  | c :: _ => c.isDigit
  | [] => false

/-- The literals of code and the characters around them.  `before` is the character to the left, and
`skip` counts the characters still to pass over because a lexeme already covers them. -/
def pieces (before : Option Char) (skip : Nat) : List Char → List Piece
  | [] => []
  | c :: rest =>
    match skip with
    | more + 1 => pieces (some c) more rest
    | 0 =>
      if startsLexeme (c :: rest) && !attaches before then
        let (kind, length) := lexeme (c :: rest)
        let covered := (c :: rest).take length
        let isolated := !attaches ((c :: rest).drop length).head?
        (if isolated then [.literal kind covered] else covered.map .verbatim) ++
          pieces (some c) (length - 1) rest
      else .verbatim c :: pieces (some c) 0 rest

/-! ### The pieces make up the code -/

theorem lexeme_pos {text : List Char} (h : startsLexeme text = true) : 0 < (lexeme text).2 := by
  unfold startsLexeme at h
  split at h
  · rename_i rest
    have none : ('.' :: rest).takeWhile Char.isDigit = [] := by simp
    have fraction : 0 < fractionLength ('.' :: rest) := by
      rw [fractionLength]
      omega
    simp only [lexeme, none, List.length_nil, List.drop_zero]
    omega
  · rename_i c rest _
    have whole : 0 < ((c :: rest).takeWhile Char.isDigit).length := by
      rw [List.takeWhile_cons_of_pos h, List.length_cons]
      omega
    simp only [lexeme]
    omega
  · exact absurd h (by simp)

/-- The texts of the pieces, put together, are the code behind the characters passed over. -/
theorem flatMap_text_pieces (before : Option Char) (skip : Nat) (text : List Char) :
    (pieces before skip text).flatMap Piece.text = text.drop skip := by
  fun_induction pieces before skip text with
  | case1 => simp
  | case2 before c rest more ih => simpa using ih
  | case3 before c rest starts kind length hlex covered isolated ih =>
    have pos : 0 < length := by
      have : 0 < (lexeme (c :: rest)).2 := lexeme_pos (by simp_all)
      rwa [hlex] at this
    have whole : covered ++ rest.drop (length - 1) = c :: rest := by
      obtain ⟨n, rfl⟩ : ∃ n, length = n + 1 := ⟨length - 1, by omega⟩
      simp [covered]
    have verbatim (cs : List Char) : (cs.map Piece.verbatim).flatMap Piece.text = cs := by
      induction cs with
      | nil => rfl
      | cons d ds ihd => simp_all [Piece.text]
    rw [List.flatMap_append, ih]
    split <;> simp [Piece.text, verbatim, whole]
  | case4 before c rest _ ih => simp [Piece.text, ih]

end Literal

end ShaderLink
