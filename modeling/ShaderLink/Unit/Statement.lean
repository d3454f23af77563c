/-
Statements of a shader file.

The tokens of a file are cut into statements.  A keyword opens a statement of
its own form: a constant, a precision, an include, a version or a stage.
Whatever else stands there is code, which runs up to and including its semicolon
or to the next keyword.

A statement keeps the tokens it was made of, so nothing is lost by cutting:
`tokens_read` says that the tokens of a statement and those after it are the
tokens it was read from.  What a statement declares is read off its tokens.
-/
import ShaderLink.Constant.Basic
import ShaderLink.Error
import ShaderLink.Source.Line
import ShaderLink.Stage
import ShaderLink.Text.Numeral

namespace ShaderLink

/-- A statement with the tokens that make it up. -/
inductive Statement where
  /-- A constant: its keyword, its name, the token that stands for the equals sign, the tokens of
  its initializer, one at least, and the semicolon. -/
  | constant (kind : ConstKind) (keyword name sign first : Token) (more : List Token) (stop : Token)
  /-- A precision: its keyword, the qualifier, the type it is for, and the token that ends it. -/
  | precision (keyword qualifier type stop : Token)
  /-- An include: its keyword and the path. -/
  | inclusion (keyword path : Token)
  /-- A version: its keyword, the number, and the profile when one follows on the number's line. -/
  | version (keyword number : Token) (profile : Option Token)
  /-- A stage: its keyword and the token that names the stage. -/
  | stage (keyword label : Token) (stage : Stage)
  /-- Code. -/
  | code (first : Token) (more : List Token)
  deriving DecidableEq

namespace Statement

def tokens : Statement → List Token
  | .constant _ keyword name sign first more stop =>
    keyword :: name :: sign :: first :: (more ++ [stop])
  | .precision keyword qualifier type stop => [keyword, qualifier, type, stop]
  | .inclusion keyword path => [keyword, path]
  | .version keyword number profile => keyword :: number :: profile.toList
  | .stage keyword label _ => [keyword, label]
  | .code first more => first :: more

/-- The tokens that open a statement of their own. -/
def keywords : List String :=
  ["const_int", "const_float", "precision", "#include", "#version", "#type"]

/-- The token that ends a constant or a piece of code. -/
def isStop (token : Token) : Bool := token.text == ";"

/-! ### Reading one statement

Each reader takes the opening token and the tokens after it.  A reader that
returns nothing has met the end of the file.
-/

def constant? (kind : ConstKind) (keyword : Token) : List Token → Option (Statement × List Token)
  | name :: sign :: first :: rest =>
    match rest.dropWhile (!isStop ·) with
    | stop :: after =>
      some (.constant kind keyword name sign first (rest.takeWhile (!isStop ·)) stop, after)
    | [] => none
  | _ => none

def precision? (keyword : Token) : List Token → Option (Statement × List Token)
  | qualifier :: type :: stop :: after => some (.precision keyword qualifier type stop, after)
  | _ => none

def inclusion? (keyword : Token) : List Token → Option (Statement × List Token)
  | path :: after => some (.inclusion keyword path, after)
  | _ => none

/-- The version with this number, and the tokens after it. -/
def versionOf (keyword number : Token) : List Token → Statement × List Token
  | [] => (.version keyword number none, [])
  | next :: after =>
    if next.line = number.line then (.version keyword number (some next), after)
    else (.version keyword number none, next :: after)

/-- The tokens that belong to the code a token opens, and the tokens after them. -/
def restOfCode (first : Token) : List Token → List Token × List Token
  | [] => ([], [])
  | next :: rest =>
    if isStop first || keywords.contains next.text then ([], next :: rest)
    else
      let (more, after) := restOfCode next rest
      (next :: more, after)

/-- The failure of a file that ends inside a statement: it cites the last of its tokens. -/
def exhausted (file : String) (tokens : List Token) : BuildError :=
  match tokens.getLast? with
  | some last => .exhausted file last.line last.text
  | none => .exhausted file 0 ""

/-- The statement that a token and those after it begin with, and the tokens after it. -/
def read (file : String) (keyword : Token) (rest : List Token) :
    Except BuildError (Statement × List Token) :=
  let complete (found : Option (Statement × List Token)) :=
    match found with
    | some result => Except.ok result
    | none => .error (exhausted file (keyword :: rest))
  match keyword.text with
  | "const_int" => complete (constant? .int keyword rest)
  | "const_float" => complete (constant? .float keyword rest)
  | "precision" => complete (precision? keyword rest)
  | "#include" => complete (inclusion? keyword rest)
  | "#version" =>
    match rest with
    | [] => complete none
    | number :: after =>
      if (Text.count32? number.text).isSome then .ok (versionOf keyword number after)
      else .error (.malformedVersion file number.line number.text)
  | "#type" =>
    match rest with
    | [] => complete none
    | label :: after =>
      match Stage.ofName? label.text with
      | some found => .ok (.stage keyword label found, after)
      | none => .error (.illegalStage file label.line label.text)
  | _ =>
    let (more, after) := restOfCode keyword rest
    .ok (.code keyword more, after)

/-! ### No token is lost -/

private theorem tokens_constant? {kind : ConstKind} {keyword : Token} {rest after : List Token}
    {s : Statement} (h : constant? kind keyword rest = some (s, after)) :
    s.tokens ++ after = keyword :: rest := by
  unfold constant? at h
  split at h
  · rename_i name sign first rest
    split at h
    · rename_i stop tail hdrop
      cases h
      have := List.takeWhile_append_dropWhile (p := (!isStop ·)) (l := rest)
      rw [hdrop] at this
      simp [tokens, this]
    · exact absurd h (by simp)
  · exact absurd h (by simp)

private theorem tokens_restOfCode (first : Token) (rest : List Token) :
    (restOfCode first rest).1 ++ (restOfCode first rest).2 = rest := by
  fun_induction restOfCode first rest with
  | case1 => rfl
  | case2 => rfl
  | case3 first next rest _ more after hcode ih => simp_all

/-- The tokens of a statement and those after it are the tokens it was read from. -/
theorem tokens_read {file : String} {keyword : Token} {rest after : List Token} {s : Statement}
    (h : read file keyword rest = .ok (s, after)) : s.tokens ++ after = keyword :: rest := by
  unfold read at h
  dsimp only at h
  split at h
  · cases hc : constant? .int keyword rest with
    | none => simp [hc] at h
    | some found =>
      rw [hc] at h
      cases h
      exact tokens_constant? hc
  · cases hc : constant? .float keyword rest with
    | none => simp [hc] at h
    | some found =>
      rw [hc] at h
      cases h
      exact tokens_constant? hc
  · rcases rest with _ | ⟨a, _ | ⟨b, _ | ⟨c, rest⟩⟩⟩ <;> simp [precision?] at h
    obtain ⟨rfl, rfl⟩ := h
    rfl
  · rcases rest with _ | ⟨a, rest⟩ <;> simp [inclusion?] at h
    obtain ⟨rfl, rfl⟩ := h
    rfl
  · split at h
    · simp at h
    · rename_i number more
      split at h
      · simp only [Except.ok.injEq] at h
        rcases more with _ | ⟨next, more⟩
        · simp only [versionOf, Prod.mk.injEq] at h
          obtain ⟨rfl, rfl⟩ := h
          rfl
        · simp only [versionOf] at h
          split at h
          all_goals
            cases h
            rfl
      · simp at h
  · split at h
    · simp at h
    · split at h
      · simp only [Except.ok.injEq, Prod.mk.injEq] at h
        obtain ⟨rfl, rfl⟩ := h
        rfl
      · simp at h
  · simp only [Except.ok.injEq, Prod.mk.injEq] at h
    obtain ⟨rfl, rfl⟩ := h
    simp [tokens, tokens_restOfCode]

theorem tokens_ne_nil (s : Statement) : s.tokens ≠ [] := by
  cases s <;> simp [tokens]

theorem length_of_read {file : String} {keyword : Token} {rest after : List Token}
    {s : Statement} (h : read file keyword rest = .ok (s, after)) :
    after.length < (keyword :: rest).length := by
  have := congrArg List.length (tokens_read h)
  have := List.length_pos_iff.mpr s.tokens_ne_nil
  rw [List.length_append] at *
  omega

end Statement

/-- Statements read from a file, and the failure that ended the reading early. -/
structure Reading where
  statements : List Statement
  failure : Option BuildError
  deriving DecidableEq

namespace Reading

/-- A statement before a reading. -/
def cons (s : Statement) (reading : Reading) : Reading :=
  { reading with statements := s :: reading.statements }

/-- The statements that tokens make up. -/
def ofTokens (file : String) (tokens : List Token) : Reading :=
  match tokens with
  | [] => ⟨[], none⟩
  | keyword :: rest =>
    match _h : Statement.read file keyword rest with
    | .ok (s, after) => (ofTokens file after).cons s
    | .error error => ⟨[], some error⟩
termination_by tokens.length
decreasing_by exact Statement.length_of_read ‹_›

end Reading

end ShaderLink
