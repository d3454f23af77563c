/-
Files that end inside a statement.

A statement that a keyword opens needs tokens behind the keyword: a constant three and a
semicolon behind those, a precision three, and the others one.  Where they are missing the
reading has come to the end of the file, and what it cites is the last token there is.  No
other failure depends on what stands behind the statement that fails, and of the statements
before it only the first token behind each of them matters, which is there already.  So a
failure of another kind stays the same however the file goes on.

To follow a reading is to add each statement to the unit at once, which gives the units that
putting all statements together does.  The failures of a reading are told by induction on it.
-/
import Mathlib.Data.List.TakeWhile
import ShaderLink.Proofs.Lists
import ShaderLink.Proofs.Unit.Script

namespace ShaderLink

/-- The failure that a file ends inside a statement. -/
def BuildError.IsExhausted : BuildError → Prop
  | .exhausted _ _ _ => True
  | _ => False

/-! ### Failures of one statement -/

namespace Statement

variable {file : String} {keyword : Token} {rest after more : List Token} {s : Statement}
  {error : BuildError}

/-- The tokens behind a keyword do not complete its statement. -/
def Unfinished (word : String) (inner : List Token) : Prop :=
  (word ∈ ["const_int", "const_float"] ∧ ∀ token ∈ inner.drop 3, token.text ≠ ";") ∨
    (word = "precision" ∧ inner.length < 3) ∨
    (word ∈ ["#include", "#version", "#type"] ∧ inner = [])

/-- A statement that fails for a token of its own, whatever stands behind it. -/
inductive Faulty (file : String) (keyword : Token) : List Token → BuildError → Prop
  | version {number : Token} {rest : List Token} (opens : keyword.text = "#version")
      (fault : Text.count32? number.text = none) :
      Faulty file keyword (number :: rest) (.malformedVersion file number.line number.text)
  | stage {label : Token} {rest : List Token} (opens : keyword.text = "#type")
      (fault : Stage.ofName? label.text = none) :
      Faulty file keyword (label :: rest) (.illegalStage file label.line label.text)

theorem unfinished_iff_constant? {kind : ConstKind} (opens : keyword.text = Spacing.joined kind) :
    Unfinished keyword.text rest ↔ constant? kind keyword rest = none := by
  have hunfinished : Unfinished keyword.text rest ↔ ∀ token ∈ rest.drop 3, token.text ≠ ";" := by
    rw [opens]
    cases kind with
    | int => simp [Unfinished, Spacing.joined, ConstKind.keyword]
    | float => simp [Unfinished, Spacing.joined, ConstKind.keyword]
  rw [hunfinished]
  rcases rest with _ | ⟨name, _ | ⟨sign, _ | ⟨first, rest⟩⟩⟩
  · simp [constant?]
  · simp [constant?]
  · simp [constant?]
  · show (∀ token ∈ rest, token.text ≠ ";") ↔ _
    have hall : (∀ token ∈ rest, token.text ≠ ";") ↔ rest.dropWhile (!isStop ·) = [] := by
      simp [List.dropWhile_eq_nil_iff, isStop]
    rw [hall, constant?]
    cases rest.dropWhile (!isStop ·) with
    | nil => simp
    | cons stop after => simp

theorem unfinished_iff_precision? (opens : keyword.text = "precision") :
    Unfinished keyword.text rest ↔ precision? keyword rest = none := by
  rw [opens]
  rcases rest with _ | ⟨qualifier, _ | ⟨type, _ | ⟨stop, rest⟩⟩⟩
  all_goals simp [Unfinished, precision?]

theorem unfinished_iff_inclusion? (opens : keyword.text = "#include") :
    Unfinished keyword.text rest ↔ inclusion? keyword rest = none := by
  rw [opens]
  cases rest with
  | nil => simp [Unfinished, inclusion?]
  | cons path rest => simp [Unfinished, inclusion?]

private theorem faulty_cons_iff {next : Token} :
    Faulty file keyword (next :: rest) error ↔
      (keyword.text = "#version" ∧ Text.count32? next.text = none ∧
        error = .malformedVersion file next.line next.text) ∨
      (keyword.text = "#type" ∧ Stage.ofName? next.text = none ∧
        error = .illegalStage file next.line next.text) := by
  constructor
  · rintro (⟨hopens, hfault⟩ | ⟨hopens, hfault⟩)
    · exact .inl ⟨hopens, hfault, rfl⟩
    · exact .inr ⟨hopens, hfault, rfl⟩
  · rintro (⟨hopens, hfault, rfl⟩ | ⟨hopens, hfault, rfl⟩)
    · exact .version hopens hfault
    · exact .stage hopens hfault

private theorem not_faulty_nil : ¬Faulty file keyword [] error := by
  rintro ⟨⟩

/-- **A statement fails when it is unfinished or faulty, and in no other way.** -/
theorem read_eq_error_iff :
    read file keyword rest = .error error ↔
      (Unfinished keyword.text rest ∧ error = exhausted file (keyword :: rest)) ∨
        Faulty file keyword rest error := by
  -- A faulty statement is opened by one of two keywords.
  have hfaulty {word : String} (opens : keyword.text = word)
      (other : word ≠ "#version" ∧ word ≠ "#type") : ¬Faulty file keyword rest error := by
    rintro (⟨hversion, -⟩ | ⟨hstage, -⟩)
    · exact other.1 (opens.symm.trans hversion)
    · exact other.2 (opens.symm.trans hstage)
  unfold read
  dsimp only
  split
  · rename_i hkeyword
    have hunfinished : Unfinished keyword.text rest ↔ constant? .int keyword rest = none :=
      unfinished_iff_constant? hkeyword
    rw [or_iff_left (hfaulty hkeyword (by decide)), hunfinished]
    cases constant? .int keyword rest with
    | none => simp [eq_comm]
    | some result => simp
  · rename_i hkeyword
    have hunfinished : Unfinished keyword.text rest ↔ constant? .float keyword rest = none :=
      unfinished_iff_constant? hkeyword
    rw [or_iff_left (hfaulty hkeyword (by decide)), hunfinished]
    cases constant? .float keyword rest with
    | none => simp [eq_comm]
    | some result => simp
  · rename_i hkeyword
    rw [or_iff_left (hfaulty hkeyword (by decide)), unfinished_iff_precision? hkeyword]
    cases precision? keyword rest with
    | none => simp [eq_comm]
    | some result => simp
  · rename_i hkeyword
    rw [or_iff_left (hfaulty hkeyword (by decide)), unfinished_iff_inclusion? hkeyword]
    cases inclusion? keyword rest with
    | none => simp [eq_comm]
    | some result => simp
  · rename_i hkeyword
    cases rest with
    | nil => simp [hkeyword, Unfinished, not_faulty_nil, eq_comm]
    | cons number more =>
        rw [faulty_cons_iff]
        cases hcount : Text.count32? number.text with
        | none =>
            simp only [hkeyword, Unfinished, hcount]
            simp [eq_comm]
        | some count => simp [hkeyword, Unfinished, hcount]
  · rename_i hkeyword
    cases rest with
    | nil => simp [hkeyword, Unfinished, not_faulty_nil, eq_comm]
    | cons label more =>
        rw [faulty_cons_iff]
        cases hstage : Stage.ofName? label.text with
        | none => simp [hkeyword, Unfinished, hstage, eq_comm]
        | some found => simp [hkeyword, Unfinished, hstage]
  · rename_i h1 h2 h3 h4 h5 h6
    have hunfinished : ¬Unfinished keyword.text rest := by
      simp [Unfinished, show keyword.text ≠ "const_int" from h1,
        show keyword.text ≠ "const_float" from h2, show keyword.text ≠ "precision" from h3,
        show keyword.text ≠ "#include" from h4, show keyword.text ≠ "#version" from h5,
        show keyword.text ≠ "#type" from h6]
    simp [hunfinished, hfaulty rfl ⟨h5, h6⟩]

/-! ### Statements in front of more tokens -/

/-- Of the tokens behind a statement only the first matters. -/
private theorem ReadBefore.append (h : s.ReadBefore after) (nonempty : after ≠ [])
    (more : List Token) : s.ReadBefore (after ++ more) := by
  have hhead : (after ++ more).head? = after.head? := List.head?_append_of_ne_nil _ nonempty
  cases s with
  | constant kind keyword name sign first inner stop => exact h
  | precision keyword qualifier type stop => exact h
  | inclusion keyword path => exact h
  | version keyword number profile =>
      obtain ⟨hkeyword, hcount, hon, hoff⟩ := h
      refine ⟨hkeyword, hcount, hon, ?_⟩
      rw [hhead]
      exact hoff
  | stage keyword label found => exact h
  | code first inner =>
      obtain ⟨hfirst, hinner, hstop, hends⟩ := h
      refine ⟨hfirst, hinner, hstop, ?_⟩
      rw [hhead]
      exact hends

/-- A statement that is read as before leaves more tokens behind it. -/
theorem read_append (h : read file keyword rest = .ok (s, after))
    (stable : s.ReadBefore (after ++ more)) :
    read file keyword (rest ++ more) = .ok (s, after ++ more) := by
  obtain ⟨htokens, -⟩ := read_eq_ok_iff.mp h
  refine read_eq_ok_iff.mpr ⟨?_, stable⟩
  rw [← List.append_assoc, htokens]
  rfl

theorem Faulty.append (h : Faulty file keyword rest error) (more : List Token) :
    Faulty file keyword (rest ++ more) error := by
  cases h with
  | version opens fault => exact .version opens fault
  | stage opens fault => exact .stage opens fault

private theorem Faulty.not_isExhausted (h : Faulty file keyword rest error) :
    ¬error.IsExhausted := by
  cases h with
  | version opens fault => exact not_false
  | stage opens fault => exact not_false

theorem isExhausted_exhausted (file : String) (tokens : List Token) :
    (exhausted file tokens).IsExhausted := by
  unfold exhausted
  split
  · trivial
  · trivial

/-- The failure cites the last of all tokens, which is the last of those that end them. -/
theorem exhausted_append (file : String) (front : List Token) (nonempty : rest ≠ []) :
    exhausted file (front ++ rest) = exhausted file rest := by
  rw [exhausted, exhausted, List.getLast?_append_of_ne_nil _ nonempty]

end Statement

open Statement (exhausted)

/-- Tokens that end inside a statement, behind statements that are read to their ends. -/
inductive EndsInside : List Token → Prop
  | here {keyword : Token} {inner : List Token}
      (unfinished : Statement.Unfinished keyword.text inner) : EndsInside (keyword :: inner)
  | behind {s : Statement} {after : List Token} (read : s.ReadBefore after)
      (inside : EndsInside after) : EndsInside (s.tokens ++ after)

theorem EndsInside.ne_nil {tokens : List Token} (h : EndsInside tokens) : tokens ≠ [] := by
  cases h with
  | here unfinished => simp
  | behind read inside => simp [Statement.tokens_ne_nil]

/-! ### Units statement by statement -/

namespace ShaderUnit

/-- The unit of a file of which nothing has been read. -/
def blank (path : String) : ShaderUnit := ofStatements path [] Table.empty

/-- The unit with what a statement declares and leaves to the body. -/
def add (settings : Settings) (path : String) (unit : ShaderUnit) (s : Statement) :
    Except BuildError ShaderUnit := do
  let constants ← s.addConstant settings path unit.constants
  return { unit with
    version := s.version?.or unit.version
    stage := s.stage?.or unit.stage
    precision := s.defaultPrecision?.or unit.precision
    includes := unit.includes ++ s.includedPath?.toList
    constants
    body := unit.body ++ s.bodyTokens }

/-! What each form of statement changes of a unit. -/

section

variable (settings : Settings) (path : String) (unit : ShaderUnit) (keyword : Token)

theorem add_constant (kind : ConstKind) (name sign first : Token) (more : List Token)
    (stop : Token) :
    unit.add settings path (.constant kind keyword name sign first more stop) = do
      let initializer := String.join ((first :: more).map (·.text))
      let c ← Statement.declaredConstant settings path kind keyword name initializer
      return { unit with constants := unit.constants.insert c } := by
  rw [add, Statement.addConstant, bind_assoc]
  refine bind_congr_of_ok fun c _ => ?_
  show Except.ok { unit with
    includes := unit.includes ++ [], constants := _, body := unit.body ++ [] } = _
  rw [List.append_nil, List.append_nil]
  rfl

theorem add_precision (qualifier type stop : Token) :
    unit.add settings path (.precision keyword qualifier type stop) = .ok
      (if type.text = "float" then { unit with precision := some ⟨qualifier.text, keyword.line⟩ }
      else { unit with body := unit.body ++ [keyword, qualifier, type, stop] }) := by
  by_cases htype : type.text = "float"
  all_goals
    simp [add, Statement.addConstant, Statement.version?, Statement.stage?,
      Statement.defaultPrecision?, Statement.includedPath?, Statement.bodyTokens, htype,
      bind, Except.bind, pure, Except.pure]

theorem add_inclusion (included : Token) :
    unit.add settings path (.inclusion keyword included) = .ok { unit with
      includes := unit.includes ++
        [String.ofList (Text.stripEnds (· == '"') included.text.toList)] } := by
  show Except.ok { unit with includes := unit.includes ++ [_], body := unit.body ++ [] } = _
  rw [List.append_nil]

theorem add_version (number : Token) (profile : Option Token) :
    unit.add settings path (.version keyword number profile) = .ok { unit with
      version := (Statement.version keyword number profile).version?.or unit.version } := by
  show Except.ok { unit with
    version := _, includes := unit.includes ++ [], body := unit.body ++ [] } = _
  rw [List.append_nil, List.append_nil]

theorem add_stage (label : Token) (found : Stage) :
    unit.add settings path (.stage keyword label found) =
      .ok { unit with stage := some ⟨found, keyword.line⟩ } := by
  show Except.ok { unit with
    stage := some ⟨found, keyword.line⟩, includes := unit.includes ++ [],
    body := unit.body ++ [] } = _
  rw [List.append_nil, List.append_nil]

theorem add_code (more : List Token) :
    unit.add settings path (.code keyword more) =
      .ok { unit with body := unit.body ++ keyword :: more } := by
  show Except.ok { unit with
    includes := unit.includes ++ [], body := unit.body ++ keyword :: more } = _
  rw [List.append_nil]

end

/-- The unit when the statements of tokens are added one by one. -/
def follow (settings : Settings) (path : String) (unit : ShaderUnit) (tokens : List Token) :
    Except BuildError ShaderUnit := do
  let reading := Reading.ofTokens path tokens
  let unit ← reading.statements.foldlM (add settings path) unit
  match reading.failure with
  | some error => .error error
  | none => .ok unit

variable {settings : Settings} {path : String} {unit : ShaderUnit} {keyword : Token}
  {rest after : List Token} {s : Statement}

theorem follow_nil : follow settings path unit [] = .ok unit := by
  rw [follow, Reading.ofTokens]
  rfl

theorem follow_of_ok (h : Statement.read path keyword rest = .ok (s, after)) :
    follow settings path unit (keyword :: rest) =
      unit.add settings path s >>= fun unit => follow settings path unit after := by
  rw [follow, Reading.ofTokens_of_ok h]
  dsimp only [Reading.cons]
  rw [List.foldlM_cons, bind_assoc]
  rfl

theorem follow_of_error {error : BuildError} (h : Statement.read path keyword rest = .error error) :
    follow settings path unit (keyword :: rest) = .error error := by
  rw [follow, Reading.ofTokens_of_error h]
  rfl

/-- What another statement declares stands in front of what those behind it do. -/
private theorem filterMap_cons_eq {α : Type} (f : Statement → Option α) (s : Statement)
    (rest : List Statement) : (s :: rest).filterMap f = (f s).toList ++ rest.filterMap f := by
  rw [List.filterMap_cons]
  cases f s with
  | none => rfl
  | some a => rfl

/-- The last of several declarations counts. -/
private theorem getLast?_or_or {α : Type} (found : Option α) (more : List α) (before : Option α) :
    more.getLast?.or (found.or before) = (found.toList ++ more).getLast?.or before := by
  cases found with
  | none => rfl
  | some a => exact (getLast?_cons_or a more before).symm

/-- Adding statements one by one collects what they declare. -/
theorem foldlM_add (statements : List Statement) :
    statements.foldlM (add settings path) unit = do
      let constants ← statements.foldlM (Statement.addConstant settings path) unit.constants
      return { unit with
        version := (statements.filterMap Statement.version?).getLast?.or unit.version
        stage := (statements.filterMap Statement.stage?).getLast?.or unit.stage
        precision := (statements.filterMap Statement.defaultPrecision?).getLast?.or unit.precision
        includes := unit.includes ++ statements.filterMap Statement.includedPath?
        constants
        body := unit.body ++ statements.flatMap Statement.bodyTokens } := by
  induction statements generalizing unit with
  | nil => simp
  | cons s rest ih =>
      rw [List.foldlM_cons, List.foldlM_cons, add, bind_assoc, bind_assoc]
      refine bind_congr_of_ok fun constants _ => ?_
      rw [pure_bind, ih]
      refine bind_congr_of_ok fun later _ => ?_
      simp only [filterMap_cons_eq, getLast?_or_or, List.flatMap_cons, List.append_assoc]

/-- **Reading a file from its first token on gives its unit.** -/
theorem follow_blank (settings : Settings) (path : String) (tokens : List Token) :
    follow settings path (blank path) tokens = ofTokens settings path tokens := by
  rw [follow, foldlM_add, ofTokens, ofReading, bind_assoc]
  refine bind_congr_of_ok fun constants _ => ?_
  rw [pure_bind]
  cases (Reading.ofTokens path tokens).failure with
  | some error => rfl
  | none => simp [blank, ofStatements]

/-! ### Failures of a file -/

variable {tokens more : List Token} {error : BuildError}

/-- Only a constant that a setting does not fit is not added. -/
private theorem of_add_eq_error (h : add settings path unit s = .error error) :
    ¬error.IsExhausted ∧ ∀ after more, s.ReadBefore after → s.ReadBefore more := by
  rcases bind_eq_error_iff.mp h with hconstant | ⟨constants, -, hnone⟩
  · unfold Statement.addConstant at hconstant
    split at hconstant
    · refine ⟨?_, fun after more hread => hread⟩
      rcases bind_eq_error_iff.mp hconstant with hdeclared | ⟨c, -, hnone⟩
      · unfold Statement.declaredConstant at hdeclared
        split at hdeclared
        · split at hdeclared
          · cases hdeclared
          · cases hdeclared
            exact not_false
        · cases hdeclared
      · cases hnone
    · cases hconstant
  · cases hnone

/-- **A reading that fails has come to the end of the file inside a statement, and cites its last
token, or it fails in the same way however the file goes on.** -/
theorem follow_eq_error (failed : follow settings path unit tokens = .error error) :
    (error = exhausted path tokens ∧ EndsInside tokens) ∨
      (¬error.IsExhausted ∧ ∀ more, follow settings path unit (tokens ++ more) = .error error) := by
  induction tokens using Reading.ofTokens.induct path generalizing unit with
  | case1 =>
      rw [follow_nil] at failed
      cases failed
  | case2 keyword rest s after hread ih =>
      obtain ⟨htokens, hbefore⟩ := Statement.read_eq_ok_iff.mp hread
      rw [follow_of_ok hread] at failed
      rcases bind_eq_error_iff.mp failed with hadd | ⟨later, hadd, hafter⟩
      · -- A constant is read up to its semicolon, so nothing behind it matters.
        obtain ⟨hother, hstable⟩ := of_add_eq_error hadd
        refine .inr ⟨hother, fun more => ?_⟩
        have hmore := Statement.read_append hread (hstable after (after ++ more) hbefore)
        rw [List.cons_append, follow_of_ok hmore, hadd]
        rfl
      · have hnonempty : after ≠ [] := by
          rintro rfl
          rw [follow_nil] at hafter
          cases hafter
        rcases ih hafter with ⟨hexhausted, hinside⟩ | ⟨hother, hstable⟩
        · refine .inl ⟨?_, ?_⟩
          · rw [hexhausted, ← htokens, Statement.exhausted_append path s.tokens hnonempty]
          · rw [← htokens]
            exact .behind hbefore hinside
        · refine .inr ⟨hother, fun more => ?_⟩
          have hmore := Statement.read_append hread (hbefore.append hnonempty more)
          rw [List.cons_append, follow_of_ok hmore, hadd]
          exact hstable more
  | case3 keyword rest found hread =>
      rw [follow_of_error hread] at failed
      cases failed
      rcases Statement.read_eq_error_iff.mp hread with ⟨hunfinished, hexhausted⟩ | hfaulty
      · exact .inl ⟨hexhausted, .here hunfinished⟩
      · refine .inr ⟨hfaulty.not_isExhausted, fun more => ?_⟩
        have hmore := Statement.read_eq_error_iff.mpr (.inr (hfaulty.append more))
        exact follow_of_error hmore

end ShaderUnit

/-- **A reading comes to the end of its file inside a statement exactly when its tokens end
there.** -/
theorem Reading.failure_eq_exhausted_iff {path : String} {tokens : List Token} :
    (ofTokens path tokens).failure = some (exhausted path tokens) ↔ EndsInside tokens := by
  constructor
  · intro h
    induction tokens using ofTokens.induct path with
    | case1 =>
        rw [ofTokens] at h
        cases h
    | case2 keyword rest s after hread ih =>
        obtain ⟨htokens, hbefore⟩ := Statement.read_eq_ok_iff.mp hread
        rw [ofTokens_of_ok hread, ← htokens] at h
        have hnonempty : after ≠ [] := by
          rintro rfl
          rw [ofTokens] at h
          cases h
        rw [Statement.exhausted_append path s.tokens hnonempty] at h
        rw [← htokens]
        exact .behind hbefore (ih h)
    | case3 keyword rest error hread =>
        rw [ofTokens_of_error hread] at h
        rcases Statement.read_eq_error_iff.mp hread with ⟨hunfinished, -⟩ | hfaulty
        · exact .here hunfinished
        · rw [Option.some.inj h] at hfaulty
          exact absurd (Statement.isExhausted_exhausted ..) hfaulty.not_isExhausted
  · intro h
    induction h with
    | here unfinished =>
        rw [ofTokens_of_error (Statement.read_eq_error_iff.mpr (.inl ⟨unfinished, rfl⟩))]
    | behind read inside ih =>
        rw [Script.ofTokens_append read, Statement.exhausted_append path _ inside.ne_nil]
        exact ih

end ShaderLink
