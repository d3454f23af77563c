/-
The constants that a unit declares.

A later declaration of a name takes the place of an earlier one, so the constants of
a unit are those that survive: each is declared by a statement behind which no other
declares its name.  Its value has its kind or is an expression, and its name and its
value stand on one line.
-/
import ShaderLink.Proofs.Constant.Table
import ShaderLink.Proofs.Literal.Sharing
import ShaderLink.Proofs.Unit.Tokens

namespace ShaderLink

/-! ### Constants that fit -/

/-- A constant as a declaration can print it. -/
structure Constant.WellFormed (c : Constant) : Prop where
  /-- A number is of the kind of the constant. -/
  fits : ∀ kind, c.value.kind? = some kind → c.kind = kind
  name : Text.OneLine c.name
  value : Text.OneLine c.value.text

namespace ConstValue

/-- A value asked for as a kind stays an expression or becomes a number of the kind. -/
theorem coerce?_cases {kind : ConstKind} {value result : ConstValue}
    (h : value.coerce? kind = some result) :
    (∃ text, value = .expr text ∧ result = .expr text) ∨
      (∃ found, value.kind? = some found) ∧ result.kind? = some kind := by
  cases value with
  | int i =>
      refine Or.inr ⟨⟨.int, rfl⟩, ?_⟩
      rw [← Option.some.inj h]
      cases kind <;> rfl
  | float x =>
      refine Or.inr ⟨⟨.float, rfl⟩, ?_⟩
      cases kind with
      | int => exact absurd h (by simp [coerce?])
      | float =>
          rw [← Option.some.inj h]
          rfl
  | expr text => exact Or.inl ⟨text, rfl, (Option.some.inj h).symm⟩

/-- What is read is a number, or the text as it stands. -/
private theorem read_cases (text : String) :
    read text = .expr text ∨ ∃ found, (read text).kind? = some found := by
  unfold read
  split
  · exact Or.inr ⟨.int, rfl⟩
  · split
    · exact Or.inr ⟨.float, rfl⟩
    · exact Or.inl rfl

/-- An initializer gives a number of the kind asked for, or stays as it stands. -/
theorem initial_cases (kind : ConstKind) (text : String) :
    ((read text).coerce? kind).getD (.expr text) = .expr text ∨
      (((read text).coerce? kind).getD (.expr text)).kind? = some kind := by
  cases hcoerce : (read text).coerce? kind with
  | none => exact Or.inl rfl
  | some value =>
      rcases coerce?_cases hcoerce with ⟨expr, hread, rfl⟩ | ⟨-, hkind⟩
      · rcases read_cases text with hexpr | ⟨found, hfound⟩
        · rw [hread] at hexpr
          exact Or.inl hexpr
        · rw [hread] at hfound
          exact absurd hfound (by simp [kind?])
      · exact Or.inr hkind

private theorem oneLine_text {kind : ConstKind} {value : ConstValue}
    (h : value.kind? = some kind) : Text.OneLine value.text := by
  intro hc
  cases value with
  | int i => exact absurd (Text.isNumeralChar_of_mem_int hc) (by decide)
  | float x => exact absurd (Binary32.isNumberChar_of_mem_toText hc) (by decide)
  | expr text => exact absurd h (by simp [kind?])

end ConstValue

theorem Settings.kind?_of_number? {settings : Settings} {name : String} {value : ConstValue}
    (h : settings.number? name = some value) : ∃ found, value.kind? = some found := by
  obtain ⟨setting, -, hvalue⟩ := Option.bind_eq_some_iff.mp h
  cases setting with
  | flag b => exact absurd hvalue (by simp [Setting.number?])
  | int i =>
      rw [← Option.some.inj hvalue]
      exact ⟨.int, rfl⟩
  | float x =>
      rw [← Option.some.inj hvalue]
      exact ⟨.float, rfl⟩

namespace Statement

variable {settings : Settings} {path : String} {c : Constant}

/-! ### Declarations -/

def constantName? : Statement → Option String
  | .constant _ _ name _ _ _ _ => some name.text
  | _ => none

/-- A statement declares a constant in a file. -/
def Declares (settings : Settings) (path : String) (s : Statement) (c : Constant) : Prop :=
  ∃ kind keyword name sign first more stop,
    s = .constant kind keyword name sign first more stop ∧
      declaredConstant settings path kind keyword name
        (String.join ((first :: more).map (·.text))) = .ok c

section Declaration

variable {kind : ConstKind} {keyword name : Token} {initializer : String}

/-- What a declaration gives: a number that is set for the name, at no line, or what the
initializer spells, at the line of the keyword. -/
theorem declaredConstant_eq_ok_iff :
    declaredConstant settings path kind keyword name initializer = .ok c ↔
      (∃ number value, settings.number? name.text = some number ∧
        number.coerce? kind = some value ∧ c = ⟨name.text, kind, value, settingsOrigin, none⟩) ∨
      (settings.number? name.text = none ∧
        c = ⟨name.text, kind, ((ConstValue.read initializer).coerce? kind).getD (.expr initializer),
          path, some keyword.line⟩) := by
  unfold declaredConstant
  cases hset : settings.number? name.text with
  | some number =>
      cases hcoerce : number.coerce? kind with
      | some value => simp [hcoerce, eq_comm]
      | none => simp [hcoerce]
  | none => simp [eq_comm]

theorem name_of_declaredConstant
    (h : declaredConstant settings path kind keyword name initializer = .ok c) :
    c.name = name.text := by
  rcases declaredConstant_eq_ok_iff.mp h with ⟨_, _, -, -, rfl⟩ | ⟨-, rfl⟩
  · rfl
  · rfl

theorem value_of_declaredConstant
    (h : declaredConstant settings path kind keyword name initializer = .ok c) :
    c.kind = kind ∧ (c.value = .expr initializer ∨ c.value.kind? = some kind) := by
  rcases declaredConstant_eq_ok_iff.mp h with ⟨number, value, hset, hcoerce, rfl⟩ | ⟨-, rfl⟩
  · refine ⟨rfl, Or.inr ?_⟩
    rcases ConstValue.coerce?_cases hcoerce with ⟨text, rfl, -⟩ | ⟨-, hkind⟩
    · obtain ⟨found, hfound⟩ := Settings.kind?_of_number? hset
      exact absurd hfound (by simp [ConstValue.kind?])
    · exact hkind
  · exact ⟨rfl, ConstValue.initial_cases kind initializer⟩

private theorem wellFormed_of_declaredConstant (hname : Text.OneLine name.text)
    (hinitializer : Text.OneLine initializer)
    (h : declaredConstant settings path kind keyword name initializer = .ok c) : c.WellFormed := by
  obtain ⟨hkind, hvalue⟩ := value_of_declaredConstant h
  rw [← name_of_declaredConstant h] at hname
  rcases hvalue with hexpr | hnumber
  · refine ⟨?_, hname, ?_⟩
    · intro found hfound
      rw [hexpr] at hfound
      exact absurd hfound (by simp [ConstValue.kind?])
    · rw [hexpr]
      exact hinitializer
  · refine ⟨?_, hname, ConstValue.oneLine_text hnumber⟩
    intro found hfound
    rw [hnumber] at hfound
    rw [hkind]
    exact Option.some.inj hfound

end Declaration

theorem Declares.name {s : Statement} (h : s.Declares settings path c) :
    s.constantName? = some c.name := by
  obtain ⟨kind, keyword, name, sign, first, more, stop, rfl, hc⟩ := h
  rw [name_of_declaredConstant hc]
  rfl

theorem Declares.wellFormed {s : Statement} (h : s.Declares settings path c)
    (words : ∀ token ∈ s.tokens, Text.OneLine token.text) : c.WellFormed := by
  obtain ⟨kind, keyword, name, sign, first, more, stop, rfl, hc⟩ := h
  refine wellFormed_of_declaredConstant ?_ ?_ hc
  · exact words name (by simp [tokens])
  · refine Text.OneLine.join ?_
    intro text htext
    obtain ⟨token, htoken, rfl⟩ := List.mem_map.mp htext
    refine words token ?_
    rcases List.mem_cons.mp htoken with rfl | hmore
    · simp [tokens]
    · simp [tokens, hmore]

/-! ### Survival -/

/-- Statements declare a constant and do not declare its name again. -/
def Survives (settings : Settings) (path : String) (statements : List Statement) (c : Constant) :
    Prop :=
  ∃ before s after, statements = before ++ s :: after ∧ s.Declares settings path c ∧
    ∀ later ∈ after, later.constantName? ≠ some c.name

private theorem survives_cons {s : Statement} {rest : List Statement} :
    Survives settings path (s :: rest) c ↔
      Survives settings path rest c ∨
        s.Declares settings path c ∧ ∀ later ∈ rest, later.constantName? ≠ some c.name := by
  constructor
  · intro hsurvives
    obtain ⟨before, t, after, hsplit, hdeclares, hlater⟩ := hsurvives
    cases before with
    | nil =>
        obtain ⟨rfl, rfl⟩ := List.cons.inj hsplit
        exact Or.inr ⟨hdeclares, hlater⟩
    | cons first more =>
        obtain ⟨rfl, hrest⟩ := List.cons.inj hsplit
        exact Or.inl ⟨more, t, after, hrest, hdeclares, hlater⟩
  · intro hcases
    rcases hcases with ⟨before, t, after, rfl, hdeclares, hlater⟩ | ⟨hdeclares, hlater⟩
    · exact ⟨s :: before, t, after, rfl, hdeclares, hlater⟩
    · exact ⟨[], s, rest, rfl, hdeclares, hlater⟩

/-- What one statement does to the constants. -/
theorem mem_addConstant {table next : ConstantTable} {s : Statement}
    (h : s.addConstant settings path table = .ok next) :
    c ∈ next.entries ↔
      s.Declares settings path c ∨ (c ∈ table.entries ∧ s.constantName? ≠ some c.name) := by
  cases s with
  | constant kind keyword name sign first more stop =>
      obtain ⟨d, hd, hnext⟩ := bind_eq_ok_iff.mp h
      have hname := name_of_declaredConstant hd
      rw [← Except.ok.inj hnext, Table.entries_insert, mem_insertInto table.distinct]
      refine or_congr ?_ ?_
      · constructor
        · rintro rfl
          exact ⟨kind, keyword, name, sign, first, more, stop, rfl, hd⟩
        · intro hother
          obtain ⟨_, _, _, _, _, _, _, heq, hc⟩ := hother
          cases heq
          rw [hd] at hc
          exact (Except.ok.inj hc).symm
      · rw [hname]
        simp [constantName?, eq_comm]
  | _ =>
      rw [← Except.ok.inj h]
      simp [Declares, constantName?]

/-- What many statements do to the constants. -/
theorem mem_foldlM_addConstant {statements : List Statement} {table result : ConstantTable}
    (h : statements.foldlM (addConstant settings path) table = .ok result) :
    c ∈ result.entries ↔
      Survives settings path statements c ∨
        (c ∈ table.entries ∧ ∀ s ∈ statements, s.constantName? ≠ some c.name) := by
  induction statements generalizing table with
  | nil =>
      rw [← Except.ok.inj h]
      simp [Survives]
  | cons s rest ih =>
      obtain ⟨next, hnext, hrest⟩ := foldlM_cons_eq_ok_iff.mp h
      rw [ih hrest, mem_addConstant hnext, survives_cons, List.forall_mem_cons]
      tauto

/-- A name that a statement declares stays the name of a constant. -/
theorem exists_mem_foldlM_addConstant {statements : List Statement} {table result : ConstantTable}
    (h : statements.foldlM (addConstant settings path) table = .ok result) {name : String}
    (named : (∃ c ∈ table.entries, c.name = name) ∨
      ∃ s ∈ statements, s.constantName? = some name) :
    ∃ c ∈ result.entries, c.name = name := by
  induction statements generalizing table with
  | nil =>
      rw [← Except.ok.inj h]
      simpa using named
  | cons s rest ih =>
      obtain ⟨next, hnext, hrest⟩ := foldlM_cons_eq_ok_iff.mp h
      refine ih hrest ?_
      by_cases hdeclared : s.constantName? = some name
      · -- the statement gives a constant of the name, whichever there was
        cases s with
        | constant kind keyword token sign first more stop =>
            obtain ⟨d, hd, -⟩ := bind_eq_ok_iff.mp hnext
            have hdeclares : (Statement.constant kind keyword token sign first more stop).Declares
                settings path d := ⟨kind, keyword, token, sign, first, more, stop, rfl, hd⟩
            rw [hdeclares.name, Option.some.injEq] at hdeclared
            exact .inl ⟨d, (mem_addConstant hnext).mpr (.inl hdeclares), hdeclared⟩
        | _ => exact absurd hdeclared (by simp [constantName?])
      · rcases named with ⟨c, hc, rfl⟩ | ⟨other, hother, hname⟩
        · exact .inl ⟨c, (mem_addConstant hnext).mpr (.inr ⟨hc, hdeclared⟩), rfl⟩
        · rcases List.mem_cons.mp hother with rfl | hother
          · exact absurd hname hdeclared
          · exact .inr ⟨other, hother, hname⟩

end Statement

private theorem Literal.wellFormed_added {kind : ConstKind} {text : List Char} {value : ConstValue}
    (ranged : value? kind text = some value) (before : List Constant) :
    (added before kind value).WellFormed := by
  have hkind := kind?_of_value? ranged
  refine ⟨?_, ?_, ConstValue.oneLine_text hkind⟩
  · intro found hfound
    show kind = found
    rw [← Option.some.injEq, ← hkind]
    exact hfound
  · intro hnewline
    obtain ⟨-, -, -, -, -, hattached⟩ := exists_of_isIdentifier (isIdentifier_added ranged before)
    exact absurd (hattached _ hnewline) (by decide)

theorem Literal.Grows.wellFormed {constants later : List Constant} (h : Grows constants later)
    (start : ∀ c ∈ constants, c.WellFormed) : ∀ c ∈ later, c.WellFormed :=
  h.forall_mem start fun before _ _ _ ranged => wellFormed_added ranged before

namespace ShaderUnit

variable {settings : Settings} {path text : String} {file : ShaderUnit}

/-- **The constants of a unit are those that survive its statements.** -/
theorem mem_constantsOf {statements : List Statement} {table : ConstantTable} {c : Constant}
    (h : constantsOf settings path statements = .ok table) :
    c ∈ table.entries ↔ Statement.Survives settings path statements c := by
  rw [Statement.mem_foldlM_addConstant h]
  simp

/-- A unit that some text gives under some settings. -/
def IsRead (file : ShaderUnit) : Prop :=
  ∃ settings path text, ofText settings path text = .ok file

theorem IsRead.wellFormed (h : file.IsRead) : ∀ c ∈ file.constants.entries, c.WellFormed := by
  obtain ⟨settings, path, text, hread⟩ := h
  obtain ⟨statements, constants, hcuts, hconstants, rfl⟩ := ofText_eq_ok_iff.mp hread
  intro c hc
  obtain ⟨before, s, after, rfl, hdeclares, -⟩ := (mem_constantsOf hconstants).mp hc
  exact hdeclares.wellFormed (hcuts.oneLine s (by simp))

theorem IsRead.fileTokens (h : file.IsRead) : FileTokens file.path file.body := by
  obtain ⟨settings, path, text, hread⟩ := h
  rw [path_of_ofText hread]
  exact fileTokens_body hread

end ShaderUnit

end ShaderLink
