/-
From a text to a unit.

A unit is read from a text in steps that may each fail: comments, conditions,
statements, constants.  When all succeed the unit is determined by the tokens and
the statements they make up, and these lemmas name them.  A main file is read as
an included one is, and has only to declare more.
-/
import ShaderLink.Build
import ShaderLink.Proofs.Outcome

namespace ShaderLink

namespace ShaderUnit

variable {settings : Settings} {path text : String} {file : ShaderUnit}

def constantsOf (settings : Settings) (path : String) (statements : List Statement) :
    Except BuildError ConstantTable :=
  statements.foldlM (Statement.addConstant settings path) Table.empty

def ofStatements (path : String) (statements : List Statement) (constants : ConstantTable) :
    ShaderUnit where
  path := path
  version := (statements.filterMap Statement.version?).getLast?
  stage := (statements.filterMap Statement.stage?).getLast?
  precision := (statements.filterMap Statement.defaultPrecision?).getLast?
  includes := statements.filterMap Statement.includedPath?
  constants := constants
  body := statements.flatMap Statement.bodyTokens

theorem ofReading_eq_ok_iff {reading : Reading} :
    ofReading settings path reading = .ok file ↔
      reading.failure = none ∧ ∃ constants,
        constantsOf settings path reading.statements = .ok constants ∧
          file = ofStatements path reading.statements constants := by
  unfold ofReading
  rw [bind_eq_ok_iff]
  cases hf : reading.failure with
  | some error => simp
  | none =>
      constructor
      · intro hsteps
        obtain ⟨constants, hconstants, hfile⟩ := hsteps
        exact ⟨rfl, constants, hconstants, (Except.ok.inj hfile).symm⟩
      · intro hsteps
        obtain ⟨-, constants, hconstants, rfl⟩ := hsteps
        exact ⟨constants, hconstants, rfl⟩

/-- A text is cut into statements to its end. -/
def Cuts (settings : Settings) (path text : String) (statements : List Statement) : Prop :=
  ∃ tokens, tokensOfText settings path text = .ok tokens ∧
    Reading.ofTokens path tokens = ⟨statements, none⟩

/-- **A text gives a unit exactly when it is cut into statements to its end and their constants
fit the settings, and the unit is what these make up.** -/
theorem ofText_eq_ok_iff :
    ofText settings path text = .ok file ↔
      ∃ statements constants, Cuts settings path text statements ∧
        constantsOf settings path statements = .ok constants ∧
        file = ofStatements path statements constants := by
  unfold ofText ofTokens
  rw [bind_eq_ok_iff]
  constructor
  · intro hsteps
    obtain ⟨tokens, htokens, hreading⟩ := hsteps
    obtain ⟨hfailure, constants, hconstants, hfile⟩ := ofReading_eq_ok_iff.mp hreading
    exact ⟨_, constants, ⟨tokens, htokens, by rw [← hfailure]⟩, hconstants, hfile⟩
  · intro hsteps
    obtain ⟨statements, constants, ⟨tokens, htokens, hcuts⟩, hconstants, hfile⟩ := hsteps
    refine ⟨tokens, htokens, ofReading_eq_ok_iff.mpr ?_⟩
    rw [hcuts]
    exact ⟨rfl, constants, hconstants, hfile⟩

theorem path_of_ofText (h : ofText settings path text = .ok file) : file.path = path := by
  obtain ⟨statements, constants, -, -, rfl⟩ := ofText_eq_ok_iff.mp h
  rfl

/-- A main file is an included file that lacks no declaration. -/
theorem ofMainText_eq_ok_iff :
    ofMainText settings path text = .ok file ↔
      ofText settings path text = .ok file ∧ file.missingMetadata? = none := by
  unfold ofMainText
  rw [bind_eq_ok_iff]
  constructor
  · intro hsteps
    obtain ⟨unit, hunit, hmain⟩ := hsteps
    cases hmissing : unit.missingMetadata? with
    | some what =>
        rw [hmissing] at hmain
        exact absurd hmain (by simp)
    | none =>
        rw [hmissing] at hmain
        rw [← Except.ok.inj hmain]
        exact ⟨hunit, hmissing⟩
  · intro hsteps
    obtain ⟨hunit, hmissing⟩ := hsteps
    refine ⟨file, hunit, ?_⟩
    rw [hmissing]

end ShaderUnit

namespace Project

variable {project : Project} {settings : Settings} {path : String} {file : ShaderUnit}

theorem loadIncluded_eq_ok_iff :
    project.loadIncluded settings path = .ok file ↔
      ∃ text, project.text path = .ok text ∧ ShaderUnit.ofText settings path text = .ok file := by
  unfold loadIncluded
  rw [bind_eq_ok_iff]

/-- The main file is loaded as it would be if it were included. -/
theorem loadMain_eq_ok_iff :
    project.loadMain settings path = .ok file ↔
      project.loadIncluded settings path = .ok file ∧ file.missingMetadata? = none := by
  unfold loadMain
  rw [bind_eq_ok_iff, loadIncluded_eq_ok_iff]
  constructor
  · intro hsteps
    obtain ⟨text, htext, hmain⟩ := hsteps
    obtain ⟨hunit, hmissing⟩ := ShaderUnit.ofMainText_eq_ok_iff.mp hmain
    exact ⟨⟨text, htext, hunit⟩, hmissing⟩
  · intro hsteps
    obtain ⟨⟨text, htext, hunit⟩, hmissing⟩ := hsteps
    exact ⟨text, htext, ShaderUnit.ofMainText_eq_ok_iff.mpr ⟨hunit, hmissing⟩⟩

theorem path_of_loadIncluded (h : project.loadIncluded settings path = .ok file) :
    file.path = path := by
  obtain ⟨text, -, hunit⟩ := loadIncluded_eq_ok_iff.mp h
  exact ShaderUnit.path_of_ofText hunit

theorem path_of_loadMain (h : project.loadMain settings path = .ok file) : file.path = path :=
  path_of_loadIncluded (loadMain_eq_ok_iff.mp h).1

/-- A main file may be asked for again by its path, as an included file. -/
theorem loadIncluded_of_loadMain (h : project.loadMain settings path = .ok file) :
    project.loadIncluded settings file.path = .ok file := by
  rw [path_of_loadMain h]
  exact (loadMain_eq_ok_iff.mp h).1

/-- The steps of a build that succeeds. -/
theorem build_eq_ok_iff {entry : String} {program : Program} :
    project.build settings entry = .ok program ↔
      ∃ main header listing, project.loadMain settings entry = .ok main ∧
        Header.ofUnit main = .ok header ∧ project.order settings main = .ok listing ∧
        link header listing.files = .ok program := by
  unfold build
  simp only [bind_eq_ok_iff]
  constructor
  · intro hsteps
    obtain ⟨main, hmain, header, hheader, listing, hlisting, hlink⟩ := hsteps
    exact ⟨main, header, listing, hmain, hheader, hlisting, hlink⟩
  · intro hsteps
    obtain ⟨main, header, listing, hmain, hheader, hlisting, hlink⟩ := hsteps
    exact ⟨main, hmain, header, hheader, listing, hlisting, hlink⟩

end Project

end ShaderLink
