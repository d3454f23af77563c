/-
Initializers of constants that are numbers.

A constant that is a number in single precision is declared with a literal exactly when the
number is finite.  What a file spells is finite, an integer is finite as a number, and so is
a literal that a constant is added for.  That leaves the numbers that the settings give: a
declared constant takes over the number of its name as it is.

So with settings that are loaded from texts, all is well exactly as long as no declared name
is set by a JSON number that single precision rounds to an infinity.
-/
import ShaderLink.Proofs.Number.Notation
import ShaderLink.Proofs.Program.Capture
import ShaderLink.Proofs.Settings.Loading

namespace ShaderLink

/-! ### Declarations with literals -/

/-- A constant is declared as a number with a literal for its initializer. -/
def Constant.DeclaresLiteral (c : Constant) : Prop :=
  ∃ literal, Text.IsSignedLiteral literal ∧
    c.declaration = "const float " ++ c.name ++ " = " ++ String.ofList literal ++ ";"

theorem Constant.declaresLiteral_iff {c : Constant} {x : Binary32} (hkind : c.kind = .float)
    (hvalue : c.value = .float x) : c.DeclaresLiteral ↔ x.isFinite = true := by
  have hdeclaration : c.declaration = "const float " ++ c.name ++ " = " ++ x.toText ++ ";" := by
    unfold declaration
    rw [hkind, hvalue]
    rfl
  rw [← Binary32.isSignedLiteral_toText_iff]
  constructor
  · rintro ⟨literal, hliteral, heq⟩
    rw [hdeclaration] at heq
    have hchars := congrArg String.toList heq
    simp only [String.toList_append, String.toList_ofList] at hchars
    rw [List.append_cancel_left (List.append_cancel_right hchars)]
    exact hliteral
  · intro hliteral
    refine ⟨x.toText.toList, hliteral, ?_⟩
    rw [hdeclaration, String.ofList_toList]

/-! ### The numbers of declared constants -/

namespace ConstValue

variable {kind : ConstKind} {value : ConstValue} {x : Binary32}

/-- A number that a value becomes is an integer's or the value itself. -/
private theorem eq_float_of_coerce? (h : value.coerce? kind = some (.float x)) :
    kind = .float ∧ (value = .float x ∨ ∃ i : Int64, value = .int i ∧ x = .ofInt i.toInt) := by
  cases value with
  | int i =>
      cases kind with
      | int => exact absurd h (by simp [coerce?])
      | float =>
          simp only [coerce?, Option.some.injEq, float.injEq] at h
          exact ⟨rfl, .inr ⟨i, rfl, h.symm⟩⟩
  | float y =>
      cases kind with
      | int => exact absurd h (by simp [coerce?])
      | float => exact ⟨rfl, .inl (Option.some.inj h)⟩
  | expr text => exact absurd h (by simp [coerce?])

private theorem finite_of_read {text : String} (h : read text = .float x) : x.isFinite = true := by
  unfold read at h
  split at h
  · exact absurd h (by simp)
  · split at h
    · rename_i y hread
      rw [← ConstValue.float.inj h]
      exact (Option.filter_eq_some_iff.mp hread).2
    · exact absurd h (by simp)

/-- What an initializer spells is finite. -/
private theorem finite_of_initial {text : String}
    (h : ((read text).coerce? kind).getD (.expr text) = .float x) : x.isFinite = true := by
  cases hcoerce : (read text).coerce? kind with
  | none =>
      rw [hcoerce] at h
      exact absurd h (by simp)
  | some value =>
      rw [hcoerce, Option.getD_some] at h
      rw [h] at hcoerce
      rcases (eq_float_of_coerce? hcoerce).2 with hread | ⟨i, -, rfl⟩
      · exact finite_of_read hread
      · exact Binary32.isFinite_ofInt64 i

end ConstValue

namespace Settings

variable {settings : Settings} {name : String} {x : Binary32}

private theorem number?_eq_float_iff :
    settings.number? name = some (.float x) ↔ settings.find? name = some (.float x) := by
  unfold number?
  cases settings.find? name with
  | none => simp
  | some setting => cases setting <;> simp [Setting.number?]

end Settings

namespace Statement

variable {settings : Settings} {path : String} {c : Constant} {x : Binary32}

/-- **A declared number is infinite or a NaN exactly when its name is set to such a number.** -/
theorem Declares.not_finite_iff {s : Statement} (h : s.Declares settings path c)
    (hvalue : c.value = .float x) :
    x.isFinite = false ↔ ∃ y, settings.find? c.name = some (.float y) ∧ y.isFinite = false := by
  obtain ⟨kind, keyword, name, sign, first, more, stop, -, hdeclared⟩ := h
  have hfinite (hx : x.isFinite = true)
      (unset : ∀ y, settings.number? c.name ≠ some (.float y)) :
      x.isFinite = false ↔ ∃ y, settings.find? c.name = some (.float y) ∧ y.isFinite = false := by
    refine iff_of_false (by simp [hx]) ?_
    rintro ⟨y, hset, -⟩
    exact unset y (Settings.number?_eq_float_iff.mpr hset)
  rcases declaredConstant_eq_ok_iff.mp hdeclared with ⟨number, value, hset, hcoerce, rfl⟩ |
    ⟨hunset, rfl⟩
  · have hvalue : value = .float x := hvalue
    rw [hvalue] at hcoerce
    rcases (ConstValue.eq_float_of_coerce? hcoerce).2 with rfl | ⟨i, rfl, rfl⟩
    · rw [Settings.number?_eq_float_iff] at hset
      simp [hset]
    · exact hfinite (Binary32.isFinite_ofInt64 i) fun y => by simp [hset]
  · exact hfinite (ConstValue.finite_of_initial hvalue) fun y => by simp [hunset]

private theorem Declares.kind_of_float {s : Statement} (h : s.Declares settings path c)
    (hvalue : c.value = .float x) : c.kind = .float := by
  obtain ⟨kind, keyword, name, sign, first, more, stop, -, hdeclared⟩ := h
  obtain ⟨hkind, hread⟩ := value_of_declaredConstant hdeclared
  rw [hvalue] at hread
  rcases hread with hexpr | hnumber
  · exact absurd hexpr (by simp)
  · rw [hkind]
    exact (Option.some.inj hnumber).symm

end Statement

/-! ### Builds with loaded settings -/

/-- An added number is declared with a literal. -/
private theorem Literal.Mints.declaresLiteral {constants : List Constant} {c : Constant}
    {x : Binary32} (h : Mints constants c) (hvalue : c.value = .float x) : c.DeclaresLiteral := by
  obtain ⟨text, hranged⟩ := h.ranged
  rcases value?_cases hranged with ⟨-, i, hint⟩ | ⟨hkind, y, hfloat, hfinite⟩
  · rw [hvalue] at hint
    exact absurd hint (by simp)
  · exact (Constant.declaresLiteral_iff hkind hfloat).mpr hfinite

/-- It has a name that no declared constant has. -/
private theorem Literal.Mints.notMem {constants : List Constant} {c : Constant}
    (h : Mints constants c) : c ∉ constants := by
  intro hc
  refine freshName_notMem (constants.map (·.name)) (baseName c.kind c.value) ?_
  rw [← h.name]
  exact List.mem_map_of_mem hc

namespace Project

variable {project : Project} {settings : Settings} {files : List ShaderUnit}

/-- A declared constant of loaded files is declared by a statement of one. -/
private theorem exists_declares
    (loaded : ∀ file ∈ files, project.loadIncluded settings file.path = .ok file)
    {declared : ConstantTable}
    (merged : ConstantTable.mergeAll (files.map (·.constants)) = .ok declared) {c : Constant}
    (hc : c ∈ declared.entries) : ∃ path s, Statement.Declares settings path s c := by
  rw [ConstantTable.entries_of_mergeAll merged, List.flatMap_map] at hc
  obtain ⟨file, hfile, hmem⟩ := List.mem_flatMap.mp hc
  obtain ⟨-, -, -, s, -, -, hdeclares, -⟩ := exists_survives (loaded file hfile) hmem
  exact ⟨file.path, s, hdeclares⟩

/-- **All numbers that loaded settings hold are finite exactly when no name is set by a JSON number
that overflows.  A number of a program that is built with them is declared with a literal exactly
when no file declares it under a name that such a JSON number sets.** -/
theorem literals_of_loading {loading : Settings.Loading}
    (loaded : loading.settings = .ok settings) :
    ((∀ name x, settings.find? name = some (.float x) → x.isFinite = true) ↔
        ∀ name, ¬ loading.Overflows name) ∧
      ∀ (project : Project) (entry : String) (program : Program),
        project.build settings entry = .ok program →
          ∃ main listing declared added, project.loadMain settings entry = .ok main ∧
            project.order settings main = .ok listing ∧
              Program.Additions main listing.files declared added program ∧
                ∀ c ∈ declared.entries ++ added, ∀ x, c.value = .float x →
                  (c.DeclaresLiteral ↔ ¬ (c ∈ declared.entries ∧ loading.Overflows c.name)) := by
  constructor
  · simp only [Settings.Loading.overflows_iff loaded, not_exists, not_and, Bool.not_eq_false]
  · intro project entry program built
    obtain ⟨main, header, listing, hmain, hheader, horder, hlink⟩ := build_eq_ok_iff.mp built
    obtain ⟨declared, added, additions⟩ := exists_additions_of_link hheader hlink
    refine ⟨main, listing, declared, added, hmain, horder, additions, ?_⟩
    intro c hc x hvalue
    rcases List.mem_append.mp hc with hdeclared | hadded
    · obtain ⟨path, s, hdeclares⟩ := exists_declares (dependencyOrder_of_order hmain horder).loaded
        additions.merged hdeclared
      rw [Constant.declaresLiteral_iff (hdeclares.kind_of_float hvalue) hvalue,
        and_iff_right hdeclared, Settings.Loading.overflows_iff loaded,
        ← hdeclares.not_finite_iff hvalue, Bool.not_eq_false]
    · have hminted := additions.minted c hadded
      exact iff_of_true (hminted.declaresLiteral hvalue) fun hboth => hminted.notMem hboth.1

/-- A project with one constant. -/
def scaled : Project where
  source := (Registry.ofList [
    ("main", "#version 300\n#type VERTEX\nprecision highp float;\nconst float S = 1;\n")]).toSource
  root := ""

/-- The constant is set to a number that overflows, and then to another. -/
def rescaled : Settings.Loading :=
  .merge (.json "\x7b\"S\":1e39\x7d") (.assignments "S=0.5")

theorem rescaled_literals :
    ∃ settings program, rescaled.settings = .ok settings ∧
      scaled.build settings "main" = .ok program ∧
        ((∀ name x, settings.find? name = some (.float x) → x.isFinite = true) ↔
          ∀ name, ¬ rescaled.Overflows name) ∧
          ∃ main listing declared added, scaled.loadMain settings "main" = .ok main ∧
            scaled.order settings main = .ok listing ∧
              Program.Additions main listing.files declared added program ∧
                ∀ c ∈ declared.entries ++ added, ∀ x, c.value = .float x →
                  (c.DeclaresLiteral ↔ ¬ (c ∈ declared.entries ∧ rescaled.Overflows c.name)) := by
  obtain ⟨program, hbuilds⟩ := exists_eq_ok_of_toBool
    (show (rescaled.settings >>= fun settings => scaled.build settings "main").toBool = true by
      decide +kernel)
  obtain ⟨settings, hsettings, hprogram⟩ := bind_eq_ok_iff.mp hbuilds
  obtain ⟨hfinite, hliterals⟩ := literals_of_loading hsettings
  exact ⟨settings, program, hsettings, hprogram, hfinite, hliterals scaled "main" program hprogram⟩

/-- **A number that overflows is declared as a word**: it is not refused, as its assignment is, and
the declaration has no literal. -/
theorem scaled_declares_infinity :
    ∃ settings program, Settings.ofJson "\x7b\"S\":1e39\x7d" = .ok settings ∧
      scaled.build settings "main" = .ok program ∧
        (∃ x, settings.find? "S" = some (.float x) ∧ x.isFinite = false) ∧
          program.source =
            "#version 300\nprecision highp float;\nconst float S = inf;\n" ∧
            ¬ Text.IsSignedLiteral "inf".toList ∧
              Settings.ofAssignments "S=1e39" = .error (.invalidSetting "S=1e39") := by
  have hbuilds : (Settings.ofJson "\x7b\"S\":1e39\x7d" >>= fun settings =>
      (scaled.build settings "main").map fun program =>
        decide (settings.find? "S" = some (.float (.ofWord false BinaryFormat.single.infinity)) ∧
          program.source =
            "#version 300\nprecision highp float;\nconst float S = inf;\n")) = .ok true := by
    decide +kernel
  obtain ⟨settings, hsettings, hbuilt⟩ := bind_eq_ok_iff.mp hbuilds
  obtain ⟨program, hprogram, hvalues⟩ := exists_of_map_eq_ok hbuilt
  obtain ⟨hset, hsource⟩ := of_decide_eq_true hvalues
  refine ⟨settings, program, hsettings, hprogram, ⟨_, hset, by decide +kernel⟩, hsource, ?_,
    by decide +kernel⟩
  intro hliteral
  have hletter : 'i' ∈ "inf".toList := by decide
  exact absurd (hliteral.isLiteralChar hletter) (by decide)

end Project

end ShaderLink
