/-
Merging the constants of units.

Within a file a constant may be declared again: its name stays where it was declared
first, and what declares it last counts.  Across files a name may be declared once only.
The constants are merged one after another in the order of the files, so what stops the
merging is the first constant whose name was there before, and it is told together with
the constant that has the name.

`mergeAll_of_sources` says this for texts and the units that they give: both when merging
succeeds and when it fails, with what it returns told from the declarations of the texts.
-/
import Mathlib.Data.List.Induction
import ShaderLink.Proofs.Table
import ShaderLink.Proofs.Unit.Constants

namespace ShaderLink

/-! ### What insertions leave -/

namespace Table

variable {α : Type} {key : α → String}

/-- Each key where it comes first, with the entry of it that comes last. -/
def latest (key : α → String) (entries : List α) : List α :=
  (entries.map key).eraseDups.filterMap fun name => entries.reverse.find? (key · == name)

theorem names_foldl_insert (entries : List α) :
    (entries.foldl insert (empty : Table key)).names = (entries.map key).eraseDups := by
  induction entries using List.reverseRecOn with
  | nil => rfl
  | append_singleton front x ih =>
      rw [List.foldl_append, List.map_append, List.eraseDups_append, ← ih, List.foldl_cons,
        List.foldl_nil, names_insert, ih, List.map_singleton]
      generalize front.map key = keys
      by_cases hx : key x ∈ keys
      · simp [hx, List.removeAll]
      · simp [hx, List.removeAll, List.eraseDups_cons]

/-- The entries of a table are found under its keys. -/
private theorem filterMap_get?_names (table : Table key) :
    table.names.filterMap table.get? = table.entries := by
  rw [names, List.filterMap_map]
  have hfound : ∀ x ∈ table.entries, (table.get? ∘ key) x = some x := by
    intro x hx
    exact get?_eq_some_iff.mpr ⟨hx, rfl⟩
  rw [List.filterMap_congr hfound, List.filterMap_some]

/-- **Insertions leave each key where it came first, with what came last.** -/
theorem entries_foldl_insert_empty (entries : List α) :
    (entries.foldl insert (empty : Table key)).entries = latest key entries := by
  have hget : (entries.foldl insert (empty : Table key)).get? =
      fun name => entries.reverse.find? (key · == name) := by
    funext name
    rw [get?_foldl_insert]
    exact Option.or_none
  rw [← filterMap_get?_names, names_foldl_insert, hget]
  rfl

end Table

/-! ### The constants of a text -/

namespace Statement

/-- The constant that a statement declares in a file. -/
def declared? (settings : Settings) (path : String) : Statement → Option Constant
  | .constant kind keyword name _ first more _ =>
    (declaredConstant settings path kind keyword name
      (String.join ((first :: more).map (·.text)))).toOption
  | _ => none

variable {settings : Settings} {path : String}

/-- A statement inserts the constant that it declares. -/
theorem insert_of_addConstant {table next : ConstantTable} {s : Statement}
    (h : s.addConstant settings path table = .ok next) :
    next = (s.declared? settings path).toList.foldl Table.insert table := by
  cases s with
  | constant kind keyword name sign first more stop =>
      obtain ⟨c, hc, hnext⟩ := bind_eq_ok_iff.mp h
      rw [← Except.ok.inj hnext, declared?, hc]
      rfl
  | _ => exact (Except.ok.inj h).symm

theorem insert_of_foldlM_addConstant {statements : List Statement} {table result : ConstantTable}
    (h : statements.foldlM (addConstant settings path) table = .ok result) :
    result = (statements.filterMap (declared? settings path)).foldl Table.insert table := by
  induction statements generalizing table with
  | nil => exact (Except.ok.inj h).symm
  | cons s rest ih =>
      obtain ⟨next, hnext, hrest⟩ := foldlM_cons_eq_ok_iff.mp h
      rw [ih hrest, insert_of_addConstant hnext, List.filterMap_cons]
      cases s.declared? settings path with
      | none => rfl
      | some c => rfl

end Statement

/-- A text with the path that it is read from and the settings that it is read under. -/
structure SourceText where
  settings : Settings
  path : String
  text : String

namespace SourceText

/-- The text gives a unit, as an included file or as the main file. -/
def Gives (source : SourceText) (file : ShaderUnit) : Prop :=
  ShaderUnit.ofText source.settings source.path source.text = .ok file ∨
    ShaderUnit.ofMainText source.settings source.path source.text = .ok file

/-- The constants that the text declares, in the order of its statements. -/
def declarations (source : SourceText) : List Constant :=
  match ShaderUnit.tokensOfText source.settings source.path source.text with
  | .ok tokens => (Reading.ofTokens source.path tokens).statements.filterMap
      (Statement.declared? source.settings source.path)
  | .error _ => []

/-- The constants of the text: each name where it is declared first, as it is declared last. -/
def constants (source : SourceText) : List Constant :=
  Table.latest Constant.name source.declarations

variable {source : SourceText} {file : ShaderUnit}

private theorem Gives.ofText (h : source.Gives file) :
    ShaderUnit.ofText source.settings source.path source.text = .ok file := by
  rcases h with h | h
  · exact h
  · exact (ShaderUnit.ofMainText_eq_ok_iff.mp h).1

/-- **A unit has the constants of its text.** -/
theorem Gives.entries (h : source.Gives file) : file.constants.entries = source.constants := by
  obtain ⟨statements, table, ⟨tokens, htokens, hcuts⟩, htable, rfl⟩ :=
    ShaderUnit.ofText_eq_ok_iff.mp h.ofText
  show table.entries = _
  rw [Statement.insert_of_foldlM_addConstant htable, Table.entries_foldl_insert_empty, constants,
    declarations, htokens]
  simp only [hcuts]

end SourceText

namespace ConstantTable

/--
**Constants of files are merged exactly when no two files have a constant of one name.**  What is
returned then are the constants of the files one after another, each name of a file where the file
declares it first and as the file declares it last.  Otherwise merging is stopped by the first of
these constants whose name stands before it, and tells it and the constant that has the name.
-/
theorem mergeAll_of_sources {sources : List SourceText} {files : List ShaderUnit}
    (given : List.Forall₂ SourceText.Gives sources files) :
    ((∃ merged, mergeAll (files.map (·.constants)) = .ok merged) ↔
        files.Pairwise fun a b => a.constants.names.Disjoint b.constants.names) ∧
      (∀ merged, mergeAll (files.map (·.constants)) = .ok merged →
        merged.entries = sources.flatMap (·.constants)) ∧
      ∀ error, mergeAll (files.map (·.constants)) = .error error ↔
        ∃ first second, FirstRepeat (sources.flatMap (·.constants)) first second ∧
          error = .duplicateConstant first second := by
  have hentries : (files.map (·.constants)).flatMap (·.entries) =
      sources.flatMap (·.constants) := by
    rw [List.flatMap_map]
    induction given with
    | nil => rfl
    | cons hgives hmore ih => rw [List.flatMap_cons, List.flatMap_cons, ih, hgives.entries]
  refine ⟨?_, ?_, fun error => ?_⟩
  · rw [exists_mergeAll_iff, List.pairwise_map]
  · intro merged hmerged
    rw [← hentries]
    exact (mergeAll_eq_ok_iff.mp hmerged).2
  · rw [mergeAll_eq_error_iff, hentries]

/-- A text that declares a name twice. -/
def redeclaring : SourceText where
  settings := .empty
  path := "a.glsl"
  text := "const int A = 1;\nconst int B = 2;\nconst int A = 3;\n"

/-- A text that declares both of these names the other way round. -/
def overlapping : SourceText where
  settings := .empty
  path := "b.glsl"
  text := "const float C = 4;\nconst int B = 5;\nconst int A = 6;\n"

/-- The first text alone merges to two constants.  With the second it is the name that the second
declares first which is told. -/
theorem redeclaring_mergeAll :
    ∃ file other, List.Forall₂ SourceText.Gives [redeclaring, overlapping] [file, other] ∧
      (∃ merged, mergeAll [file.constants] = .ok merged ∧
        merged.entries = [⟨"A", .int, .int 3, "a.glsl", some 3⟩, ⟨"B", .int, .int 2, "a.glsl", some 2⟩]) ∧
      mergeAll [file.constants, other.constants] =
        .error (.duplicateConstant ⟨"B", .int, .int 2, "a.glsl", some 2⟩
          ⟨"B", .int, .int 5, "b.glsl", some 2⟩) := by
  have hfirst : (ShaderUnit.ofText redeclaring.settings redeclaring.path redeclaring.text).map
      (·.constants.entries) =
        .ok [⟨"A", .int, .int 3, "a.glsl", some 3⟩, ⟨"B", .int, .int 2, "a.glsl", some 2⟩] := by
    decide +kernel
  have hsecond : (ShaderUnit.ofText overlapping.settings overlapping.path overlapping.text).map
      (·.constants.entries) =
        .ok [⟨"C", .float, .float (.ofInt 4), "b.glsl", some 1⟩,
          ⟨"B", .int, .int 5, "b.glsl", some 2⟩, ⟨"A", .int, .int 6, "b.glsl", some 3⟩] := by
    decide +kernel
  obtain ⟨file, hfile, hentries⟩ := exists_of_map_eq_ok hfirst
  obtain ⟨other, hother, hothers⟩ := exists_of_map_eq_ok hsecond
  have hgives : redeclaring.Gives file := .inl hfile
  have hgives' : overlapping.Gives other := .inl hother
  have hboth : List.Forall₂ SourceText.Gives [redeclaring, overlapping] [file, other] :=
    .cons hgives (.cons hgives' .nil)
  have hconstants := hgives.entries.symm.trans hentries
  have hconstants' := hgives'.entries.symm.trans hothers
  obtain ⟨hsucceeds, hmerged, -⟩ := mergeAll_of_sources (.cons hgives .nil)
  obtain ⟨-, -, hfails⟩ := mergeAll_of_sources hboth
  refine ⟨file, other, hboth, ?_, ?_⟩
  · obtain ⟨merged, hok⟩ := hsucceeds.mpr (List.pairwise_singleton _ _)
    refine ⟨merged, hok, ?_⟩
    rw [hmerged merged hok, List.flatMap_singleton, hconstants]
  · refine (hfails _).mpr ⟨_, _, ⟨redeclaring.constants ++ [⟨"C", .float, .float (.ofInt 4),
      "b.glsl", some 1⟩], [⟨"A", .int, .int 6, "b.glsl", some 3⟩], ?_, ?_, ?_, ?_⟩, rfl⟩
    all_goals simp [hconstants, hconstants']

end ConstantTable

end ShaderLink
