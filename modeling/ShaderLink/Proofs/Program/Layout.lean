/-
How a program is laid out.

The source of a program and its line table are two views of one list of lines, of which
none holds a line break: so the source has a line for each record, ended by a line feed.
The lines are those of the version and of the default precision, recorded where the main
file declares them last, one for each constant, recorded where the declaration stands
that survives in its file, and those of the bodies.

A line of a body is recorded by its file and its line there, and it is made of the tokens
of that line that the file's unit has in its body.  As no path is listed twice and the
lines of a file come in ascending order, no two lines of the body have one record.
-/
import ShaderLink.Proofs.Link.Dependencies
import ShaderLink.Proofs.Program.Body
import ShaderLink.Proofs.Unit.Metadata

namespace ShaderLink

open Body (LineNumbers imageLine lineOf)

/-- The text of a path is cut into statements to its end. -/
def Project.Cuts (project : Project) (settings : Settings) (path : String)
    (statements : List Statement) : Prop :=
  ∃ text, project.text path = .ok text ∧ ShaderUnit.Cuts settings path text statements

/-! ### The layout -/

/-- The record of a constant's declaration among files. -/
inductive Project.Records (project : Project) (settings : Settings) (files : List ShaderUnit)
    (name : String) : LineRecord → Prop
  /-- The declaration that survives in its file, at the line of its keyword. -/
  | declared {file : ShaderUnit} {before after : List Statement} {kind : ConstKind}
      {keyword token sign first stop : Token} {more : List Token}
      (listed : file ∈ files)
      (cuts : project.Cuts settings file.path
        (before ++ .constant kind keyword token sign first more stop :: after))
      (named : token.text = name) (last : ∀ later ∈ after, later.constantName? ≠ some name)
      (unset : settings.number? name = none) :
      Records project settings files name ⟨file.path, some keyword.line⟩
  /-- The settings, which give the declared name a number. -/
  | set {file : ShaderUnit} {number : ConstValue} (listed : file ∈ files)
      (declared : ∃ c ∈ file.constants.entries, c.name = name)
      (set : settings.number? name = some number) :
      Records project settings files name ⟨settingsOrigin, none⟩
  /-- The build, which adds a name that no file declares. -/
  | added (fresh : ∀ file ∈ files, ∀ c ∈ file.constants.entries, c.name ≠ name) :
      Records project settings files name ⟨generatedOrigin, none⟩

/-- The lines of a program and where each comes from. -/
structure Program.Layout (project : Project) (settings : Settings) (main : ShaderUnit)
    (files : List ShaderUnit) (constants : List Constant) (body : List OutputLine)
    (program : Program) : Prop where
  /-- The source has a line for each record, and each is ended by a line feed. -/
  ended : ∃ texts : List String, texts.length = program.lineTable.length ∧
    (∀ text ∈ texts, Text.OneLine text) ∧ program.source = String.join (texts.map (· ++ "\n"))
  /-- The lines are the version and the precision that the main file declares last, a declaration
  for each constant, and the body. -/
  lines : ∃ statements version precision, project.Cuts settings main.path statements ∧
    Statement.LastDeclares Statement.version? statements version ∧
    Statement.LastDeclares Statement.defaultPrecision? statements precision ∧
    let lines := [⟨⟨main.path, some version.line⟩, "#version " ++ version.value⟩,
        ⟨⟨main.path, some precision.line⟩, "precision " ++ precision.value ++ " float;"⟩] ++
      constants.map OutputLine.ofConstant ++ body
    program.source = Program.textOfLines lines ∧ program.lineTable = lines.map (·.record)
  /-- Each constant of a file has its declaration, and no name has two. -/
  declared : ∀ file ∈ files, ∀ c ∈ file.constants.entries, c ∈ constants
  distinct : (constants.map (·.name)).Nodup
  /-- A declaration is recorded where it survives. -/
  recorded : ∀ c ∈ constants,
    project.Records settings files c.name (OutputLine.ofConstant c).record
  /-- A file's body holds tokens of its lines. -/
  tokens : ∀ file ∈ files, ∃ text tokens, project.text file.path = .ok text ∧
    ShaderUnit.tokensOfText settings file.path text = .ok tokens ∧ file.body.Sublist tokens
  /-- The body is made file by file and line by line, of the tokens that are left there, with their
  literals replaced. -/
  bodies : ∃ part : ShaderUnit → List OutputLine, body = files.flatMap part ∧
    ∀ file ∈ files, ∃ numbers, LineNumbers file.body numbers ∧
      part file = numbers.map fun number => imageLine constants (lineOf file.path file.body number)
  /-- No two lines of the body have one record. -/
  apart : (body.map (·.record)).Nodup

/-! ### Declarations -/

private theorem Constant.oneLine_declaration {c : Constant} (h : c.WellFormed) :
    Text.OneLine c.declaration := by
  have hkeyword : Text.OneLine c.kind.keyword := by
    cases c.kind <;> simp [Text.OneLine, ConstKind.keyword]
  unfold declaration
  have hconst : Text.OneLine "const " := by simp [Text.OneLine]
  have hspace : Text.OneLine " " := by simp [Text.OneLine]
  have hsign : Text.OneLine " = " := by simp [Text.OneLine]
  have hstop : Text.OneLine ";" := by simp [Text.OneLine]
  exact (((((hconst.append hkeyword).append hspace).append h.name).append hsign).append
    h.value).append hstop

namespace Project

variable {project : Project} {settings : Settings} {files : List ShaderUnit}

private theorem exists_cuts {path : String} {file : ShaderUnit}
    (h : project.loadIncluded settings path = .ok file) :
    ∃ statements constants, project.Cuts settings path statements ∧
      ShaderUnit.constantsOf settings path statements = .ok constants ∧
        file = ShaderUnit.ofStatements path statements constants := by
  obtain ⟨text, htext, hunit⟩ := loadIncluded_eq_ok_iff.mp h
  obtain ⟨statements, constants, hcuts, hconstants, hfile⟩ :=
    ShaderUnit.ofText_eq_ok_iff.mp hunit
  exact ⟨statements, constants, ⟨text, htext, hcuts⟩, hconstants, hfile⟩

/-- A constant of a loaded file survives the statements of its text. -/
theorem exists_survives {file : ShaderUnit}
    (loaded : project.loadIncluded settings file.path = .ok file) {c : Constant}
    (hc : c ∈ file.constants.entries) :
    ∃ statements, project.Cuts settings file.path statements ∧
      Statement.Survives settings file.path statements c := by
  obtain ⟨statements, constants, hcuts, hconstants, hfile⟩ := exists_cuts loaded
  refine ⟨statements, hcuts, ?_⟩
  rw [hfile] at hc
  exact (ShaderUnit.mem_constantsOf hconstants).mp hc

private theorem records_of_mem {file : ShaderUnit} (listed : file ∈ files)
    (loaded : project.loadIncluded settings file.path = .ok file) {c : Constant}
    (hc : c ∈ file.constants.entries) :
    project.Records settings files c.name (OutputLine.ofConstant c).record := by
  obtain ⟨statements, hcuts, before, s, after, rfl, hdeclares, hlast⟩ := exists_survives loaded hc
  obtain ⟨kind, keyword, token, sign, first, more, stop, rfl, hdeclared⟩ := hdeclares
  rcases Statement.declaredConstant_eq_ok_iff.mp hdeclared with
    ⟨number, value, hset, -, rfl⟩ | ⟨hunset, rfl⟩
  · exact .set listed ⟨_, hc, rfl⟩ hset
  · exact .declared listed hcuts rfl hlast hunset

/-- Constants grown from those of the files are recorded where they survive or as added. -/
private theorem records_of_grows {table : ConstantTable} {constants : List Constant}
    (loaded : ∀ file ∈ files, project.loadIncluded settings file.path = .ok file)
    (merged : ConstantTable.mergeAll (files.map (·.constants)) = .ok table)
    (grows : Literal.Grows table.entries constants) :
    ∀ c ∈ constants, project.Records settings files c.name (OutputLine.ofConstant c).record := by
  have hentries := ConstantTable.entries_of_mergeAll merged
  rw [List.flatMap_map] at hentries
  have hcases : ∀ c ∈ constants,
      c ∈ table.entries ∨ c.origin = generatedOrigin ∧ c.line = none :=
    grows.forall_mem (fun c hc => Or.inl hc) fun _ _ _ _ _ => Or.inr ⟨rfl, rfl⟩
  intro c hc
  by_cases hdeclared : c ∈ table.entries
  · rw [hentries] at hdeclared
    obtain ⟨file, hfile, hmem⟩ := List.mem_flatMap.mp hdeclared
    exact records_of_mem hfile (loaded file hfile) hmem
  · obtain ⟨horigin, hline⟩ := (hcases c hc).resolve_left hdeclared
    rw [OutputLine.ofConstant, horigin, hline]
    refine .added ?_
    -- Names stay distinct, so one that a file declares belongs to no other constant.
    intro file hfile d hd heq
    have hmem : d ∈ table.entries := by
      rw [hentries]
      exact List.mem_flatMap.mpr ⟨file, hfile, hd⟩
    have hsame := List.inj_on_of_nodup_map (grows.distinct table.distinct)
      (grows.isPrefix.subset hmem) hc heq
    exact hdeclared (hsame ▸ hmem)

end Project

/-! ### Bodies -/

namespace Body

variable {files : List ShaderUnit}

@[simp] theorem map_record_imageLine (constants : List Constant) (lines : List OutputLine) :
    (lines.map (imageLine constants)).map (·.record) = lines.map (·.record) := by
  rw [List.map_map]
  rfl

/-- No two lines of the bodies of files have one record. -/
theorem nodup_records_assemble (read : ∀ file ∈ files, file.IsRead)
    (distinct : (files.map (·.path)).Nodup) : ((assemble files).map (·.record)).Nodup := by
  unfold assemble
  rw [List.map_flatMap, List.nodup_iff_pairwise_ne, List.pairwise_flatMap]
  have hrecords : ∀ file ∈ files, ∃ numbers, LineNumbers file.body numbers ∧
      (fileLines file.body).map (·.record) =
        numbers.map fun number => (⟨file.path, some number⟩ : LineRecord) := by
    intro file hfile
    obtain ⟨numbers, hnumbers, hlines⟩ := exists_fileLines (read file hfile).fileTokens
    refine ⟨numbers, hnumbers, ?_⟩
    rw [hlines, List.map_map]
    rfl
  refine ⟨?_, ?_⟩
  · intro file hfile
    obtain ⟨numbers, hnumbers, heq⟩ := hrecords file hfile
    rw [heq, List.pairwise_map]
    refine hnumbers.ascending.imp ?_
    intro a b hlt hsame
    injection hsame with _ hnumber
    injection hnumber with hnumber
    omega
  · rw [List.nodup_iff_pairwise_ne, List.pairwise_map] at distinct
    refine distinct.imp_of_mem ?_
    intro first second hfirst hsecond hne a ha b hb hsame
    obtain ⟨numbers, -, heq⟩ := hrecords first hfirst
    obtain ⟨numbers', -, heq'⟩ := hrecords second hsecond
    rw [heq] at ha
    rw [heq'] at hb
    obtain ⟨n, -, rfl⟩ := List.mem_map.mp ha
    obtain ⟨n', -, rfl⟩ := List.mem_map.mp hb
    injection hsame with hpath _
    exact hne hpath

end Body

/-! ### The layout of a program -/

theorem Header.ofUnit_eq_ok {file : ShaderUnit} {header : Header}
    (h : ofUnit file = .ok header) :
    header.path = file.path ∧ file.version = some header.version ∧
      file.precision = some header.precision := by
  unfold ofUnit at h
  split at h
  · rename_i stage version precision hstage hversion hprecision
    rw [← Except.ok.inj h]
    exact ⟨rfl, hversion, hprecision⟩
  all_goals exact absurd h (by simp)

private theorem Program.ended_ofParts {header : Header} {constants : List Constant}
    {body : List OutputLine}
    (h : ∀ line ∈ outputLines header constants body, Text.OneLine line.text) :
    ∃ texts : List String, texts.length = (ofParts header constants body).lineTable.length ∧
      (∀ text ∈ texts, Text.OneLine text) ∧
        (ofParts header constants body).source = String.join (texts.map (· ++ "\n")) := by
  refine ⟨(outputLines header constants body).map (·.text), ?_, ?_, ?_⟩
  · simp [ofParts]
  · intro text htext
    obtain ⟨line, hline, rfl⟩ := List.mem_map.mp htext
    exact h line hline
  · rw [List.map_map]
    rfl

namespace Project

variable {project : Project} {settings : Settings}

theorem link_eq_ok_iff {header : Header} {files : List ShaderUnit} {program : Program} :
    link header files = .ok program ↔
      ∃ table, ConstantTable.mergeAll (files.map (·.constants)) = .ok table ∧
        Program.ofParts header (Body.share table.entries (Body.assemble files)).1
          (Body.share table.entries (Body.assemble files)).2 = program := by
  unfold link
  rw [bind_eq_ok_iff]
  constructor
  · intro hsteps
    obtain ⟨table, hmerged, hprogram⟩ := hsteps
    exact ⟨table, hmerged, Except.ok.inj hprogram⟩
  · intro hsteps
    obtain ⟨table, hmerged, hprogram⟩ := hsteps
    exact ⟨table, hmerged, congrArg Except.ok hprogram⟩

/-- The main file declares what the head of the program says, last of all that it declares. -/
private theorem exists_lastDeclares {main : ShaderUnit} {header : Header}
    (loaded : project.loadIncluded settings main.path = .ok main)
    (hheader : Header.ofUnit main = .ok header) :
    ∃ statements, project.Cuts settings main.path statements ∧
      Statement.LastDeclares Statement.version? statements header.version ∧
      Statement.LastDeclares Statement.defaultPrecision? statements header.precision := by
  obtain ⟨statements, constants, hcuts, -, hmain⟩ := exists_cuts loaded
  obtain ⟨-, hversion, hprecision⟩ := Header.ofUnit_eq_ok hheader
  rw [hmain] at hversion hprecision
  exact ⟨statements, hcuts, Statement.lastDeclares_of_getLast? hversion,
    Statement.lastDeclares_of_getLast? hprecision⟩

private theorem oneLine_head {path : String} {statements : List Statement} {header : Header}
    (cuts : project.Cuts settings path statements)
    (version : Statement.LastDeclares Statement.version? statements header.version)
    (precision : Statement.LastDeclares Statement.defaultPrecision? statements header.precision) :
    ∀ line ∈ header.lines, Text.OneLine line.text := by
  obtain ⟨text, -, hcuts⟩ := cuts
  have hversion : Text.OneLine header.version.value := by
    obtain ⟨before, s, after, rfl, hs, -⟩ := version
    exact Statement.oneLine_of_version? hs (hcuts.oneLine s (by simp))
  have hprecision : Text.OneLine header.precision.value := by
    obtain ⟨before, s, after, rfl, hs, -⟩ := precision
    exact Statement.oneLine_of_defaultPrecision? hs (hcuts.oneLine s (by simp))
  intro line hline
  rcases List.mem_cons.mp hline with rfl | hline
  · exact Text.OneLine.append (by simp [Text.OneLine]) hversion
  · rw [List.mem_singleton.mp hline]
    exact (Text.OneLine.append (by simp [Text.OneLine]) hprecision).append
      (by simp [Text.OneLine])

private theorem oneLine_imageLine {constants : List Constant} {body : List OutputLine}
    (names : ∀ c ∈ constants, Text.OneLine c.name)
    (texts : ∀ line ∈ body, Text.OneLine line.text) :
    ∀ line ∈ body.map (imageLine constants), Text.OneLine line.text := by
  intro line hline
  obtain ⟨source, hsource, rfl⟩ := List.mem_map.mp hline
  show '\n' ∉ (String.ofList _).toList
  rw [String.toList_ofList]
  exact Literal.newline_notMem_imageBy (fun c hc _ => names c hc) (texts source hsource)

private theorem exists_parts {files : List ShaderUnit} (read : ∀ file ∈ files, file.IsRead)
    (constants : List Constant) :
    ∃ part : ShaderUnit → List OutputLine,
      (Body.assemble files).map (imageLine constants) = files.flatMap part ∧
        ∀ file ∈ files, ∃ numbers, LineNumbers file.body numbers ∧ part file =
          numbers.map fun number => imageLine constants (lineOf file.path file.body number) := by
  refine ⟨fun file => (Body.fileLines file.body).map (imageLine constants), ?_, ?_⟩
  · rw [Body.assemble, List.map_flatMap]
  · intro file hfile
    obtain ⟨numbers, hnumbers, hlines⟩ := Body.exists_fileLines (read file hfile).fileTokens
    refine ⟨numbers, hnumbers, ?_⟩
    show (Body.fileLines file.body).map _ = _
    rw [hlines, List.map_map]
    rfl

/-- **A program that is built is laid out by its main file and the files listed for it.** -/
theorem layout_of_build {entry : String} {program : Program}
    (built : project.build settings entry = .ok program) :
    ∃ main listing constants body, project.loadMain settings entry = .ok main ∧
      main.path = entry ∧ project.order settings main = .ok listing ∧
      Program.Layout project settings main listing.files constants body program := by
  obtain ⟨main, header, listing, hmain, hheader, horder, hlink⟩ := build_eq_ok_iff.mp built
  obtain ⟨table, hmerged, rfl⟩ := link_eq_ok_iff.mp hlink
  have order := dependencyOrder_of_order hmain horder
  have hread : ∀ file ∈ listing.files, file.IsRead := by
    intro file hfile
    obtain ⟨text, -, hunit⟩ := loadIncluded_eq_ok_iff.mp (order.loaded file hfile)
    exact ⟨settings, file.path, text, hunit⟩
  obtain ⟨statements, hcuts, hversion, hprecision⟩ :=
    exists_lastDeclares (order.loaded main (List.mem_of_getLast? order.last)) hheader
  obtain ⟨hgrows, hbody⟩ := Body.share_assemble hread hmerged
  rw [hbody]
  generalize (Body.share table.entries (Body.assemble listing.files)).1 = constants at hgrows
  have hwell := hgrows.wellFormed (Body.wellFormed_of_mergeAll hread hmerged)
  refine ⟨main, listing, constants, (Body.assemble listing.files).map (imageLine constants),
    hmain, path_of_loadMain hmain, horder, ?_, ?_, ?_, hgrows.distinct table.distinct,
    records_of_grows order.loaded hmerged hgrows, ?_, exists_parts hread constants, ?_⟩
  · refine Program.ended_ofParts ?_
    intro line hline
    rcases List.mem_append.mp hline with hfront | hline
    · rcases List.mem_append.mp hfront with hline | hline
      · exact oneLine_head hcuts hversion hprecision line hline
      · obtain ⟨c, hc, rfl⟩ := List.mem_map.mp hline
        exact Constant.oneLine_declaration (hwell c hc)
    · exact oneLine_imageLine (fun c hc => (hwell c hc).name) (Body.oneLine_assemble hread)
        line hline
  · refine ⟨statements, header.version, header.precision, hcuts, hversion, hprecision, ?_⟩
    rw [← (Header.ofUnit_eq_ok hheader).1]
    exact ⟨rfl, rfl⟩
  · intro file hfile c hc
    refine hgrows.isPrefix.subset ?_
    rw [ConstantTable.entries_of_mergeAll hmerged]
    exact List.mem_flatMap.mpr ⟨file.constants, List.mem_map_of_mem hfile, hc⟩
  · intro file hfile
    obtain ⟨text, htext, hunit⟩ := loadIncluded_eq_ok_iff.mp (order.loaded file hfile)
    obtain ⟨tokens, htokens, hsub⟩ := ShaderUnit.body_sublist hunit
    exact ⟨text, tokens, htext, htokens, hsub⟩
  · rw [Body.map_record_imageLine]
    exact Body.nodup_records_assemble hread order.distinct

/-- Four files, of which one declares a constant that literals of two become. -/
theorem layered_layout :
    ∃ program, layered.build .empty "main" = .ok program ∧
      ∃ main listing constants body, layered.loadMain .empty "main" = .ok main ∧
        main.path = "main" ∧ layered.order .empty main = .ok listing ∧
        Program.Layout layered .empty main listing.files constants body program := by
  obtain ⟨program, hbuild⟩ := layered_builds
  exact ⟨program, hbuild, layout_of_build hbuild⟩

end Project

end ShaderLink
