/-
Names of added constants and the words of a body.

A build adds constants for the literals of its body that no declared constant has the
value of, and keeps their names apart from those of the constants that there are.  It
does not look at the words of the body.  A parameter or a variable may so be named as
an added constant is, and the name that a literal is given then means the other.

Which names are added can be told before any is, from the declared constants and the
literals alone.  So no name is captured exactly when none of these is a word of the body.
-/
import ShaderLink.Proofs.Literal.Minting
import ShaderLink.Proofs.Program.Layout

namespace ShaderLink

/-- A word stands in code, with no word character on either side of it. -/
def Text.HasWord (code word : List Char) : Prop :=
  word ≠ [] ∧ word.all isPlainWordChar = true ∧
    ∃ before after, code = before ++ word ++ after ∧
      before.getLast?.any isPlainWordChar = false ∧ after.head?.any isPlainWordChar = false

/-- No constant that is added to others for the literals of code takes a word of it for its name. -/
def Literal.Clear (constants : List Constant) (code : List Char) : Prop :=
  ∀ kind value, Unheld constants code kind value →
    ¬ Text.HasWord code (freshName (constants.map (·.name)) (baseName kind value)).toList

/-- The constants of a program: those that its files declare, and those added for its body. -/
structure Program.Additions (main : ShaderUnit) (files : List ShaderUnit) (declared : ConstantTable)
    (added : List Constant) (program : Program) : Prop where
  merged : ConstantTable.mergeAll (files.map (·.constants)) = .ok declared
  /-- The program lists the declared ones, then the added ones. -/
  laid : ∃ header, Header.ofUnit main = .ok header ∧
    program = ofParts header (declared.entries ++ added)
      (Body.share declared.entries (Body.assemble files)).2
  minted : ∀ c ∈ added, Literal.Mints declared.entries c
  /-- They are added for the literals in range whose value no file declares, and for no others. -/
  literals : ∀ kind value,
    Literal.Unheld declared.entries (Body.code (Body.assemble files)) kind value ↔
      ∃ c ∈ added, c.kind = kind ∧ c.value = value

theorem Program.Additions.clear_iff {main : ShaderUnit} {files : List ShaderUnit}
    {declared : ConstantTable} {added : List Constant} {program : Program}
    (h : Additions main files declared added program) :
    Literal.Clear declared.entries (Body.code (Body.assemble files)) ↔
      ∀ c ∈ added, ¬ Text.HasWord (Body.code (Body.assemble files)) c.name.toList := by
  constructor
  · intro clear c hc
    rw [(h.minted c hc).name]
    exact clear c.kind c.value ((h.literals c.kind c.value).mpr ⟨c, hc, rfl, rfl⟩)
  · intro away kind value hunheld
    obtain ⟨c, hc, rfl, rfl⟩ := (h.literals kind value).mp hunheld
    rw [← (h.minted c hc).name]
    exact away c hc

namespace Project

variable {project : Project} {settings : Settings} {entry : String} {program : Program}

theorem exists_additions_of_link {main : ShaderUnit} {header : Header} {files : List ShaderUnit}
    (hheader : Header.ofUnit main = .ok header) (linked : link header files = .ok program) :
    ∃ declared added, Program.Additions main files declared added program := by
  obtain ⟨declared, hmerged, hprogram⟩ := link_eq_ok_iff.mp linked
  obtain ⟨added, hadded, hminted, hexact⟩ := Literal.exists_added_share declared.entries
    (Body.code (Body.assemble files))
  rw [Body.share_fst, hadded] at hprogram
  exact ⟨declared, added, hmerged, ⟨header, hheader, hprogram.symm⟩, hminted, hexact⟩

/-- **No added constant of a program is named as a word of its body exactly when none of the names
that its declared constants leave free for its literals is such a word.** -/
theorem uncaptured_iff_of_build (built : project.build settings entry = .ok program) :
    ∃ main listing declared added, project.loadMain settings entry = .ok main ∧
      project.order settings main = .ok listing ∧
        Program.Additions main listing.files declared added program ∧
          ((∀ c ∈ added, ¬ Text.HasWord (Body.code (Body.assemble listing.files)) c.name.toList) ↔
            Literal.Clear declared.entries (Body.code (Body.assemble listing.files))) := by
  obtain ⟨main, header, listing, hmain, hheader, horder, hlink⟩ := build_eq_ok_iff.mp built
  obtain ⟨declared, added, additions⟩ := exists_additions_of_link hheader hlink
  exact ⟨main, listing, declared, added, hmain, horder, additions, additions.clear_iff.symm⟩

/-- Four files, of which two have literals in their bodies. -/
theorem layered_uncaptured_iff :
    ∃ program, layered.build .empty "main" = .ok program ∧
      ∃ main listing declared added, layered.loadMain .empty "main" = .ok main ∧
        layered.order .empty main = .ok listing ∧
          Program.Additions main listing.files declared added program ∧
            ((∀ c ∈ added,
                ¬ Text.HasWord (Body.code (Body.assemble listing.files)) c.name.toList) ↔
              Literal.Clear declared.entries (Body.code (Body.assemble listing.files))) := by
  obtain ⟨program, hbuild⟩ := layered_builds
  exact ⟨program, hbuild, uncaptured_iff_of_build hbuild⟩

/-- A project whose function has a parameter that is named as the integer in it would be. -/
def captured : Project where
  source := (Registry.ofList [
    ("main", "#version 300 es\n#type FRAGMENT\nprecision mediump float;\n" ++
      "int f ( int I_6 ) \x7b return I_6 + 6 ; \x7d\n")]).toSource
  root := ""

/-- The constants of a project's files, their body, and the source of the program. -/
def outline (project : Project) (entry : String) :
    Except BuildError (List Constant × String × String) := do
  let main ← project.loadMain .empty entry
  let header ← Header.ofUnit main
  let listing ← project.order .empty main
  let declared ← ConstantTable.mergeAll (listing.files.map (·.constants))
  let program ← link header listing.files
  .ok (declared.entries, String.ofList (Body.code (Body.assemble listing.files)), program.source)

/-- **The name that the integer is given means the parameter**: the program adds the parameter to
itself. -/
theorem captured_by_parameter :
    ∃ program, captured.build .empty "main" = .ok program ∧
      program.source = "#version 300 es\nprecision mediump float;\nconst int I_6 = 6;\n" ++
        "int f ( int I_6 ) \x7b return I_6 + I_6 ; \x7d\n" ∧
      ∃ main listing declared added, captured.loadMain .empty "main" = .ok main ∧
        captured.order .empty main = .ok listing ∧
          Program.Additions main listing.files declared added program ∧
            ∃ c ∈ added,
              Text.HasWord (Body.code (Body.assemble listing.files)) c.name.toList := by
  have houtline : captured.outline "main" =
      .ok ([], "int f ( int I_6 ) \x7b return I_6 + 6 ; \x7d",
        "#version 300 es\nprecision mediump float;\nconst int I_6 = 6;\n" ++
          "int f ( int I_6 ) \x7b return I_6 + I_6 ; \x7d\n") := by decide +kernel
  unfold outline at houtline
  simp only [bind_eq_ok_iff, Except.ok.injEq, Prod.mk.injEq] at houtline
  obtain ⟨main, hmain, header, hheader, listing, horder, table, htable, program, hlink,
    hdeclared, hcode, hsource⟩ := houtline
  obtain ⟨declared, added, additions⟩ := exists_additions_of_link hheader hlink
  rw [← Except.ok.inj (additions.merged.symm.trans htable)] at hdeclared
  replace hcode := String.ofList_inj.mp hcode
  refine ⟨program, build_eq_ok_iff.mpr ⟨main, header, listing, hmain, hheader, horder, hlink⟩,
    hsource, main, listing, declared, added, hmain, horder, additions, ?_⟩
  have hunheld : Literal.Unheld declared.entries (Body.code (Body.assemble listing.files)) .int
      (.int 6) := by
    rw [hdeclared, hcode]
    exact ⟨⟨['6'], by decide +kernel, by decide +kernel⟩, rfl⟩
  obtain ⟨c, hc, hkind, hvalue⟩ := (additions.literals .int (.int 6)).mp hunheld
  refine ⟨c, hc, ?_⟩
  rw [(additions.minted c hc).name, hkind, hvalue, hdeclared, hcode]
  exact ⟨by decide +kernel, by decide +kernel, "int f ( int ".toList,
    " ) \x7b return I_6 + 6 ; \x7d".toList, by decide +kernel⟩

end Project

end ShaderLink
