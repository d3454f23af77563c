/-
The listing that a build works from.

A build that succeeds has listed the main file and everything it includes,
directly or through others: each path once, every file behind what it includes,
the main file last, and nothing else.  The places kept beside the files are the
places in this list.
-/
import ShaderLink.Proofs.Link.Walk
import ShaderLink.Proofs.Unit.Loading

namespace ShaderLink

open Relation (ReflTransGen TransGen)

variable {load : String → Except BuildError ShaderUnit}

/-- A listing of a main file and all it needs. -/
structure Listing.DependencyOrder (load : String → Except BuildError ShaderUnit)
    (main : ShaderUnit) (listing : Listing) : Prop where
  /-- Every listed file is what its path loads. -/
  loaded : ∀ file ∈ listing.files, load file.path = .ok file
  /-- No path is listed twice. -/
  distinct : listing.paths.Nodup
  /-- The paths are those that the main file is or leads to. -/
  reached : ∀ path, path ∈ listing.paths ↔ ReflTransGen (Includes load) main.path path
  /-- The main file is last. -/
  last : listing.files.getLast? = some main
  /-- What a file includes stands before it. -/
  behind : ∀ (i : Nat) (file : ShaderUnit), listing.files[i]? = some file →
    ∀ path ∈ file.includes, ∃ j, listing.paths[j]? = some path ∧ j < i
  /-- The places are the indices in the list. -/
  placed : ∀ path i, listing.place? path = some i ↔ listing.paths[i]? = some path

theorem Listing.Ordered.mem_paths_of_reaches {listing : Listing} (h : listing.Ordered load)
    {path other : String} (hreach : ReflTransGen (Includes load) path other)
    (hpath : path ∈ listing.paths) : other ∈ listing.paths := by
  induction hreach with
  | refl => exact hpath
  | tail _ hstep ih =>
      obtain ⟨file, hload, hincl⟩ := hstep
      exact h.mem_paths_of_mem_includes (h.mem_files_of_load ih hload) hincl

/-- A file that the main file leads to is listed as its path loads it. -/
theorem Listing.DependencyOrder.mem_files {main file : ShaderUnit} {listing : Listing}
    (order : listing.DependencyOrder load main) {path : String}
    (reaches : ReflTransGen (Includes load) main.path path) (loaded : load path = .ok file) :
    file ∈ listing.files := by
  obtain ⟨listed, hmem, rfl⟩ := List.mem_map.mp ((order.reached path).mpr reaches)
  have hsame := order.loaded listed hmem
  rw [loaded] at hsame
  rwa [Except.ok.inj hsame]

/-- A walk over the includes of a main file, begun with nothing listed, ends in its dependency
order once the main file is added. -/
theorem Walk.dependencyOrder (names : Names load) {main : ShaderUnit}
    (loaded : load main.path = .ok main) {inner : Listing}
    (walk : Walk load [] main main.includes .empty inner) :
    (inner.add main).DependencyOrder load main := by
  obtain ⟨hinner, hextends, hincludes⟩ := walk.ordered names (.empty load)
  have hordered := Walk.ordered_add hinner hextends hincludes (by simp) loaded
  refine ⟨hordered.loaded, hordered.placed.nodup, ?_, ?_, hordered.behind, hordered.placed⟩
  · intro path
    constructor
    · intro hpath
      rw [Listing.paths_add] at hpath
      rcases List.mem_append.mp hpath with hold | hnew
      · obtain ⟨file, hfile, rfl⟩ := List.mem_map.mp hold
        rcases hextends.added file hfile with hempty | ⟨-, start, hstart, hreach⟩
        · exact absurd hempty (by simp [Listing.empty])
        · exact .head ⟨main, loaded, hstart⟩ hreach
      · rw [List.mem_singleton.mp hnew]
    · intro hreach
      exact hordered.mem_paths_of_reaches hreach (by simp)
  · simp

namespace Project

variable {project : Project} {settings : Settings}

theorem names_loadIncluded (project : Project) (settings : Settings) :
    Names (project.loadIncluded settings) :=
  fun _ _ h => path_of_loadIncluded h

theorem walk_of_order {main : ShaderUnit} {listing : Listing}
    (h : project.order settings main = .ok listing) :
    ∃ inner, Walk (project.loadIncluded settings) [] main main.includes .empty inner ∧
      listing = inner.add main :=
  Order.walk_of_visit project.source.depth [] .empty main listing h

theorem dependencyOrder_of_order {entry : String} {main : ShaderUnit} {listing : Listing}
    (hmain : project.loadMain settings entry = .ok main)
    (horder : project.order settings main = .ok listing) :
    listing.DependencyOrder (project.loadIncluded settings) main := by
  obtain ⟨inner, walk, rfl⟩ := walk_of_order horder
  exact walk.dependencyOrder (names_loadIncluded project settings) (loadIncluded_of_loadMain hmain)

/-- **Whatever a build that succeeds was given, the files it links are the dependency order of the
main file.** -/
theorem dependencyOrder_of_build {entry : String} {program : Program}
    (built : project.build settings entry = .ok program) :
    ∃ main listing, project.loadMain settings entry = .ok main ∧ main.path = entry ∧
      project.order settings main = .ok listing ∧
      listing.DependencyOrder (project.loadIncluded settings) main := by
  obtain ⟨main, header, listing, hmain, -, horder, -⟩ := build_eq_ok_iff.mp built
  exact ⟨main, listing, hmain, path_of_loadMain hmain, horder, dependencyOrder_of_order hmain horder⟩

/-- A project whose main file includes the middle file first.  The old file includes it too and
leads through it, a file without a version, to the new one. -/
def layered : Project where
  source := (Registry.ofList [
    ("main", "#version 310\n#type VERTEX\nprecision highp float;\n#include mid\n#include old\n" ++
      "x = 2 + N;\n"),
    ("mid", "#include new\n"),
    ("old", "#version 100\n#include mid\nconst int N = 2;\n"),
    ("new", "#version 300\ny = 0.5;\n")]).toSource
  root := ""

theorem layered_builds : ∃ program, layered.build .empty "main" = .ok program :=
  exists_eq_ok_of_toBool (by decide +kernel)

/-- Four files, of which the middle one is included twice. -/
theorem layered_dependencyOrder :
    ∃ program, layered.build .empty "main" = .ok program ∧
      ∃ main listing, layered.loadMain .empty "main" = .ok main ∧ main.path = "main" ∧
        layered.order .empty main = .ok listing ∧
        listing.DependencyOrder (layered.loadIncluded .empty) main := by
  obtain ⟨program, hbuild⟩ := layered_builds
  exact ⟨program, hbuild, dependencyOrder_of_build hbuild⟩

end Project

end ShaderLink
