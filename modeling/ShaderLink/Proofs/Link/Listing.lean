/-
What a listing knows about its files.

A listing finds a file by the place kept for its path, so everything rests on the
places being right: a path has a place exactly when the file there has this path.
That alone makes the paths distinct, and with it the look-up finds a path's file
and no other.

`Ordered` adds what the walk over the includes keeps: every listed file is the one
its path loads, and everything it includes stands before it.
-/
import ShaderLink.Link.Order

namespace ShaderLink

namespace Listing

def paths (listing : Listing) : List String := listing.files.map (·.path)

/-- The places are those of the files. -/
def Placed (listing : Listing) : Prop :=
  ∀ path i, listing.place? path = some i ↔ listing.paths[i]? = some path

@[simp] theorem paths_empty : empty.paths = [] := rfl

@[simp] theorem files_add (listing : Listing) (file : ShaderUnit) :
    (listing.add file).files = listing.files ++ [file] := rfl

@[simp] theorem paths_add (listing : Listing) (file : ShaderUnit) :
    (listing.add file).paths = listing.paths ++ [file.path] := by
  simp [paths]

theorem length_paths (listing : Listing) : listing.paths.length = listing.files.length := by
  simp [paths]

theorem place?_add (listing : Listing) (file : ShaderUnit) (path : String) :
    (listing.add file).place? path =
      if path = file.path then some listing.files.length else listing.place? path := by
  unfold place? add
  rw [List.lookup_cons]
  by_cases h : path = file.path
  · simp [h]
  · have hbeq : (path == file.path) = false := by simpa using h
    simp [h, hbeq]

/-! ### Places -/

namespace Placed

variable {listing : Listing}

theorem empty : Placed Listing.empty := by
  intro path i
  simp [place?, Listing.empty, paths]

/-- A path that stood at two places would have both. -/
theorem nodup (h : listing.Placed) : listing.paths.Nodup := by
  rw [List.nodup_iff_pairwise_ne, List.pairwise_iff_getElem]
  intro i j hi hj hij heq
  have hplace : listing.place? listing.paths[i] = some i := (h _ _).mpr (List.getElem?_eq_getElem hi)
  have hother : listing.place? listing.paths[j] = some j := (h _ _).mpr (List.getElem?_eq_getElem hj)
  rw [heq, hother, Option.some.injEq] at hplace
  omega

theorem find?_eq_some_iff (h : listing.Placed) (path : String) (file : ShaderUnit) :
    listing.find? path = some file ↔ file ∈ listing.files ∧ file.path = path := by
  unfold find?
  constructor
  · intro hfind
    obtain ⟨i, hplace, hfile⟩ := Option.bind_eq_some_iff.mp hfind
    have hpath := (h path i).mp hplace
    rw [paths, List.getElem?_map, hfile] at hpath
    exact ⟨List.mem_of_getElem? hfile, Option.some.inj hpath⟩
  · intro hfile
    obtain ⟨hmem, rfl⟩ := hfile
    obtain ⟨i, hi⟩ := List.mem_iff_getElem?.mp hmem
    have hplace : listing.place? file.path = some i := by
      rw [h, paths, List.getElem?_map, hi]
      rfl
    rw [hplace]
    exact hi

theorem find?_eq_none_iff (h : listing.Placed) (path : String) :
    listing.find? path = none ↔ path ∉ listing.paths := by
  rw [← Option.not_isSome_iff_eq_none, Option.isSome_iff_exists]
  refine not_congr ?_
  rw [paths, List.mem_map]
  exact exists_congr fun file => h.find?_eq_some_iff path file

/-- A new path's place is behind the others. -/
theorem add (h : listing.Placed) {file : ShaderUnit} (fresh : file.path ∉ listing.paths) :
    (listing.add file).Placed := by
  intro path i
  rw [place?_add, paths_add, List.getElem?_append, length_paths]
  by_cases hpath : path = file.path
  · subst hpath
    rw [if_pos rfl]
    by_cases hi : i < listing.files.length
    · rw [if_pos hi]
      constructor
      · intro he
        rw [Option.some.injEq] at he
        omega
      · intro he
        exact absurd (List.mem_of_getElem? he) fresh
    · rw [if_neg hi, List.getElem?_singleton]
      constructor
      · intro he
        rw [Option.some.injEq] at he
        rw [if_pos (by omega)]
      · intro he
        by_cases hz : i - listing.files.length = 0
        · rw [Option.some.injEq]
          omega
        · rw [if_neg hz] at he
          exact absurd he (by simp)
  · rw [if_neg hpath, h]
    by_cases hi : i < listing.files.length
    · rw [if_pos hi]
    · rw [if_neg hi, List.getElem?_eq_none (by rw [length_paths]; omega), List.getElem?_singleton]
      split
      · simp [Ne.symm hpath]
      · simp

end Placed

/-! ### Order -/

variable {load : String → Except BuildError ShaderUnit}

/-- The files are those their paths load, and each stands behind all it includes. -/
structure Ordered (load : String → Except BuildError ShaderUnit) (listing : Listing) : Prop where
  placed : listing.Placed
  loaded : ∀ file ∈ listing.files, load file.path = .ok file
  behind : ∀ (i : Nat) (file : ShaderUnit), listing.files[i]? = some file →
    ∀ path ∈ file.includes, ∃ j, listing.paths[j]? = some path ∧ j < i

namespace Ordered

variable {listing : Listing}

theorem empty (load : String → Except BuildError ShaderUnit) : Ordered load Listing.empty :=
  ⟨.empty, by simp [Listing.empty], by simp [Listing.empty]⟩

/-- A file may be added once everything it includes is listed. -/
theorem add (h : Ordered load listing) {file : ShaderUnit} (fresh : file.path ∉ listing.paths)
    (loaded : load file.path = .ok file) (ready : ∀ path ∈ file.includes, path ∈ listing.paths) :
    Ordered load (listing.add file) := by
  refine ⟨h.placed.add fresh, ?_, ?_⟩
  · intro other hother
    rcases List.mem_append.mp hother with hold | hnew
    · exact h.loaded other hold
    · rw [List.mem_singleton.mp hnew]
      exact loaded
  · intro i other hi path hpath
    rw [files_add] at hi
    by_cases hlt : i < listing.files.length
    · rw [List.getElem?_append_left hlt] at hi
      obtain ⟨j, hj, hji⟩ := h.behind i other hi path hpath
      refine ⟨j, ?_, hji⟩
      rw [paths_add, List.getElem?_append_left (by rw [length_paths]; omega)]
      exact hj
    · -- The new file: what it includes is listed, so it has a place below the length.
      have hlast : other = file := by
        rw [List.getElem?_append_right (by omega), List.getElem?_singleton] at hi
        split at hi
        · exact (Option.some.inj hi).symm
        · exact absurd hi (by simp)
      rw [hlast] at hpath
      obtain ⟨j, hj⟩ := List.mem_iff_getElem?.mp (ready path hpath)
      have hjlt : j < listing.paths.length := (List.getElem?_eq_some_iff.mp hj).1
      refine ⟨j, ?_, by rw [length_paths] at hjlt; omega⟩
      rw [paths_add, List.getElem?_append_left hjlt]
      exact hj

theorem mem_paths_of_mem_includes (h : Ordered load listing) {file : ShaderUnit}
    (hfile : file ∈ listing.files) {path : String} (hpath : path ∈ file.includes) :
    path ∈ listing.paths := by
  obtain ⟨i, hi⟩ := List.mem_iff_getElem?.mp hfile
  obtain ⟨j, hj, -⟩ := h.behind i file hi path hpath
  exact List.mem_of_getElem? hj

theorem mem_files_of_load (h : Ordered load listing) {path : String} {file : ShaderUnit}
    (hpath : path ∈ listing.paths) (hload : load path = .ok file) : file ∈ listing.files := by
  obtain ⟨listed, hmem, rfl⟩ := List.mem_map.mp hpath
  have := h.loaded listed hmem
  rw [hload] at this
  rwa [Except.ok.inj this]

end Ordered

end Listing

end ShaderLink
