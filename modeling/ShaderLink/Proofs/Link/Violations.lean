/-
The version violation that a failed build tells.

A build that stops at a version tells two files: the included one, and the one that
set the ceiling it stands above.  Both are real: the second lies on a chain of includes
from the entry that goes on to the first, each declares the version told of it, and no
file of the chain before the included one declares a lower version than the ceiling.

The chain is the one that was being visited, so what is told is true of it whether the
included file was loaded there or had been listed before, over another chain.
-/
import ShaderLink.Proofs.Link.Cycles

namespace ShaderLink

variable {load : String → Except BuildError ShaderUnit} {entry : String}

namespace Ceiling

/-- A ceiling below a file is the file's own or the one above. -/
private theorem tighten_eq_some {ceiling : Option Ceiling} {file : ShaderUnit} {c : Ceiling}
    (h : tighten ceiling file = some c) : ofUnit? file = some c ∨ ceiling = some c := by
  unfold tighten at h
  split at h
  · rename_i above own hown
    split at h
    · exact .inl (hown.trans h)
    · exact .inr h
  · exact .inr h
  · exact .inl h

/-- The ceiling of a chain is set by a file of it. -/
private theorem exists_of_ofChain {chain : List ShaderUnit} {c : Ceiling}
    (h : ofChain chain = some c) : ∃ file ∈ chain, ofUnit? file = some c := by
  induction chain using List.reverseRecOn with
  | nil => exact absurd h (by simp)
  | append_singleton chain file ih =>
      rw [ofChain_append] at h
      rcases tighten_eq_some h with hself | habove
      · exact ⟨file, by simp, hself⟩
      · obtain ⟨other, hother, hc⟩ := ih habove
        exact ⟨other, List.mem_append_left _ hother, hc⟩

/-- The ceiling that a file sets tells its path, its version as declared, and the number of it. -/
theorem ofUnit?_eq_some_iff {file : ShaderUnit} {c : Ceiling} :
    ofUnit? file = some c ↔
      (∃ line, file.version = some ⟨c.version, line⟩) ∧ file.versionNumber? = some c.number ∧
        file.path = c.path := by
  unfold ofUnit? ShaderUnit.versionNumber?
  cases file.version with
  | none => simp
  | some version =>
      show ((versionNumber? version.value).bind fun number =>
        some (Ceiling.mk number version.value file.path)) = some c ↔
          _ ∧ versionNumber? version.value = some c.number ∧ _
      rw [Option.bind_eq_some_iff]
      constructor
      · rintro ⟨number, hnumber, hc⟩
        rw [← Option.some.inj hc]
        exact ⟨⟨version.line, rfl⟩, hnumber, rfl⟩
      · rintro ⟨⟨line, hversion⟩, hnumber, hpath⟩
        rw [Option.some.inj hversion] at hnumber ⊢
        exact ⟨c.number, hnumber, by rw [hpath]⟩

end Ceiling

/-- A file exceeds the version of another that leads to it: `chain` are the files of a chain of
includes from an entry on, of which the other is one, and the file ends it. -/
structure Exceeds (load : String → Except BuildError ShaderUnit) (entry : String)
    (chain : List ShaderUnit) (upper file : ShaderUnit) : Prop where
  /-- The chain is one of files as their paths load them. -/
  loaded : ∀ other ∈ chain ++ [file], load other.path = .ok other
  linked : IncludeChain load entry ((chain ++ [file]).map (·.path))
  through : upper ∈ chain
  /-- The version exceeded is declared, and so is the greater one. -/
  greater : ∃ n m, upper.versionNumber? = some n ∧ file.versionNumber? = some m ∧ n < m
  /-- No file of the chain before the last declares a lower version than the one exceeded. -/
  lowest : ∀ other ∈ chain, upper.KeepsWithin other

/-- A file is told by its path and its version. -/
def ShaderUnit.IsTold (file : ShaderUnit) (path version : String) : Prop :=
  file.path = path ∧ ∃ line, file.version = some ⟨version, line⟩

/-- A file that fails the check of a chain exceeds the file that set the ceiling. -/
theorem Exceeds.of_check {above : List ShaderUnit} {file next : ShaderUnit} {error : BuildError}
    (leads : LeadsTo load entry above file) (loaded : ∀ other ∈ above ++ [file],
      load other.path = .ok other) (included : next.path ∈ file.includes)
    (offChain : next.path ∉ (above ++ [file]).map (·.path)) (loadedNext : load next.path = .ok next)
    (checked : Ceiling.check (Ceiling.ofChain (above ++ [file])) next = .error error) :
    ∃ upper own ceiling, Exceeds load entry (above ++ [file]) upper next ∧
      Ceiling.ofUnit? upper = some ceiling ∧ Ceiling.ofUnit? next = some own ∧
        error = .versionViolation own.path own.version ceiling.path ceiling.version := by
  obtain ⟨ceiling, own, hceiling, hown, hlt, herror⟩ := Ceiling.check_eq_error_iff.mp checked
  obtain ⟨upper, hupper, hset⟩ := Ceiling.exists_of_ofChain hceiling
  have hupperNumber := (Ceiling.ofUnit?_eq_some_iff.mp hset).2.1
  have hownNumber := (Ceiling.ofUnit?_eq_some_iff.mp hown).2.1
  refine ⟨upper, own, ceiling, ⟨?_, ?_, hupper, ⟨_, _, hupperNumber, hownNumber, hlt⟩, ?_⟩, hset,
    hown, herror⟩
  · intro other hother
    rcases List.mem_append.mp hother with hmem | hlast
    · exact loaded other hmem
    · rw [List.mem_singleton.mp hlast]
      exact loadedNext
  · have hchain := leads.chain
    rw [List.map_append, List.map_singleton] at hchain offChain
    rw [List.map_append, List.map_append, List.map_singleton, List.map_singleton]
    exact hchain.snoc (leads.includes included) offChain
  · intro other hother m n hm hn
    obtain ⟨c, hc, hle⟩ := (Ceiling.lowest_ofChain (above ++ [file])).least other hother n hn
    rw [hceiling, Option.some.injEq] at hc
    rw [hupperNumber, Option.some.injEq] at hm
    rw [← hm, hc]
    exact hle

/-- **A visit that stops with a violation has found one**, as no file that cannot be loaded tells of
a violation. -/
theorem Stops.exceeds_of_versionViolation (names : Names load)
    (loads : ∀ path error, load path = .error error → ¬ error.OfOrder) {above : List ShaderUnit}
    {file : ShaderUnit} {todo : List String} {before : Listing}
    {path version includer includerVersion : String}
    (stops : Stops load above file todo before
      (.versionViolation path version includer includerVersion))
    (leads : LeadsTo load entry above file)
    (loaded : ∀ other ∈ above ++ [file], load other.path = .ok other)
    (todoIncluded : todo ⊆ file.includes) (ordered : before.Ordered load) :
    ∃ chain upper last, Exceeds load entry chain upper last ∧ last.IsTold path version ∧
      upper.IsTold includer includerVersion := by
  generalize herror : BuildError.versionViolation path version includer includerVersion = error
    at stops
  induction stops with
  | cycle onChain => exact absurd herror (by simp)
  | unloaded offChain unlisted failed =>
      have hofOrder : (BuildError.versionViolation path version includer includerVersion).OfOrder :=
        trivial
      rw [herror] at hofOrder
      exact absurd hofOrder (loads _ _ failed)
  | @exceeds above file next first rest before error offChain found checked =>
      -- Listed or loaded now, the file is what the included path loads.
      obtain ⟨hload, rfl⟩ : load next.path = .ok next ∧ next.path = first := by
        rcases found with hlisted | ⟨-, hload⟩
        · obtain ⟨hmem, hpath⟩ := (ordered.placed.find?_eq_some_iff _ _).mp hlisted
          exact ⟨ordered.loaded next hmem, hpath⟩
        · have hpath := names first next hload
          exact ⟨by rw [hpath]; exact hload, hpath⟩
      obtain ⟨upper, own, ceiling, hexceeds, hset, hown, rfl⟩ := Exceeds.of_check leads loaded
        (todoIncluded (List.mem_cons_self ..)) offChain hload checked
      obtain ⟨rfl, rfl, rfl, rfl⟩ := BuildError.versionViolation.inj herror
      obtain ⟨hupperVersion, -, hupperPath⟩ := Ceiling.ofUnit?_eq_some_iff.mp hset
      obtain ⟨hnextVersion, -, hnextPath⟩ := Ceiling.ofUnit?_eq_some_iff.mp hown
      exact ⟨_, upper, next, hexceeds, ⟨hnextPath, hnextVersion⟩, ⟨hupperPath, hupperVersion⟩⟩
  | @inside above file next first rest before error offChain unlisted loadedNext checked stops ih =>
      obtain rfl : next.path = first := names first next loadedNext
      refine ih (leads.descend names (todoIncluded (List.mem_cons_self ..)) offChain loadedNext) ?_
        (List.Subset.refl _) ordered herror
      intro other hother
      rcases List.mem_append.mp hother with hmem | hlast
      · exact loaded other hmem
      · rw [List.mem_singleton.mp hlast]
        exact loadedNext
  | onward walked stops ih =>
      exact ih leads loaded (fun _ hmem => todoIncluded (List.mem_cons_of_mem _ hmem))
        (walked.ordered names ordered).1 herror

namespace Project

variable {project : Project} {settings : Settings}

/-- **A build that fails with a version violation tells a real one.** -/
theorem exceeds_of_build {path version includer includerVersion : String}
    (failed : project.build settings entry =
      .error (.versionViolation path version includer includerVersion)) :
    ∃ chain upper file, Exceeds (project.loadIncluded settings) entry chain upper file ∧
      file.IsTold path version ∧ upper.IsTold includer includerVersion := by
  have hofOrder : (BuildError.versionViolation path version includer includerVersion).OfOrder :=
    trivial
  obtain ⟨main, hmain, horder⟩ := order_of_error hofOrder failed
  have hloaded := loadIncluded_of_loadMain hmain
  have hall : ∀ other ∈ [] ++ [main], project.loadIncluded settings other.path = .ok other := by
    intro other hother
    rw [List.nil_append, List.mem_singleton] at hother
    rw [hother]
    exact hloaded
  have hexceeds := (stops_of_order hloaded horder).exceeds_of_versionViolation
    (names_loadIncluded project settings) (fun _ _ => not_ofOrder_of_loadIncluded) (.main hloaded)
    hall (List.Subset.refl _) (.empty _)
  rwa [path_of_loadMain hmain] at hexceeds

/-- A project whose old file leads, over the middle file, to a new one.  The new file is listed before
and keeps within the main file, but not within the old one. -/
def overreaching : Project where
  source := (Registry.ofList [
    ("main", "#version 310\n#type VERTEX\nprecision highp float;\n#include new\n#include old\n"),
    ("new", "#version 300\nx = 1;\n"),
    ("old", "#version 200\n#include mid\n"),
    ("mid", "#include new\n")]).toSource
  root := ""

theorem overreaching_exceeds :
    overreaching.build .empty "main" = .error (.versionViolation "new" "300" "old" "200") ∧
      ∃ chain upper file, Exceeds (overreaching.loadIncluded .empty) "main" chain upper file ∧
        file.IsTold "new" "300" ∧ upper.IsTold "old" "200" := by
  have hfailed : overreaching.build .empty "main" =
      .error (.versionViolation "new" "300" "old" "200") := by decide +kernel
  exact ⟨hfailed, exceeds_of_build hfailed⟩

end Project

end ShaderLink
