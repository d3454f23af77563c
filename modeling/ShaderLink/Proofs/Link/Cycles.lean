/-
Cycles of includes.

A build that succeeds has put every file behind those it includes, so no file it
reaches leads back to itself.  A build that fails with a cycle tells one: the cycle
is the part of a chain of includes from the path on that closes it, and a chain
repeats no path.

For the second the bound on the length of a chain has to be out of reach.  Every path
of a chain but the first is named in some text of the source, no two of them are the
same, and a text names no more paths than it has characters.
-/
import Mathlib.Data.List.TakeWhile
import ShaderLink.Proofs.Constant.Table
import ShaderLink.Proofs.Link.Dependencies
import ShaderLink.Proofs.Link.Stops
import ShaderLink.Proofs.Unit.Failures
import ShaderLink.Proofs.Unit.Inclusions

namespace ShaderLink

open Relation (ReflTransGen TransGen)

variable {load : String → Except BuildError ShaderUnit} {entry : String}

/-! ### No cycle in a dependency order -/

namespace Listing.DependencyOrder

variable {main : ShaderUnit} {listing : Listing} {path other : String}

/-- What a listed path leads to stands before it. -/
theorem before_of_leads (order : listing.DependencyOrder load main)
    (leads : TransGen (Includes load) path other) {i : Nat} (hi : listing.paths[i]? = some path) :
    ∃ j, listing.paths[j]? = some other ∧ j < i := by
  have hstep {upper lower : String} (step : Includes load upper lower) {i : Nat}
      (hi : listing.paths[i]? = some upper) : ∃ j, listing.paths[j]? = some lower ∧ j < i := by
    obtain ⟨file, hload, hincludes⟩ := step
    rw [paths, List.getElem?_map] at hi
    obtain ⟨listed, hlisted, rfl⟩ := Option.map_eq_some_iff.mp hi
    have hsame := order.loaded listed (List.mem_of_getElem? hlisted)
    rw [hload] at hsame
    rw [Except.ok.inj hsame] at hincludes
    exact order.behind i listed hlisted lower hincludes
  induction leads with
  | single step => exact hstep step hi
  | tail _ step ih =>
      obtain ⟨j, hj, hji⟩ := ih
      obtain ⟨k, hk, hkj⟩ := hstep step hj
      exact ⟨k, hk, by omega⟩

/-- **No file of a dependency order leads to itself.** -/
theorem acyclic (order : listing.DependencyOrder load main)
    (reaches : ReflTransGen (Includes load) main.path path) :
    ¬ TransGen (Includes load) path path := by
  intro leads
  obtain ⟨i, hi⟩ := List.mem_iff_getElem?.mp ((order.reached path).mpr reaches)
  obtain ⟨j, hj, hji⟩ := order.before_of_leads leads hi
  have hlength : j < listing.paths.length := (List.getElem?_eq_some_iff.mp hj).1
  have hsame := (List.getElem?_inj hlength order.distinct).mp (hj.trans hi.symm)
  omega

end Listing.DependencyOrder

/-! ### The cycle that is told -/

/-- A cycle of includes that an entry leads to, told from the path on that closes it. -/
structure IncludeCycle (load : String → Except BuildError ShaderUnit) (entry : String)
    (cycle : List String) : Prop where
  /-- At the least a file includes itself. -/
  long : 2 ≤ cycle.length
  /-- The path at both ends is one, and the entry leads to it. -/
  closed : ∃ path, cycle.head? = some path ∧ cycle.getLast? = some path ∧
    ReflTransGen (Includes load) entry path
  /-- No other path repeats. -/
  distinct : cycle.dropLast.Nodup
  /-- Each path is included by the one before it. -/
  linked : cycle.IsChain (Includes load)

/-- The part of a chain from one of its paths on, closed by that path, is a cycle when the last of
the chain includes it. -/
theorem IncludeChain.cycleAt {front : List String} {last path : String}
    (h : IncludeChain load entry (front ++ [last])) (onChain : path ∈ front ++ [last])
    (step : Includes load last path) :
    IncludeCycle load entry (Order.cycleAt (front ++ [last]) path) := by
  unfold Order.cycleAt
  have hsuffix := List.dropWhile_suffix (l := front ++ [last]) (· != path)
  obtain ⟨first, rest, hpart⟩ : ∃ first rest,
      (front ++ [last]).dropWhile (· != path) = first :: rest := by
    refine List.exists_cons_of_ne_nil ?_
    intro hnil
    have hpath := List.dropWhile_eq_nil_iff.mp hnil path onChain
    exact absurd hpath (by simp)
  have hfirst : first = path := by
    have hhead := List.head?_dropWhile_not (· != path) (front ++ [last])
    rw [hpart] at hhead
    simpa using hhead
  subst hfirst
  rw [hpart] at hsuffix ⊢
  have hlast : (first :: rest).getLast? = some last := by
    obtain ⟨skipped, hskipped⟩ := hsuffix
    rw [← List.getLast?_append_of_ne_nil skipped (List.cons_ne_nil first rest), hskipped,
      List.getLast?_append_of_ne_nil _ (by simp), List.getLast?_singleton]
  refine ⟨by simp, ⟨first, rfl, List.getLast?_concat, h.reaches onChain⟩, ?_, ?_⟩
  · rw [List.dropLast_concat]
    exact h.distinct.sublist hsuffix.sublist
  · refine (h.linked.suffix hsuffix).append (List.isChain_singleton first) ?_
    intro upper hupper lower hlower
    rw [hlast, Option.mem_def, Option.some.injEq] at hupper
    rw [List.head?_cons, Option.mem_def, Option.some.injEq] at hlower
    rw [← hupper, ← hlower]
    exact step

/-- **A visit that stops with a cycle has found one**, as no file that cannot be loaded tells of a
cycle. -/
theorem Stops.includeCycle (names : Names load)
    (loads : ∀ path cycle, load path ≠ .error (.includeCycle cycle)) {above : List ShaderUnit}
    {file : ShaderUnit} {todo : List String} {before : Listing} {cycle : List String}
    (stops : Stops load above file todo before (.includeCycle cycle))
    (leads : LeadsTo load entry above file) (htodo : todo ⊆ file.includes) :
    IncludeCycle load entry cycle := by
  generalize herror : BuildError.includeCycle cycle = error at stops
  induction stops with
  | @cycle above file path rest before onChain =>
      rw [BuildError.includeCycle.inj herror]
      have hchain := leads.chain
      rw [List.map_append, List.map_singleton] at hchain onChain ⊢
      exact hchain.cycleAt onChain (leads.includes (htodo (List.mem_cons_self ..)))
  | unloaded offChain unlisted failed =>
      rw [← herror] at failed
      exact absurd failed (loads _ _)
  | exceeds offChain found checked =>
      obtain ⟨_, _, -, -, -, hviolation⟩ := Ceiling.check_eq_error_iff.mp checked
      rw [← herror] at hviolation
      exact absurd hviolation (by simp)
  | inside offChain unlisted loaded checked stops ih =>
      exact ih (leads.descend names (htodo (List.mem_cons_self ..)) offChain loaded)
        (List.Subset.refl _) herror
  | onward walked stops ih =>
      exact ih leads (fun _ hmem => htodo (List.mem_cons_of_mem _ hmem)) herror

namespace Project

variable {project : Project} {settings : Settings}

/-! ### The bound on chains -/

private theorem mem_texts_of_text {path text : String} (h : project.text path = .ok text) :
    text ∈ project.source.texts := by
  unfold Project.text at h
  dsimp only at h
  split at h
  · rename_i found hread
    rw [← Except.ok.inj h]
    exact project.source.mem_texts _ _ hread
  · exact absurd h (by simp)

/-- An included path is named in some text of the source. -/
theorem mem_pathsNamed_of_includes {path other : String}
    (h : Includes (project.loadIncluded settings) path other) :
    other ∈ project.source.texts.flatMap ShaderUnit.pathsNamed := by
  obtain ⟨file, hload, hincludes⟩ := h
  obtain ⟨text, htext, hunit⟩ := loadIncluded_eq_ok_iff.mp hload
  exact List.mem_flatMap.mpr
    ⟨text, mem_texts_of_text htext, ShaderUnit.includes_subset_pathsNamed hunit hincludes⟩

/-- **A chain of includes is shorter than the bound on visits.** -/
theorem length_lt_of_includeChain {chain : List String}
    (h : IncludeChain (project.loadIncluded settings) entry chain) :
    chain.length < project.source.depth := by
  have hnamed : (project.source.texts.flatMap ShaderUnit.pathsNamed).length ≤
      (project.source.texts.flatMap String.toList).length := by
    rw [List.length_flatMap, List.length_flatMap]
    exact List.sum_le_sum fun text _ => ShaderUnit.length_pathsNamed_le text
  rw [AssetSource.depth]
  cases chain with
  | nil => simp
  | cons first rest =>
      -- All but the first are included, and no two of them are the same.
      have hincluded : rest ⊆ project.source.texts.flatMap ShaderUnit.pathsNamed := by
        intro other hother
        obtain ⟨front, back, hsplit⟩ := List.append_of_mem hother
        obtain ⟨path, hstep⟩ : ∃ path, Includes (project.loadIncluded settings) path other := by
          have hlinked := h.linked
          rw [hsplit, ← List.cons_append, List.isChain_append] at hlinked
          exact ⟨_, hlinked.2.2 _ (List.getLast?_eq_some_getLast (List.cons_ne_nil first front))
            other rfl⟩
        exact mem_pathsNamed_of_includes hstep
      have hdistinct : rest.Nodup := (List.nodup_cons.mp h.distinct).2
      have hlength := hdistinct.length_le_of_subset hincluded
      rw [List.length_cons]
      omega

theorem stops_of_order {main : ShaderUnit} {error : BuildError}
    (loaded : project.loadIncluded settings main.path = .ok main)
    (h : project.order settings main = .error error) :
    Stops (project.loadIncluded settings) [] main main.includes .empty error := by
  refine Order.stops_of_visit (names_loadIncluded project settings)
    (fun chain hchain => (length_lt_of_includeChain hchain).le) project.source.depth [] .empty main
    error (.main loaded) ?_ h
  exact Nat.le_add_left _ _

/-! ### Builds -/

theorem not_ofOrder_of_loadIncluded {path : String} {error : BuildError}
    (h : project.loadIncluded settings path = .error error) : ¬ error.OfOrder := by
  rcases error_of_loadIncluded h with ⟨reason, rfl⟩ | harises
  · exact id
  · exact harises.not_ofOrder

private theorem loadIncluded_ne_includeCycle (path : String) (cycle : List String) :
    project.loadIncluded settings path ≠ .error (.includeCycle cycle) :=
  fun h => not_ofOrder_of_loadIncluded h trivial

/-- A build that fails as only the ordering of files can fails when the files are put in order. -/
theorem order_of_error {error : BuildError} (ofOrder : error.OfOrder)
    (failed : project.build settings entry = .error error) :
    ∃ main, project.loadMain settings entry = .ok main ∧
      project.order settings main = .error error := by
  unfold build at failed
  rcases bind_eq_error_iff.mp failed with hmain | ⟨main, hmain, failed⟩
  · rcases error_of_loadMain hmain with hload | ⟨what, rfl⟩
    · exact absurd ofOrder (not_ofOrder_of_loadIncluded hload)
    · exact absurd ofOrder id
  · rcases bind_eq_error_iff.mp failed with hheader | ⟨header, -, failed⟩
    · unfold Header.ofUnit at hheader
      split at hheader
      case h_1 => exact absurd hheader (by simp)
      all_goals
        rw [← Except.error.inj hheader] at ofOrder
        exact absurd ofOrder id
    · rcases bind_eq_error_iff.mp failed with horder | ⟨listing, -, hlink⟩
      · exact ⟨main, hmain, horder⟩
      · unfold link at hlink
        rcases bind_eq_error_iff.mp hlink with hmerge | ⟨table, -, hnone⟩
        · obtain ⟨first, second, -, rfl⟩ := ConstantTable.mergeAll_eq_error_iff.mp hmerge
          exact absurd ofOrder id
        · exact absurd hnone (by simp)

/-- A build that fails with a cycle fails when the files are put in order. -/
theorem order_of_includeCycle {cycle : List String}
    (failed : project.build settings entry = .error (.includeCycle cycle)) :
    ∃ main, project.loadMain settings entry = .ok main ∧
      project.order settings main = .error (.includeCycle cycle) :=
  order_of_error trivial failed

/-- **A build succeeds only where no cycle is reached, and one that fails with a cycle tells one
that is.** -/
theorem acyclic_or_cycle (project : Project) (settings : Settings) (entry : String) :
    (∀ program, project.build settings entry = .ok program →
      ∀ path, ReflTransGen (Includes (project.loadIncluded settings)) entry path →
        ¬ TransGen (Includes (project.loadIncluded settings)) path path) ∧
      ∀ cycle, project.build settings entry = .error (.includeCycle cycle) →
        IncludeCycle (project.loadIncluded settings) entry cycle := by
  constructor
  · intro program built path reaches
    obtain ⟨main, listing, -, hpath, -, order⟩ := dependencyOrder_of_build built
    rw [← hpath] at reaches
    exact order.acyclic reaches
  · intro cycle failed
    obtain ⟨main, hmain, horder⟩ := order_of_includeCycle failed
    have hloaded := loadIncluded_of_loadMain hmain
    have hcycle := (stops_of_order hloaded horder).includeCycle
      (names_loadIncluded project settings) loadIncluded_ne_includeCycle (.main hloaded)
      (List.Subset.refl _)
    rwa [path_of_loadMain hmain] at hcycle

/-- A project whose main file leads to a cycle that it is no part of. -/
def looped : Project where
  source := (Registry.ofList [
    ("main", "#version 300\n#type VERTEX\nprecision highp float;\n#include a\n"),
    ("a", "#include c\n#include b\n"),
    ("b", "#include c\n#include a\n"),
    ("c", "x = 1;\n")]).toSource
  root := ""

/-- The layered project builds and has no cycle; the looped one fails with its cycle. -/
theorem layered_acyclic_looped_cycle :
    (∃ program, layered.build .empty "main" = .ok program ∧
      ∀ path, ReflTransGen (Includes (layered.loadIncluded .empty)) "main" path →
        ¬ TransGen (Includes (layered.loadIncluded .empty)) path path) ∧
      looped.build .empty "main" = .error (.includeCycle ["a", "b", "a"]) ∧
        IncludeCycle (looped.loadIncluded .empty) "main" ["a", "b", "a"] := by
  obtain ⟨program, hbuild⟩ := layered_builds
  have hcycle : looped.build .empty "main" = .error (.includeCycle ["a", "b", "a"]) := by
    decide +kernel
  exact ⟨⟨program, hbuild, (acyclic_or_cycle layered .empty "main").1 program hbuild⟩, hcycle,
    (acyclic_or_cycle looped .empty "main").2 _ hcycle⟩

end Project

end ShaderLink
