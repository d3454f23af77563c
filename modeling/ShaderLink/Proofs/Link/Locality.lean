/-
A build reads what its main file leads to.

A step of the work on includes asks for one path at most, and that path is included by
a file that is being visited.  So where two loads agree on the paths that the main file
leads to, the work goes through the same states step by step and comes to the same end.
A file that nothing names is no part of it, nor is one that is named in a comment or in
a block that is off: what a file includes is read off its unit, which such an include is
not in.

The bound on the length of chains may be another for another source.  It plays no part,
because the steps do not know it.
-/
import ShaderLink.Proofs.Link.Steps

namespace ShaderLink

open Relation (ReflTransGen TransGen)

variable {load other : String → Except BuildError ShaderUnit} {entry : String}

/-- One load gives what another does wherever the other leads from an entry. -/
def AgreesFrom (load : String → Except BuildError ShaderUnit) (entry : String)
    (other : String → Except BuildError ShaderUnit) : Prop :=
  ∀ path, ReflTransGen (Includes load) entry path → other path = load path

namespace Resolution

/-! ### Where the steps stay -/

/-- The paths asked for and the includes still to be visited are paths that the entry leads to. -/
structure Within (load : String → Except BuildError ShaderUnit) (entry : String)
    (state : Resolution) : Prop where
  asked : ∀ path ∈ state.loads, ReflTransGen (Includes load) entry path
  waiting : ∀ visit ∈ state.visits, ∀ path ∈ visit.todo, ReflTransGen (Includes load) entry path

namespace Within

variable {state : Resolution}

private theorem fail (h : state.Within load entry) (error : BuildError) :
    (state.fail error).Within load entry :=
  ⟨h.asked, h.waiting⟩

private theorem hold {next : Resolution} (h : state.Within load entry)
    (hnext : next.Within load entry) (file : ShaderUnit) :
    (state.hold file next).Within load entry := by
  unfold Resolution.hold
  split
  · exact hnext
  · exact h.fail _

section Include

variable {file next : ShaderUnit} {path : String} {rest : List String} {outer : List Visit}

private theorem of_visits (h : state.Within load entry)
    (hvisits : state.visits = ⟨file, path :: rest⟩ :: outer) :
    ReflTransGen (Includes load) entry path :=
  h.waiting ⟨file, path :: rest⟩ (by rw [hvisits]; exact List.mem_cons_self ..) path
    (List.mem_cons_self ..)

private theorem pass (h : state.Within load entry)
    (hvisits : state.visits = ⟨file, path :: rest⟩ :: outer) :
    Within load entry { state with visits := ⟨file, rest⟩ :: outer } := by
  refine ⟨h.asked, ?_⟩
  intro visit hvisit
  rcases List.mem_cons.mp hvisit with rfl | houter
  · intro path' hpath
    exact h.waiting ⟨file, path :: rest⟩ (by rw [hvisits]; exact List.mem_cons_self ..) path'
      (List.mem_cons_of_mem _ hpath)
  · exact h.waiting visit (by rw [hvisits]; exact List.mem_cons_of_mem _ houter)

private theorem ask (h : state.Within load entry)
    (hvisits : state.visits = ⟨file, path :: rest⟩ :: outer) :
    (state.ask path).Within load entry := by
  refine ⟨?_, h.waiting⟩
  intro path' hpath
  rcases List.mem_append.mp hpath with hold | hnew
  · exact h.asked path' hold
  · rw [List.mem_singleton.mp hnew]
    exact h.of_visits hvisits

/-- What a file includes is led to when the file is. -/
private theorem descend (h : state.Within load entry)
    (hvisits : state.visits = ⟨file, path :: rest⟩ :: outer) (loaded : load path = .ok next) :
    Within load entry { state.ask path with
      visits := ⟨next, next.includes⟩ :: ⟨file, rest⟩ :: outer } := by
  refine ⟨(h.ask hvisits).asked, ?_⟩
  intro visit hvisit
  rcases List.mem_cons.mp hvisit with rfl | hold
  · intro path' hpath
    exact (h.of_visits hvisits).tail ⟨next, loaded, hpath⟩
  · exact (h.pass hvisits).waiting visit hold

end Include

/-- **A step stays where the entry leads.** -/
theorem step (h : state.Within load entry) : (state.step load).Within load entry := by
  unfold Resolution.step
  split
  · rename_i hvisits
    refine ⟨h.asked, fun visit hvisit => h.waiting visit ?_⟩
    rw [hvisits]
    exact List.mem_cons_of_mem _ hvisit
  · rename_i hvisits
    split
    · exact h.fail _
    · split
      · exact h.hold (h.pass hvisits) _
      · dsimp only
        split
        · exact (h.ask hvisits).fail _
        · rename_i hload
          exact (h.ask hvisits).hold (h.descend hvisits hload) _
  · exact h

theorem iterate (h : state.Within load entry) (n : Nat) :
    ((Resolution.step load)^[n] state).Within load entry := by
  induction n with
  | zero => exact h
  | succ n ih =>
      rw [Function.iterate_succ_apply']
      exact ih.step

/-! ### Loads that agree there -/

/-- A step is the same under both loads, for the one path that it may ask for is led to. -/
theorem step_congr (h : state.Within load entry) (agrees : AgreesFrom load entry other) :
    state.step other = state.step load := by
  unfold Resolution.step
  split
  · rfl
  · rename_i hvisits
    rw [agrees _ (h.of_visits hvisits)]
  · rfl

/-- **So is any number of steps.** -/
theorem iterate_congr (h : state.Within load entry) (agrees : AgreesFrom load entry other)
    (n : Nat) : (Resolution.step other)^[n] state = (Resolution.step load)^[n] state := by
  induction n with
  | zero => rfl
  | succ n ih =>
      rw [Function.iterate_succ_apply', Function.iterate_succ_apply', ih,
        (h.iterate n).step_congr agrees]

end Within

theorem within_start {main : ShaderUnit} (loaded : load main.path = .ok main) :
    (start main).Within load main.path := by
  refine ⟨?_, ?_⟩
  · intro path hpath
    rw [List.mem_singleton.mp hpath]
  · intro visit hvisit path hpath
    rw [List.mem_singleton.mp hvisit] at hpath
    exact .single ⟨main, loaded, hpath⟩

end Resolution

namespace Project

open Resolution

variable {p q : Project} {settings : Settings}

/-! ### Builds -/

/-- **Files are put in the same order where loads agree.**  Both orders are the end of the same
steps. -/
theorem order_congr {main : ShaderUnit} (loaded : p.loadIncluded settings main.path = .ok main)
    (agrees : AgreesFrom (p.loadIncluded settings) main.path (q.loadIncluded settings)) :
    q.order settings main = p.order settings main := by
  have hloaded : q.loadIncluded settings main.path = .ok main := by
    rw [agrees main.path .refl, loaded]
  obtain ⟨last, hreaches, hended⟩ := reaches_order loaded
  obtain ⟨last', hreaches', hended'⟩ := reaches_order hloaded
  obtain ⟨n, hn⟩ := hreaches.exists_result hended
  obtain ⟨n', hn'⟩ := hreaches'.exists_result hended'
  have hresult := hn (max n n') (Nat.le_max_left _ _)
  have hresult' := hn' (max n n') (Nat.le_max_right _ _)
  rw [(within_start loaded).iterate_congr agrees, hresult] at hresult'
  exact (Option.some.inj hresult').symm

/-- Builds whose main files are loaded alike come to the same end when their loads agree on what the
main file leads to. -/
theorem build_congr {entry : String} (main : q.loadMain settings entry = p.loadMain settings entry)
    (agrees : ∀ file, p.loadMain settings entry = .ok file →
      AgreesFrom (p.loadIncluded settings) entry (q.loadIncluded settings)) :
    q.build settings entry = p.build settings entry := by
  unfold build
  rw [main]
  refine bind_congr_of_ok fun file hmain => ?_
  have hagrees := agrees file hmain
  rw [← path_of_loadMain hmain] at hagrees
  rw [order_congr (loadIncluded_of_loadMain hmain) hagrees]

/-- The paths whose texts a build depends on: the entry and, when it is a main file, all that it
leads to. -/
def Needs (project : Project) (settings : Settings) (entry path : String) : Prop :=
  path = entry ∨ ∃ main, project.loadMain settings entry = .ok main ∧
    ReflTransGen (Includes (project.loadIncluded settings)) entry path

variable {project : Project} {source : AssetSource} {entry path : String}

/-- When the files can be put in order, these are the ones in the order. -/
theorem needs_iff_mem_paths {main : ShaderUnit} {listing : Listing}
    (hmain : project.loadMain settings entry = .ok main)
    (horder : project.order settings main = .ok listing) :
    project.Needs settings entry path ↔ path ∈ listing.paths := by
  rw [(dependencyOrder_of_order hmain horder).reached, path_of_loadMain hmain]
  constructor
  · rintro (rfl | ⟨-, -, reaches⟩)
    · exact .refl
    · exact reaches
  · intro reaches
    exact .inr ⟨main, hmain, reaches⟩

/-- A path is loaded from another source as before when it has the same text there. -/
private theorem text_congr (same : source.read (Path.join project.root path) =
    project.source.read (Path.join project.root path)) :
    ({ project with source := source } : Project).text path = project.text path := by
  unfold Project.text
  dsimp only
  rw [same]

theorem loadMain_congr (same : source.read (Path.join project.root path) =
    project.source.read (Path.join project.root path)) :
    ({ project with source := source } : Project).loadMain settings path =
      project.loadMain settings path := by
  unfold loadMain
  rw [text_congr same]

theorem loadIncluded_congr (same : source.read (Path.join project.root path) =
    project.source.read (Path.join project.root path)) :
    ({ project with source := source } : Project).loadIncluded settings path =
      project.loadIncluded settings path := by
  unfold loadIncluded
  rw [text_congr same]

private theorem needs_of_mem_loads {n : Nat}
    (hpath : path ∈ (project.resolutionAfter settings entry n).loads) :
    project.Needs settings entry path := by
  unfold resolutionAfter opening at hpath
  cases hmain : project.loadMain settings entry with
  | ok main =>
      rw [hmain] at hpath
      have hwithin := within_start (loadIncluded_of_loadMain hmain)
      rw [path_of_loadMain hmain] at hwithin
      exact .inr ⟨main, hmain, (hwithin.iterate n).asked path hpath⟩
  | error error =>
      rw [hmain, Function.iterate_fixed (step_of_result? rfl)] at hpath
      exact .inl (List.mem_singleton.mp hpath)

/-- **A build comes to the same end with any other source that answers alike for the paths that it
needs, and it asks for no other path at any moment.** -/
theorem build_of_needs (agrees : ∀ path, project.Needs settings entry path →
      source.read (Path.join project.root path) =
        project.source.read (Path.join project.root path)) :
    ({ project with source := source } : Project).build settings entry =
        project.build settings entry ∧
      ∀ n, ({ project with source := source } : Project).resolutionAfter settings entry n =
          project.resolutionAfter settings entry n ∧
        ∀ path ∈ (project.resolutionAfter settings entry n).loads,
          project.Needs settings entry path := by
  have hmain := @loadMain_congr settings project source entry (agrees entry (.inl rfl))
  have hagrees : ∀ file, project.loadMain settings entry = .ok file →
      AgreesFrom (project.loadIncluded settings) entry
        (({ project with source := source } : Project).loadIncluded settings) :=
    fun file hfile path reaches =>
      loadIncluded_congr (agrees path (.inr ⟨file, hfile, reaches⟩))
  refine ⟨build_congr hmain hagrees, fun n => ⟨?_, fun path => needs_of_mem_loads⟩⟩
  unfold resolutionAfter opening
  rw [hmain]
  cases hfile : project.loadMain settings entry with
  | ok main =>
      have hwithin := within_start (loadIncluded_of_loadMain hfile)
      rw [path_of_loadMain hfile] at hwithin
      exact hwithin.iterate_congr (hagrees main hfile) n
  | error error =>
      rw [Function.iterate_fixed (step_of_result? rfl),
        Function.iterate_fixed (step_of_result? rfl)]

/-- A project with a file that is included in a block that is off, and a comment about one that it
does not have. -/
def sparse : Project where
  source := (Registry.ofList [
    ("main", "#version 300\n#type VERTEX\nprecision highp float;\n#const A false\n" ++
      "#if A\n#include off\n#endif\n// #include gone\n#include on\n"),
    ("on", "y = 1;\n"),
    ("off", "z = 2;\n")]).toSource
  root := ""

/-- A source that has both of these files, neither of which can be built. -/
def otherwise : AssetSource :=
  (Registry.ofList [
    ("gone", "*/\n"),
    ("on", "y = 1;\n"),
    ("off", "#include off\n"),
    ("main", "#version 300\n#type VERTEX\nprecision highp float;\n#const A false\n" ++
      "#if A\n#include off\n#endif\n// #include gone\n#include on\n")]).toSource

/-- The main file and the one that it does include are all that the build needs. -/
theorem sparse_build_of_needs :
    (∀ path, sparse.Needs .empty "main" path →
        otherwise.read (Path.join sparse.root path) =
          sparse.source.read (Path.join sparse.root path)) ∧
      (∃ program, sparse.build .empty "main" = .ok program) ∧
      ({ sparse with source := otherwise } : Project).build .empty "main" =
        sparse.build .empty "main" := by
  have hsteps : (do
      let main ← sparse.loadMain .empty "main"
      let header ← Header.ofUnit main
      let listing ← sparse.order .empty main
      let _ ← link header listing.files
      return listing.paths) = .ok ["on", "main"] := by decide +kernel
  obtain ⟨main, hmain, hsteps⟩ := bind_eq_ok_iff.mp hsteps
  obtain ⟨header, hheader, hsteps⟩ := bind_eq_ok_iff.mp hsteps
  obtain ⟨listing, horder, hsteps⟩ := bind_eq_ok_iff.mp hsteps
  obtain ⟨program, hlink, hsteps⟩ := bind_eq_ok_iff.mp hsteps
  have hlisted : listing.paths = ["on", "main"] := Except.ok.inj hsteps
  have hagrees : ∀ path, sparse.Needs .empty "main" path →
      otherwise.read (Path.join sparse.root path) =
        sparse.source.read (Path.join sparse.root path) := by
    intro path hneeds
    rw [needs_iff_mem_paths hmain horder, hlisted] at hneeds
    rcases List.mem_cons.mp hneeds with rfl | hlast
    · decide +kernel
    · rw [List.mem_singleton.mp hlast]
      decide +kernel
  have hbuild : sparse.build .empty "main" = .ok program :=
    build_eq_ok_iff.mpr ⟨main, header, listing, hmain, hheader, horder, hlink⟩
  exact ⟨hagrees, ⟨program, hbuild⟩, (build_of_needs hagrees).1⟩

end Project

end ShaderLink
