/-
How a visit of the includes stops with a failure.

A visit that fails has walked some includes and then met one that it cannot go on
with: a path of the chain, a file that cannot be loaded, a file above the ceiling, or
a file whose own includes stop it.  `Stops` says so without the bookkeeping, as `Walk`
does for a visit that succeeds.

The bound that `Order.visit` carries would be a fifth way.  It is never met when no
chain of includes without repetition is longer than the bound, because the paths that
lead to the file being visited are such a chain, one path longer at every descent.
-/
import Mathlib.Data.List.Chain
import Mathlib.Data.List.Nodup
import ShaderLink.Proofs.Link.Walk

namespace ShaderLink

open Relation (ReflTransGen TransGen)

variable {load : String → Except BuildError ShaderUnit} {entry : String}

/-! ### Chains of includes -/

/-- Paths from an entry on, each included by the one before it and none of them twice. -/
structure IncludeChain (load : String → Except BuildError ShaderUnit) (entry : String)
    (chain : List String) : Prop where
  first : chain.head? = some entry
  linked : chain.IsChain (Includes load)
  distinct : chain.Nodup

namespace IncludeChain

variable {chain : List String} {path other : String}

theorem singleton (load : String → Except BuildError ShaderUnit) (entry : String) :
    IncludeChain load entry [entry] :=
  ⟨rfl, List.isChain_singleton entry, List.nodup_singleton entry⟩

theorem snoc (h : IncludeChain load entry (chain ++ [path])) (step : Includes load path other)
    (fresh : other ∉ chain ++ [path]) : IncludeChain load entry (chain ++ [path] ++ [other]) := by
  refine ⟨?_, ?_, ?_⟩
  · rw [List.head?_append, h.first]
    rfl
  · refine h.linked.append (List.isChain_singleton other) ?_
    intro last hlast next hnext
    rw [List.getLast?_append_of_ne_nil _ (by simp), List.getLast?_singleton, Option.mem_def,
      Option.some.injEq] at hlast
    rw [List.head?_cons, Option.mem_def, Option.some.injEq] at hnext
    rw [← hlast, ← hnext]
    exact step
  · rw [List.nodup_append]
    refine ⟨h.distinct, List.nodup_singleton other, ?_⟩
    rintro a ha b hb rfl
    exact fresh (List.mem_singleton.mp hb ▸ ha)

theorem reaches (h : IncludeChain load entry chain) (hpath : path ∈ chain) :
    ReflTransGen (Includes load) entry path := by
  refine h.linked.induction (ReflTransGen (Includes load) entry) chain ?_ ?_ path hpath
  · intro upper lower step reached
    exact reached.tail step
  · intro nonempty
    have hfirst := h.first
    rw [List.head?_eq_some_head nonempty, Option.some.injEq] at hfirst
    rw [hfirst]

end IncludeChain

/-! ### Stopping -/

/-- The visit of includes that are still to be visited stops with a failure.  `above` are the files
that lead to the file whose includes they are, and `file` is that file. -/
inductive Stops (load : String → Except BuildError ShaderUnit) :
    List ShaderUnit → ShaderUnit → List String → Listing → BuildError → Prop
  /-- A path of the chain closes a cycle. -/
  | cycle {above : List ShaderUnit} {file : ShaderUnit} {path : String} {rest : List String}
      {before : Listing} (onChain : path ∈ (above ++ [file]).map (·.path)) :
      Stops load above file (path :: rest) before
        (.includeCycle (Order.cycleAt ((above ++ [file]).map (·.path)) path))
  /-- A file cannot be loaded. -/
  | unloaded {above : List ShaderUnit} {file : ShaderUnit} {path : String} {rest : List String}
      {before : Listing} {error : BuildError}
      (offChain : path ∉ (above ++ [file]).map (·.path)) (unlisted : before.find? path = none)
      (failed : load path = .error error) : Stops load above file (path :: rest) before error
  /-- A file, listed already or loaded now, is above the ceiling of the chain. -/
  | exceeds {above : List ShaderUnit} {file next : ShaderUnit} {path : String} {rest : List String}
      {before : Listing} {error : BuildError}
      (offChain : path ∉ (above ++ [file]).map (·.path))
      (found : before.find? path = some next ∨ before.find? path = none ∧ load path = .ok next)
      (checked : Ceiling.check (Ceiling.ofChain (above ++ [file])) next = .error error) :
      Stops load above file (path :: rest) before error
  /-- The includes of a file that was loaded stop the visit. -/
  | inside {above : List ShaderUnit} {file next : ShaderUnit} {path : String} {rest : List String}
      {before : Listing} {error : BuildError}
      (offChain : path ∉ (above ++ [file]).map (·.path)) (unlisted : before.find? path = none)
      (loaded : load path = .ok next)
      (checked : Ceiling.check (Ceiling.ofChain (above ++ [file])) next = .ok ())
      (stops : Stops load (above ++ [file]) next next.includes before error) :
      Stops load above file (path :: rest) before error
  /-- An include is walked, and one behind it stops the visit. -/
  | onward {above : List ShaderUnit} {file : ShaderUnit} {path : String} {rest : List String}
      {before middle : Listing} {error : BuildError}
      (walked : Walk load above file [path] before middle)
      (stops : Stops load above file rest middle error) :
      Stops load above file (path :: rest) before error

/-- Files that lead from an entry to a file: each is what its path loads, and their paths are a
chain of includes. -/
structure LeadsTo (load : String → Except BuildError ShaderUnit) (entry : String)
    (above : List ShaderUnit) (file : ShaderUnit) : Prop where
  loaded : load file.path = .ok file
  chain : IncludeChain load entry ((above ++ [file]).map (·.path))

namespace LeadsTo

variable {above : List ShaderUnit} {file next : ShaderUnit} {path : String}

theorem main (loaded : load file.path = .ok file) : LeadsTo load file.path [] file :=
  ⟨loaded, .singleton load file.path⟩

theorem includes (h : LeadsTo load entry above file) (hpath : path ∈ file.includes) :
    Includes load file.path path :=
  ⟨file, h.loaded, hpath⟩

theorem descend (names : Names load) (h : LeadsTo load entry above file)
    (hpath : path ∈ file.includes) (offChain : path ∉ (above ++ [file]).map (·.path))
    (loaded : load path = .ok next) : LeadsTo load entry (above ++ [file]) next := by
  obtain rfl : next.path = path := names path next loaded
  refine ⟨loaded, ?_⟩
  have hchain := h.chain
  rw [List.map_append] at hchain offChain ⊢
  rw [List.map_append]
  exact hchain.snoc (h.includes hpath) offChain

end LeadsTo

namespace Order

/-- One include that cannot be gone on with stops the visit. -/
private theorem stops_of_visitInclude {above : List ShaderUnit} {file : ShaderUnit} {path : String}
    {rest : List String} {before : Listing} {error : BuildError}
    {descend : Listing → ShaderUnit → Except BuildError Listing}
    (hdescend : ∀ next, path ∉ (above ++ [file]).map (·.path) → load path = .ok next →
      descend before next = .error error →
        Stops load (above ++ [file]) next next.includes before error)
    (h : visitInclude load descend ((above ++ [file]).map (·.path))
      (Ceiling.ofChain (above ++ [file])) before path = .error error) :
    Stops load above file (path :: rest) before error := by
  unfold visitInclude at h
  split at h
  · rename_i honChain
    rw [← Except.error.inj h]
    exact .cycle (List.contains_iff_mem.mp honChain)
  · rename_i hoffChain
    have offChain : path ∉ (above ++ [file]).map (·.path) :=
      fun honChain => hoffChain (List.contains_iff_mem.mpr honChain)
    split at h
    · rename_i known hknown
      rcases bind_eq_error_iff.mp h with hcheck | ⟨-, -, hnone⟩
      · exact .exceeds offChain (.inl hknown) hcheck
      · exact absurd hnone (by simp)
    · rename_i hnone
      rcases bind_eq_error_iff.mp h with hfailed | ⟨next, hload, h⟩
      · exact .unloaded offChain hnone hfailed
      · rcases bind_eq_error_iff.mp h with hcheck | ⟨⟨⟩, hcheck, hbelow⟩
        · exact .exceeds offChain (.inr ⟨hnone, hload⟩) hcheck
        · exact .inside offChain hnone hload hcheck (hdescend next offChain hload hbelow)

private theorem stops_of_foldlM {above : List ShaderUnit} {file : ShaderUnit} {error : BuildError}
    {descend : Listing → ShaderUnit → Except BuildError Listing}
    (hwalk : ∀ listed next result, descend listed next = .ok result →
      ∃ inner, Walk load (above ++ [file]) next next.includes listed inner ∧
        result = inner.add next)
    (hdescend : ∀ path ∈ file.includes, ∀ listed next, path ∉ (above ++ [file]).map (·.path) →
      load path = .ok next → descend listed next = .error error →
        Stops load (above ++ [file]) next next.includes listed error) :
    ∀ (todo : List String) (before : Listing), todo ⊆ file.includes →
      todo.foldlM (visitInclude load descend ((above ++ [file]).map (·.path))
        (Ceiling.ofChain (above ++ [file]))) before = .error error →
      Stops load above file todo before error := by
  intro todo
  induction todo with
  | nil =>
      intro before _ h
      exact absurd h (by simp [pure, Except.pure])
  | cons path rest ih =>
      intro before htodo h
      have hrest : rest ⊆ file.includes := fun _ hmem => htodo (List.mem_cons_of_mem _ hmem)
      rcases foldlM_cons_eq_error_iff.mp h with hstep | ⟨middle, hstep, hfold⟩
      · exact stops_of_visitInclude (hdescend path (htodo (List.mem_cons_self ..)) before) hstep
      · exact .onward (walk_of_visitInclude hwalk hstep (.done above file middle))
          (ih middle hrest hfold)

/-- **A visit that fails stops at one of its file's includes, when no chain of includes is longer
than the bound it is given.** -/
theorem stops_of_visit (names : Names load) {longest : Nat}
    (bounded : ∀ chain, IncludeChain load entry chain → chain.length ≤ longest) :
    ∀ (depth : Nat) (above : List ShaderUnit) (listed : Listing) (file : ShaderUnit)
      (error : BuildError), LeadsTo load entry above file → longest ≤ above.length + depth →
      visit load depth (above.map (·.path)) (Ceiling.ofChain above) listed file = .error error →
      Stops load above file file.includes listed error := by
  intro depth
  induction depth with
  | zero =>
      intro above listed file error hleads hdepth h
      -- The chain to the file would be longer than any chain is.
      have hlength := bounded _ hleads.chain
      rw [List.length_map, List.length_append, List.length_singleton] at hlength
      omega
  | succ depth ih =>
      intro above listed file error hleads hdepth h
      have hdeeper : longest ≤ (above ++ [file]).length + depth := by
        rw [List.length_append, List.length_singleton]
        omega
      unfold visit at h
      rcases bind_eq_error_iff.mp h with hfold | ⟨listing, -, hnone⟩
      · have hchain : above.map (·.path) ++ [file.path] = (above ++ [file]).map (·.path) := by simp
        rw [← Ceiling.ofChain_append, hchain] at hfold
        refine stops_of_foldlM (walk_of_visit depth (above ++ [file])) ?_ file.includes listed
          (List.Subset.refl _) hfold
        intro path hpath before next offChain hload hbelow
        exact ih (above ++ [file]) before next error (hleads.descend names hpath offChain hload)
          hdeeper hbelow
      · exact absurd hnone (by simp)

end Order

end ShaderLink
