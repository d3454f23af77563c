/-
The walk over the includes, without its bookkeeping.

`Order.visit` threads a bound, a chain of paths and a ceiling through two nested
recursions that may fail.  When it returns a listing, what happened is a `Walk`:
each include of a file was on no chain leading to it, kept within every file of
that chain, and was either listed already or loaded, walked and listed.
`walk_of_visit` is the only place where the recursion of `visit` is opened; every
later statement about listings is an induction over walks.

`Includes` is the relation that a walk explores: a path names another when the
file it loads includes it.
-/
import Mathlib.Logic.Relation
import ShaderLink.Proofs.Link.Ceiling
import ShaderLink.Proofs.Link.Listing
import ShaderLink.Proofs.Outcome

namespace ShaderLink

open Relation (ReflTransGen TransGen)

/-- The file of a path includes another path. -/
def Includes (load : String → Except BuildError ShaderUnit) (path other : String) : Prop :=
  ∃ file, load path = .ok file ∧ other ∈ file.includes

/-- A load that gives every file the path it was asked for. -/
def Names (load : String → Except BuildError ShaderUnit) : Prop :=
  ∀ path file, load path = .ok file → file.path = path

variable {load : String → Except BuildError ShaderUnit}

/-- From one listing to another through includes still to be visited.  `above` are the files that
lead to the file whose includes they are, and `file` is that file. -/
inductive Walk (load : String → Except BuildError ShaderUnit) :
    List ShaderUnit → ShaderUnit → List String → Listing → Listing → Prop
  | done (above : List ShaderUnit) (file : ShaderUnit) (listed : Listing) :
      Walk load above file [] listed listed
  /-- An include that is listed already has only to keep within the chain. -/
  | known {above : List ShaderUnit} {file known : ShaderUnit} {path : String} {rest : List String}
      {before after : Listing} (offChain : ∀ other ∈ above ++ [file], other.path ≠ path)
      (found : before.find? path = some known)
      (within : ∀ other ∈ above ++ [file], known.KeepsWithin other)
      (onward : Walk load above file rest before after) :
      Walk load above file (path :: rest) before after
  /-- Any other include is loaded, and listed behind all it includes. -/
  | descend {above : List ShaderUnit} {file next : ShaderUnit} {path : String} {rest : List String}
      {before inner after : Listing} (offChain : ∀ other ∈ above ++ [file], other.path ≠ path)
      (unlisted : before.find? path = none) (loaded : load path = .ok next)
      (within : ∀ other ∈ above ++ [file], next.KeepsWithin other)
      (below : Walk load (above ++ [file]) next next.includes before inner)
      (onward : Walk load above file rest (inner.add next) after) :
      Walk load above file (path :: rest) before after

namespace Order

/-! ### A successful visit is a walk -/

/-- One include, when its descent is a walk, is a step of a walk. -/
theorem walk_of_visitInclude {above : List ShaderUnit} {file : ShaderUnit} {path : String}
    {rest : List String} {before middle after : Listing}
    {descend : Listing → ShaderUnit → Except BuildError Listing}
    (hdescend : ∀ listed next result, descend listed next = .ok result →
      ∃ inner, Walk load (above ++ [file]) next next.includes listed inner ∧
        result = inner.add next)
    (h : visitInclude load descend ((above ++ [file]).map (·.path))
      (Ceiling.ofChain (above ++ [file])) before path = .ok middle)
    (onward : Walk load above file rest middle after) :
    Walk load above file (path :: rest) before after := by
  unfold visitInclude at h
  split at h
  · exact absurd h (by simp)
  · rename_i hchain
    have offChain : ∀ other ∈ above ++ [file], other.path ≠ path := by
      intro other hother hpath
      exact hchain (List.contains_iff_mem.mpr (List.mem_map.mpr ⟨other, hother, hpath⟩))
    split at h
    · rename_i known hknown
      obtain ⟨⟨⟩, hcheck, hresult⟩ := bind_eq_ok_iff.mp h
      rw [← Except.ok.inj hresult] at onward
      exact .known offChain hknown ((Ceiling.check_ofChain_eq_ok_iff _ _).mp hcheck) onward
    · rename_i hnone
      obtain ⟨next, hload, h⟩ := bind_eq_ok_iff.mp h
      obtain ⟨⟨⟩, hcheck, h⟩ := bind_eq_ok_iff.mp h
      obtain ⟨inner, below, hmiddle⟩ := hdescend before next middle h
      rw [hmiddle] at onward
      exact .descend offChain hnone hload ((Ceiling.check_ofChain_eq_ok_iff _ _).mp hcheck)
        below onward

private theorem walk_of_foldlM {above : List ShaderUnit} {file : ShaderUnit}
    {descend : Listing → ShaderUnit → Except BuildError Listing}
    (hdescend : ∀ listed next result, descend listed next = .ok result →
      ∃ inner, Walk load (above ++ [file]) next next.includes listed inner ∧
        result = inner.add next) :
    ∀ (todo : List String) (before after : Listing),
      todo.foldlM (visitInclude load descend ((above ++ [file]).map (·.path))
        (Ceiling.ofChain (above ++ [file]))) before = .ok after →
      Walk load above file todo before after := by
  intro todo
  induction todo with
  | nil =>
      intro before after h
      rw [← Except.ok.inj h]
      exact .done above file before
  | cons path rest ih =>
      intro before after h
      obtain ⟨middle, hstep, hrest⟩ := foldlM_cons_eq_ok_iff.mp h
      exact walk_of_visitInclude hdescend hstep (ih middle after hrest)

/-- **What a visit returns is reached by a walk over the file's includes.** -/
theorem walk_of_visit : ∀ (depth : Nat) (above : List ShaderUnit) (listed : Listing)
    (file : ShaderUnit) (result : Listing),
    visit load depth (above.map (·.path)) (Ceiling.ofChain above) listed file = .ok result →
    ∃ inner, Walk load above file file.includes listed inner ∧ result = inner.add file := by
  intro depth
  induction depth with
  | zero =>
      intro above listed file result h
      exact absurd h (by simp [visit])
  | succ depth ih =>
      intro above listed file result h
      unfold visit at h
      obtain ⟨inner, hfold, hresult⟩ := bind_eq_ok_iff.mp h
      refine ⟨inner, ?_, (Except.ok.inj hresult).symm⟩
      have hchain : above.map (·.path) ++ [file.path] = (above ++ [file]).map (·.path) := by simp
      rw [← Ceiling.ofChain_append, hchain] at hfold
      exact walk_of_foldlM (fun listed next result => ih (above ++ [file]) listed next result)
        file.includes listed inner hfold

end Order

/-! ### What a walk does to a listing -/

/-- One listing goes on from another with files whose paths are allowed. -/
structure Listing.Extends (allowed : String → Prop) (before after : Listing) : Prop where
  kept : before.files <+: after.files
  added : ∀ file ∈ after.files, file ∈ before.files ∨ allowed file.path

namespace Listing.Extends

variable {allowed larger : String → Prop} {before middle after : Listing}

theorem refl (allowed : String → Prop) (listing : Listing) : Extends allowed listing listing :=
  ⟨List.prefix_refl _, fun _ h => .inl h⟩

theorem trans (first : Extends allowed before middle) (second : Extends allowed middle after) :
    Extends allowed before after := by
  refine ⟨first.kept.trans second.kept, ?_⟩
  intro file hfile
  rcases second.added file hfile with hmid | hnew
  · exact first.added file hmid
  · exact .inr hnew

theorem weaken (h : Extends allowed before after) (wider : ∀ path, allowed path → larger path) :
    Extends larger before after :=
  ⟨h.kept, fun file hfile => (h.added file hfile).imp id (wider file.path)⟩

theorem add (listing : Listing) (file : ShaderUnit) (h : allowed file.path) :
    Extends allowed listing (listing.add file) := by
  refine ⟨List.prefix_append _ _, ?_⟩
  intro other hother
  rcases List.mem_append.mp hother with hold | hnew
  · exact .inl hold
  · rw [List.mem_singleton.mp hnew]
    exact .inr h

theorem paths_subset (h : Extends allowed before after) {path : String}
    (hpath : path ∈ before.paths) : path ∈ after.paths := by
  obtain ⟨file, hfile, rfl⟩ := List.mem_map.mp hpath
  exact List.mem_map_of_mem (h.kept.subset hfile)

private theorem notMem_paths (h : Extends allowed before after) {path : String}
    (absent : path ∉ before.paths) (excluded : ¬ allowed path) : path ∉ after.paths := by
  intro hpath
  obtain ⟨file, hfile, rfl⟩ := List.mem_map.mp hpath
  rcases h.added file hfile with hold | hnew
  · exact absent (List.mem_map_of_mem hold)
  · exact excluded hnew

end Listing.Extends

namespace Walk

/-- The paths that a walk may list: those off the chain that an include still to be visited is or
leads to. -/
def Allowed (load : String → Except BuildError ShaderUnit) (above : List ShaderUnit)
    (file : ShaderUnit) (todo : List String) (path : String) : Prop :=
  (∀ other ∈ above ++ [file], other.path ≠ path) ∧
    ∃ start ∈ todo, ReflTransGen (Includes load) start path

private theorem Allowed.of_rest {above : List ShaderUnit} {file : ShaderUnit} {first : String}
    {rest : List String} {path : String} (h : Allowed load above file rest path) :
    Allowed load above file (first :: rest) path := by
  obtain ⟨off, start, hstart, hreach⟩ := h
  exact ⟨off, start, List.mem_cons_of_mem _ hstart, hreach⟩

private theorem Allowed.of_below {above : List ShaderUnit} {file next : ShaderUnit} {first : String}
    {rest : List String} {path : String} (loaded : load first = .ok next)
    (h : Allowed load (above ++ [file]) next next.includes path) :
    Allowed load above file (first :: rest) path := by
  obtain ⟨off, start, hstart, hreach⟩ := h
  refine ⟨fun other hother => off other (List.mem_append_left _ hother), first, by simp, ?_⟩
  exact .head ⟨next, loaded, hstart⟩ hreach

/-- A file walked below a chain may be added behind what the walk listed.  The file itself ends the
chain below it, so nothing below it can have listed it. -/
theorem ordered_add {above : List ShaderUnit} {next : ShaderUnit} {before inner : Listing}
    (ordered : inner.Ordered load) (grown : before.Extends (Allowed load above next next.includes) inner)
    (listed : ∀ path ∈ next.includes, path ∈ inner.paths) (unlisted : next.path ∉ before.paths)
    (loaded : load next.path = .ok next) : (inner.add next).Ordered load := by
  refine ordered.add ?_ loaded listed
  refine grown.notMem_paths unlisted ?_
  intro hallowed
  exact hallowed.1 next (by simp) rfl

/-- **A walk keeps the listing ordered, lists everything still to be visited, and adds only what
that leads to and what is not on the chain.** -/
theorem ordered (names : Names load) {above : List ShaderUnit} {file : ShaderUnit}
    {todo : List String} {before after : Listing} (walk : Walk load above file todo before after)
    (start : before.Ordered load) :
    after.Ordered load ∧ before.Extends (Allowed load above file todo) after ∧
      ∀ path ∈ todo, path ∈ after.paths := by
  induction walk with
  | done above file listed => exact ⟨start, .refl _ _, by simp⟩
  | known offChain found within onward ih =>
      obtain ⟨hordered, hextends, htodo⟩ := ih start
      refine ⟨hordered, hextends.weaken fun _ h => h.of_rest, ?_⟩
      intro other hother
      rcases List.mem_cons.mp hother with rfl | hrest
      · obtain ⟨hmem, hpath⟩ := (start.placed.find?_eq_some_iff _ _).mp found
        rw [← hpath]
        exact hextends.paths_subset (List.mem_map_of_mem hmem)
      · exact htodo other hrest
  | @descend above file next path rest before inner after offChain unlisted loaded within below onward
      ihBelow ihOnward =>
      obtain rfl : next.path = path := names path next loaded
      obtain ⟨hinner, hgrown, hincludes⟩ := ihBelow start
      have hadded := ordered_add hinner hgrown hincludes
        ((start.placed.find?_eq_none_iff _).mp unlisted) loaded
      obtain ⟨hordered, hextends, htodo⟩ := ihOnward hadded
      have hself : Allowed load above file (next.path :: rest) next.path :=
        ⟨offChain, next.path, by simp, .refl⟩
      have hstep : before.Extends (Allowed load above file (next.path :: rest)) (inner.add next) :=
        (hgrown.weaken fun _ h => h.of_below loaded).trans (.add inner next hself)
      refine ⟨hordered, hstep.trans (hextends.weaken fun _ h => h.of_rest), ?_⟩
      intro other hother
      rcases List.mem_cons.mp hother with rfl | hrest
      · exact hextends.paths_subset (by simp)
      · exact htodo other hrest

theorem ordered_descend (names : Names load) {above : List ShaderUnit} {next : ShaderUnit}
    {before inner : Listing} (below : Walk load above next next.includes before inner)
    (start : before.Ordered load) (unlisted : before.find? next.path = none)
    (loaded : load next.path = .ok next) :
    (inner.add next).Ordered load ∧ ∀ path ∈ before.paths, path ∈ (inner.add next).paths := by
  obtain ⟨hinner, hgrown, hincludes⟩ := below.ordered names start
  refine ⟨ordered_add hinner hgrown hincludes ((start.placed.find?_eq_none_iff _).mp unlisted) loaded,
    ?_⟩
  intro path hpath
  rw [Listing.paths_add]
  exact List.mem_append_left _ (hgrown.paths_subset hpath)

end Walk

end ShaderLink
