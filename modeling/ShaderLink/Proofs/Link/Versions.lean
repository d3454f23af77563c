/-
Which versions a build holds to each other.

A file is held to the files of the chain by which it, or the file that includes
it, was first reached.  That chain depends on the includes alone: from every file
it goes on with the first include that is or leads to its end.  So the check
compares each include with every file on the first chain of its includer
(`FirstLaw`), and a file that is included again, over another chain, is held to
that chain only by its own version, not by those of the files below it.

A file that declares a version passes the comparison on to what it includes.  What
is left is one place where a greater version can hide: behind a detour, an include
of a file without a version that was first reached over another file.  There the
files of the chain would have to be compared with the versions behind it as well.
A build keeps the law along every chain of includes exactly when that comparison,
which it does not make, would succeed.
-/
import ShaderLink.Proofs.Link.Dependencies
import ShaderLink.Proofs.Lists

namespace ShaderLink

open Relation (ReflTransGen TransGen)

variable {load : String → Except BuildError ShaderUnit}

/-! ### First chains -/

/-- A chain of files that ends at a path and from every file goes on with the first of its includes
that is the path or leads to it. -/
inductive FirstChain (load : String → Except BuildError ShaderUnit) (path : String) :
    List ShaderUnit → Prop
  | here {file : ShaderUnit} (ends : file.path = path) : FirstChain load path [file]
  | onward {file next : ShaderUnit} {rest : List ShaderUnit} {passed left : List String}
      (inside : file.path ≠ path) (includes : file.includes = passed ++ next.path :: left)
      (astray : ∀ other ∈ passed, ¬ ReflTransGen (Includes load) other path)
      (loaded : load next.path = .ok next) (chain : FirstChain load path (next :: rest)) :
      FirstChain load path (file :: next :: rest)

/-- A file is first reached over another when the first chain to the other, gone on with the file, is
the first chain to the file. -/
def FirstReachedOver (load : String → Except BuildError ShaderUnit) (main upper file : ShaderUnit) :
    Prop :=
  ∃ rest, FirstChain load upper.path (main :: rest) ∧ FirstChain load file.path (main :: rest ++ [file])

namespace FirstChain

variable {path : String}

theorem reaches {file : ShaderUnit} {rest : List ShaderUnit} (loaded : load file.path = .ok file)
    (h : FirstChain load path (file :: rest)) : ReflTransGen (Includes load) file.path path := by
  generalize hchain : file :: rest = chain at h
  induction h generalizing file rest with
  | here ends =>
      cases hchain
      rw [ends]
  | onward inside includes astray loadedNext chain ih =>
      cases hchain
      refine .head ⟨_, loaded, ?_⟩ (ih loadedNext rfl)
      rw [includes]
      simp

theorem unique {file : ShaderUnit} {rest rest' : List ShaderUnit}
    (h : FirstChain load path (file :: rest)) (h' : FirstChain load path (file :: rest')) :
    rest = rest' := by
  generalize hchain : file :: rest = chain at h
  induction h generalizing file rest rest' with
  | here ends =>
      cases hchain
      cases h' with
      | here _ => rfl
      | onward inside _ _ _ _ => exact absurd ends inside
  | @onward _ next _ passed left inside includes astray loaded chain ih =>
      cases hchain
      cases h' with
      | here ends => exact absurd ends inside
      | @onward _ next' _ passed' left' _ includes' astray' loaded' chain' =>
          have hnext : next.path ∉ passed' := fun h => astray' _ h (chain.reaches loaded)
          have hnext' : next'.path ∉ passed := fun h => astray _ h (chain'.reaches loaded')
          obtain ⟨-, hpath, -⟩ := cut_unique hnext' hnext (includes.symm.trans includes')
          rw [hpath, loaded'] at loaded
          rw [Except.ok.inj loaded] at chain' ⊢
          rw [ih chain' rfl]

end FirstChain

/-! ### What a walk compares -/

/-- A file is reached by a first chain, and what it includes keeps within every file of it. -/
def FirstLaw (load : String → Except BuildError ShaderUnit) (main file : ShaderUnit) : Prop :=
  ∃ rest, FirstChain load file.path (main :: rest) ∧
    ∀ path ∈ file.includes, ∀ sub, load path = .ok sub → ∀ other ∈ main :: rest, sub.KeepsWithin other

/-- Where a walk stands, seen from the main file: a first chain from the file whose includes are
visited to an unlisted path off the chain above is the end of one from the main file. -/
def Leads (load : String → Except BuildError ShaderUnit) (main : ShaderUnit)
    (above : List ShaderUnit) (file : ShaderUnit) (listed : Listing) : Prop :=
  ∀ path rest, path ∉ listed.paths → (∀ other ∈ above, other.path ≠ path) →
    FirstChain load path (file :: rest) →
      ∃ front, above ++ [file] = main :: front ∧ FirstChain load path (main :: front ++ rest)

private theorem Leads.mono {main file : ShaderUnit} {above : List ShaderUnit}
    {before after : Listing} (h : Leads load main above file before)
    (grown : ∀ path ∈ before.paths, path ∈ after.paths) : Leads load main above file after :=
  fun path rest absent off chain => h path rest (fun hp => absent (grown path hp)) off chain

/-- Going down into an include after visiting those before it.  What they lead to is listed, so none
of them leads to an unlisted path. -/
private theorem Leads.descend {main file next : ShaderUnit} {above : List ShaderUnit}
    {listed : Listing} {passed left : List String} (h : Leads load main above file listed)
    (ordered : listed.Ordered load) (includes : file.includes = passed ++ next.path :: left)
    (visited : ∀ path ∈ passed, path ∈ listed.paths) (loaded : load next.path = .ok next) :
    Leads load main (above ++ [file]) next listed := by
  intro path rest absent off chain
  have hself : file.path ≠ path := off file (by simp)
  have hastray : ∀ other ∈ passed, ¬ ReflTransGen (Includes load) other path :=
    fun other hother hreach => absent (ordered.mem_paths_of_reaches hreach (visited other hother))
  obtain ⟨front, hfront, hchain⟩ := h path (next :: rest) absent
    (fun other hother => off other (List.mem_append_left _ hother))
    (.onward hself includes hastray loaded chain)
  refine ⟨front ++ [next], by rw [hfront]; rfl, ?_⟩
  simpa using hchain

namespace Walk

/-- What is still to be visited keeps within the chain above it. -/
theorem keepsWithin (names : Names load) {above : List ShaderUnit} {file : ShaderUnit}
    {todo : List String} {before after : Listing} (walk : Walk load above file todo before after)
    (start : before.Ordered load) :
    ∀ path ∈ todo, ∀ sub, load path = .ok sub → ∀ other ∈ above ++ [file], sub.KeepsWithin other := by
  induction walk with
  | done above file listed => simp
  | @known above file known first rest before after offChain found within onward ih =>
      intro path hpath sub hsub
      rcases List.mem_cons.mp hpath with rfl | hrest
      · obtain ⟨hmem, hknown⟩ := (start.placed.find?_eq_some_iff _ _).mp found
        have hload := start.loaded known hmem
        rw [hknown, hsub] at hload
        rw [Except.ok.inj hload]
        exact within
      · exact ih start path hrest sub hsub
  | @descend above file next first rest before inner after offChain unlisted loaded within below onward
      ihBelow ihOnward =>
      intro path hpath sub hsub
      obtain rfl : next.path = first := names first next loaded
      rcases List.mem_cons.mp hpath with rfl | hrest
      · rw [hsub] at loaded
        rw [Except.ok.inj loaded]
        exact within
      · exact ihOnward (below.ordered_descend names start unlisted loaded).1 path hrest sub hsub

/-- **Every file that a walk lists is reached by a first chain, and its includes keep within that
chain.**  `passed` are the includes that have been visited before. -/
theorem firstLaw (names : Names load) {main : ShaderUnit} {above : List ShaderUnit}
    {file : ShaderUnit} {todo : List String} {before after : Listing}
    (walk : Walk load above file todo before after) :
    ∀ passed, file.includes = passed ++ todo → (∀ path ∈ passed, path ∈ before.paths) →
      before.Ordered load → Leads load main above file before →
      ∀ other ∈ after.files, other ∈ before.files ∨ FirstLaw load main other := by
  induction walk with
  | done above file listed => exact fun _ _ _ _ _ other hother => .inl hother
  | @known above file known first rest before after offChain found within onward ih =>
      intro passed includes visited start leads
      obtain ⟨hmem, hknown⟩ := (start.placed.find?_eq_some_iff _ _).mp found
      refine ih (passed ++ [first]) (by simp [includes]) ?_ start leads
      intro path hpath
      rcases List.mem_append.mp hpath with hold | hnew
      · exact visited path hold
      · rw [List.mem_singleton.mp hnew, ← hknown]
        exact List.mem_map_of_mem hmem
  | @descend above file next first rest before inner after offChain unlisted loaded within below onward
      ihBelow ihOnward =>
      intro passed includes visited start leads
      obtain rfl : next.path = first := names first next loaded
      obtain ⟨hadded, hgrown⟩ := below.ordered_descend names start unlisted loaded
      have hleads := leads.descend start includes visited loaded
      have hlaw : FirstLaw load main next := by
        obtain ⟨front, hfront, hchain⟩ := hleads next.path []
          ((start.placed.find?_eq_none_iff _).mp unlisted) offChain (.here rfl)
        refine ⟨front, by simpa using hchain, ?_⟩
        rw [← hfront]
        exact below.keepsWithin names start
      intro other hother
      have honward := ihOnward (passed ++ [next.path]) (by simp [includes]) (by
        intro path hpath
        rcases List.mem_append.mp hpath with hold | hnew
        · exact hgrown path (visited path hold)
        · rw [List.mem_singleton.mp hnew, Listing.paths_add]
          simp) hadded (leads.mono hgrown) other hother
      rcases honward with hmem | hnew
      · rcases List.mem_append.mp hmem with hinner | hself
        · exact ihBelow [] rfl (by simp) start hleads other hinner
        · rw [List.mem_singleton.mp hself]
          exact .inr hlaw
      · exact .inr hnew

theorem firstLaw_main (names : Names load) {main : ShaderUnit} {inner : Listing}
    (walk : Walk load [] main main.includes .empty inner) :
    ∀ file ∈ (inner.add main).files, FirstLaw load main file := by
  have hleads : Leads load main [] main .empty :=
    fun path rest _ _ chain => ⟨[], rfl, chain⟩
  intro file hfile
  rcases List.mem_append.mp hfile with hinner | hself
  · rcases walk.firstLaw names [] rfl (by simp) (.empty load) hleads file hinner with hempty | hlaw
    · exact absurd hempty (by simp [Listing.empty])
    · exact hlaw
  · rw [List.mem_singleton.mp hself]
    exact ⟨[], .here rfl, walk.keepsWithin names (.empty load)⟩

end Walk

/-! ### Where the law can fail -/

/-- The files of a first chain are loaded from their paths, and lie between its two ends. -/
private theorem FirstChain.between {path : String} {first : ShaderUnit} {rest : List ShaderUnit}
    (h : FirstChain load path (first :: rest)) (loadedFirst : load first.path = .ok first) :
    ∀ other ∈ first :: rest, load other.path = .ok other ∧
      ReflTransGen (Includes load) first.path other.path ∧
        ReflTransGen (Includes load) other.path path := by
  generalize hchain : first :: rest = chain at h
  induction h generalizing first rest with
  | here ends =>
      cases hchain
      intro other hother
      rw [List.mem_singleton.mp hother]
      exact ⟨loadedFirst, .refl, by rw [ends]⟩
  | @onward file next _ passed left inside includes astray loadedNext chain ih =>
      cases hchain
      have hstep : Includes load file.path next.path := ⟨file, loadedFirst, by rw [includes]; simp⟩
      intro other hother
      rcases List.mem_cons.mp hother with rfl | hmem
      · exact ⟨loadedFirst, .refl, .head hstep (chain.reaches loadedNext)⟩
      · obtain ⟨hload, hfront, hback⟩ := ih loadedNext rfl other hmem
        exact ⟨hload, .head hstep hfront, hback⟩

private theorem FirstChain.mem_of_load {path : String} {first file : ShaderUnit}
    {rest : List ShaderUnit} (h : FirstChain load path (first :: rest))
    (loadedFirst : load first.path = .ok first) (loaded : load path = .ok file) :
    file ∈ first :: rest := by
  generalize hchain : first :: rest = chain at h
  induction h generalizing first rest with
  | here ends =>
      cases hchain
      rw [ends, loaded] at loadedFirst
      rw [Except.ok.inj loadedFirst]
      simp
  | onward inside includes astray loadedNext chain ih =>
      cases hchain
      exact List.mem_cons_of_mem _ (ih loadedNext rfl)

/-- A file without a version includes a path. -/
def PlainIncludes (load : String → Except BuildError ShaderUnit) (path other : String) : Prop :=
  ∃ file, load path = .ok file ∧ file.versionNumber? = none ∧ other ∈ file.includes

private theorem Includes.of_plain {path other : String} (h : PlainIncludes load path other) :
    Includes load path other := by
  obtain ⟨file, loaded, -, included⟩ := h
  exact ⟨file, loaded, included⟩

namespace Listing

/-- The version law: no file has a greater version than a file that includes it, directly or through
others. -/
def VersionLaw (load : String → Except BuildError ShaderUnit) (listing : Listing) : Prop :=
  ∀ file ∈ listing.files, ∀ sub ∈ listing.files,
    TransGen (Includes load) file.path sub.path → sub.KeepsWithin file

/-- The comparison at detours.  Where a file without a version is included that was first reached
over another file, every version behind it, up to the next files that declare one, keeps within the
first chain to the including file. -/
def VersionLawAtDetours (load : String → Except BuildError ShaderUnit) (main : ShaderUnit)
    (listing : Listing) : Prop :=
  ∀ upper ∈ listing.files, ∀ shared ∈ listing.files, shared.path ∈ upper.includes →
    shared.versionNumber? = none → ¬ FirstReachedOver load main upper shared →
      ∀ rest, FirstChain load upper.path (main :: rest) → ∀ other ∈ main :: rest,
        ∀ sub ∈ listing.files, TransGen (PlainIncludes load) shared.path sub.path →
          sub.KeepsWithin other

end Listing

/-- A version number bounds a file from the chain by which the file was first reached. -/
def Capped (load : String → Except BuildError ShaderUnit) (main file : ShaderUnit) (n : Nat) : Prop :=
  ∃ rest, FirstChain load file.path (main :: rest) ∧
    ∃ other ∈ main :: rest, ∃ k, other.versionNumber? = some k ∧ k ≤ n

namespace Capped

variable {main file : ShaderUnit} {n : Nat}

private theorem self (law : FirstLaw load main file) (loadedMain : load main.path = .ok main)
    (loaded : load file.path = .ok file) {k : Nat} (version : file.versionNumber? = some k)
    (le : k ≤ n) : Capped load main file n := by
  obtain ⟨rest, chain, -⟩ := law
  exact ⟨rest, chain, file, chain.mem_of_load loadedMain loaded, k, version, le⟩

/-- What a bounded file includes has at most the bounding version. -/
private theorem version_le (h : Capped load main file n) (law : FirstLaw load main file)
    {sub : ShaderUnit} (loaded : load sub.path = .ok sub) (included : sub.path ∈ file.includes)
    {m : Nat} (version : sub.versionNumber? = some m) : m ≤ n := by
  obtain ⟨rest, chain, other, hother, k, hk, hle⟩ := h
  obtain ⟨rest', chain', hwithin⟩ := law
  rw [← chain.unique chain'] at hwithin
  have := hwithin sub.path included sub loaded other hother m k version hk
  omega

private theorem overFirst {sub : ShaderUnit} (h : Capped load main file n)
    (first : FirstReachedOver load main file sub) : Capped load main sub n := by
  obtain ⟨rest, chain, other, hother, hk⟩ := h
  obtain ⟨rest', chain', chainSub⟩ := first
  rw [← chain.unique chain'] at chainSub
  exact ⟨rest ++ [sub], chainSub, other, List.mem_append_left [sub] hother, hk⟩

end Capped

/-- Behind a detour: a file without a version leads to versions of a bounded number only, until the
next files that declare one. -/
structure Bounding (load : String → Except BuildError ShaderUnit) (listing : Listing)
    (file : ShaderUnit) (n : Nat) : Prop where
  plain : file.versionNumber? = none
  bound : ∀ sub ∈ listing.files, TransGen (PlainIncludes load) file.path sub.path →
    ∀ m, sub.versionNumber? = some m → m ≤ n

namespace Listing.DependencyOrder

variable {main : ShaderUnit} {listing : Listing}

/-- A listed path includes only listed files, which are those that the includes load. -/
private theorem exists_of_includes (order : listing.DependencyOrder load main) {file : ShaderUnit}
    (hfile : file ∈ listing.files) {path : String} (step : Includes load file.path path) :
    path ∈ file.includes ∧ ∃ next ∈ listing.files, next.path = path := by
  obtain ⟨file', hload, hincluded⟩ := step
  rw [order.loaded file hfile] at hload
  rw [← Except.ok.inj hload] at hincluded
  obtain ⟨i, hi⟩ := List.mem_iff_getElem?.mp hfile
  obtain ⟨j, hj, -⟩ := order.behind i file hi path hincluded
  exact ⟨hincluded, List.mem_map.mp (List.mem_of_getElem? hj)⟩

/-- One include keeps a bound: over a first chain, past a version, into a detour or behind it. -/
theorem bounded_step (order : listing.DependencyOrder load main)
    (law : ∀ file ∈ listing.files, FirstLaw load main file)
    (loadedMain : load main.path = .ok main) (detours : listing.VersionLawAtDetours load main)
    {last next : ShaderUnit} (hlast : last ∈ listing.files) (hnext : next ∈ listing.files)
    (included : next.path ∈ last.includes) {n : Nat}
    (h : Capped load main last n ∨ Bounding load listing last n) :
    Capped load main next n ∨ Bounding load listing next n := by
  have hself : ∀ k, next.versionNumber? = some k → k ≤ n → Capped load main next n :=
    fun k hk hle => .self (law next hnext) loadedMain (order.loaded next hnext) hk hle
  have hload := order.loaded next hnext
  rcases h with hcapped | hbounding
  · cases hversion : next.versionNumber? with
    | some k =>
        exact .inl (hself k hversion (hcapped.version_le (law last hlast) hload included hversion))
    | none =>
        by_cases hfirst : FirstReachedOver load main last next
        · exact .inl (hcapped.overFirst hfirst)
        · refine .inr ⟨hversion, fun sub hsub hreach m hm => ?_⟩
          obtain ⟨rest, chain, other, hother, k, hk, hle⟩ := hcapped
          have := detours last hlast next hnext included hversion hfirst rest chain other hother sub
            hsub hreach m k hm hk
          omega
  · have hstep : PlainIncludes load last.path next.path :=
      ⟨last, order.loaded last hlast, hbounding.plain, included⟩
    cases hversion : next.versionNumber? with
    | some k => exact .inl (hself k hversion (hbounding.bound next hnext (.single hstep) k hversion))
    | none =>
        exact .inr ⟨hversion, fun sub hsub hreach => hbounding.bound sub hsub (.head hstep hreach)⟩

/-- A version bounds the end of every chain of includes that its file begins. -/
theorem bounded_of_reaches (order : listing.DependencyOrder load main)
    (law : ∀ file ∈ listing.files, FirstLaw load main file)
    (loadedMain : load main.path = .ok main) (detours : listing.VersionLawAtDetours load main)
    {file : ShaderUnit} (hfile : file ∈ listing.files) {n : Nat}
    (version : file.versionNumber? = some n) {path : String}
    (reaches : ReflTransGen (Includes load) file.path path) :
    ∃ last ∈ listing.files, last.path = path ∧
      (Capped load main last n ∨ Bounding load listing last n) := by
  induction reaches with
  | refl =>
      exact ⟨file, hfile, rfl,
        .inl (.self (law file hfile) loadedMain (order.loaded file hfile) version (Nat.le_refl n))⟩
  | tail _ hstep ih =>
      obtain ⟨last, hlast, rfl, hbounded⟩ := ih
      obtain ⟨hincluded, next, hnext, rfl⟩ := order.exists_of_includes hlast hstep
      exact ⟨next, hnext, rfl,
        order.bounded_step law loadedMain detours hlast hnext hincluded hbounded⟩

/-- The law holds along every chain of includes exactly when it holds at the detours. -/
theorem versionLaw_iff (order : listing.DependencyOrder load main)
    (law : ∀ file ∈ listing.files, FirstLaw load main file)
    (loadedMain : load main.path = .ok main) :
    listing.VersionLaw load ↔ listing.VersionLawAtDetours load main := by
  constructor
  · intro h upper hupper shared hshared hincluded _ _ rest chain other hother sub hsub hreach
    obtain ⟨hload, hfront, hback⟩ := chain.between loadedMain other hother
    have hlisted := order.mem_files hfront hload
    have hstep : Includes load upper.path shared.path := ⟨upper, order.loaded upper hupper, hincluded⟩
    have hbelow : TransGen (Includes load) shared.path sub.path :=
      TransGen.mono (fun _ _ => Includes.of_plain) _ _ hreach
    exact h other hlisted sub hsub (.trans_right hback (.head hstep hbelow))
  · intro detours file hfile sub hsub hreach m n hm hn
    obtain ⟨path, hfront, hlast⟩ := TransGen.tail'_iff.mp hreach
    obtain ⟨last, hmem, rfl, hbounded⟩ :=
      order.bounded_of_reaches law loadedMain detours hfile hn hfront
    obtain ⟨hincluded, -⟩ := order.exists_of_includes hmem hlast
    rcases hbounded with hcapped | hbounding
    · exact hcapped.version_le (law last hmem) (order.loaded sub hsub) hincluded hm
    · exact hbounding.bound sub hsub
        (.single ⟨last, order.loaded last hmem, hbounding.plain, hincluded⟩) m hm

end Listing.DependencyOrder

namespace Project

variable {project : Project} {settings : Settings}

/-- **A build that succeeds keeps the version law exactly when it keeps it at the detours.** -/
theorem versionLaw_iff_of_build {entry : String} {program : Program}
    (built : project.build settings entry = .ok program) :
    ∃ main listing, project.loadMain settings entry = .ok main ∧
      project.order settings main = .ok listing ∧
      (listing.VersionLaw (project.loadIncluded settings) ↔
        listing.VersionLawAtDetours (project.loadIncluded settings) main) := by
  obtain ⟨main, header, listing, hmain, -, horder, -⟩ := build_eq_ok_iff.mp built
  have order := dependencyOrder_of_order hmain horder
  obtain ⟨inner, walk, rfl⟩ := walk_of_order horder
  have law := walk.firstLaw_main (names_loadIncluded project settings)
  refine ⟨main, inner.add main, hmain, horder, ?_⟩
  exact order.versionLaw_iff law (loadIncluded_of_loadMain hmain)

theorem layered_versionLaw_iff :
    ∃ program, layered.build .empty "main" = .ok program ∧
      ∃ main listing, layered.loadMain .empty "main" = .ok main ∧
        layered.order .empty main = .ok listing ∧
        (listing.VersionLaw (layered.loadIncluded .empty) ↔
          listing.VersionLawAtDetours (layered.loadIncluded .empty) main) := by
  obtain ⟨program, hbuild⟩ := layered_builds
  exact ⟨program, hbuild, versionLaw_iff_of_build hbuild⟩

/-- The includes and the version number of a file of the layered project. -/
def layeredOutline (path : String) : Except BuildError (List String × Option Nat) :=
  layered.loadIncluded .empty path >>= fun file => .ok (file.includes, file.versionNumber?)

/-- **The layered project builds and breaks the law**: its old file of version 100 leads through the
middle file to the new one of version 300. -/
theorem layered_breaks_versionLaw :
    ∃ program, layered.build .empty "main" = .ok program ∧
      ∃ main listing, layered.loadMain .empty "main" = .ok main ∧
        layered.order .empty main = .ok listing ∧
        ¬ listing.VersionLaw (layered.loadIncluded .empty) := by
  obtain ⟨program, hbuild⟩ := layered_builds
  obtain ⟨main, -, listing, hmain, -, horder, -⟩ := build_eq_ok_iff.mp hbuild
  have hpath := path_of_loadMain hmain
  have order := dependencyOrder_of_order hmain horder
  refine ⟨program, hbuild, main, listing, hmain, horder, fun law => ?_⟩
  have outlines : ["main", "old", "mid", "new"].map layeredOutline =
      [.ok (["mid", "old"], some 310), .ok (["mid"], some 100), .ok (["new"], none),
        .ok ([], some 300)] := by decide +kernel
  simp only [List.map_cons, List.map_nil, List.cons.injEq, and_true] at outlines
  obtain ⟨houtMain, houtOld, houtMid, houtNew⟩ := outlines
  obtain ⟨mainFile, loadMain, hmainFile⟩ := bind_eq_ok_iff.mp houtMain
  obtain ⟨old, loadOld, hold⟩ := bind_eq_ok_iff.mp houtOld
  obtain ⟨mid, loadMid, hmid⟩ := bind_eq_ok_iff.mp houtMid
  obtain ⟨new, loadNew, hnew⟩ := bind_eq_ok_iff.mp houtNew
  simp only [Except.ok.injEq, Prod.mk.injEq] at hmainFile hold hmid hnew
  have toOld : Includes (layered.loadIncluded .empty) "main" "old" :=
    ⟨mainFile, loadMain, by simp [hmainFile.1]⟩
  have toMid : Includes (layered.loadIncluded .empty) "old" "mid" := ⟨old, loadOld, by simp [hold.1]⟩
  have toNew : Includes (layered.loadIncluded .empty) "mid" "new" := ⟨mid, loadMid, by simp [hmid.1]⟩
  have fromMain : ReflTransGen (Includes (layered.loadIncluded .empty)) main.path "old" := by
    rw [hpath]
    exact .single toOld
  have oldListed := order.mem_files fromMain loadOld
  have newListed := order.mem_files ((fromMain.tail toMid).tail toNew) loadNew
  have throughMid : TransGen (Includes (layered.loadIncluded .empty)) old.path new.path := by
    rw [path_of_loadIncluded loadOld, path_of_loadIncluded loadNew]
    exact .head toMid (.single toNew)
  have hle := law old oldListed new newListed throughMid 300 100 hnew.2 hold.2
  omega

end Project

end ShaderLink
