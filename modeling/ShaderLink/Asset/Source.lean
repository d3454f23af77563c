/-
Where file texts come from.

An asset source answers each path with a text or the reason why there is none.
All the texts it can answer with are known beforehand, which is what bounds a
build: every file but the main one is named in one of these texts.

`Registry` is the source that holds texts under paths put into it.
-/
import ShaderLink.Asset.Path
import ShaderLink.Error

namespace ShaderLink

/-- A source of file texts, of which there are finitely many. -/
structure AssetSource where
  read : String → Except LoadFailure String
  texts : List String
  mem_texts : ∀ path text, read path = .ok text → text ∈ texts

namespace AssetSource

/-- A bound on how many files can include one another in a chain: the main file, and one more for
each character of a text, which is more than the texts have room to name. -/
def depth (source : AssetSource) : Nat := (source.texts.flatMap String.toList).length + 2

end AssetSource

/-- Texts put in under paths, the latest first. -/
structure Registry where
  entries : List (String × String)

namespace Registry

def empty : Registry := ⟨[]⟩

/-- The registry with a text under a path, in place of an earlier one of the same place. -/
def insert (registry : Registry) (path text : String) : Registry :=
  ⟨(path, text) :: registry.entries⟩

/-- The registry of texts put in one after another. -/
def ofList (entries : List (String × String)) : Registry := ⟨entries.reverse⟩

def get? (registry : Registry) (path : String) : Option String :=
  (registry.entries.find? fun entry => Path.key entry.1 == Path.key path).map (·.2)

def toSource (registry : Registry) : AssetSource where
  read path :=
    match registry.get? path with
    | some text => .ok text
    | none => .error .unregistered
  texts := registry.entries.map (·.2)
  mem_texts path text h := by
    cases hg : registry.get? path with
    | none => simp [hg] at h
    | some found =>
      simp only [hg, Except.ok.injEq] at h
      subst h
      simp only [get?, Option.map_eq_some_iff] at hg
      obtain ⟨entry, hfind, rfl⟩ := hg
      exact List.mem_map_of_mem (List.mem_of_find?_eq_some hfind)

end Registry

end ShaderLink
