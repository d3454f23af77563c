/-
Tables by name.

A table is a list in which no two entries have the same key, in the order in
which the keys first appeared.  Inserting an entry replaces the one of its key
where it stands, or puts a new key at the end; so a look-up finds the entry
inserted last, and the order never changes.  Constants and settings are both
kept this way, each with its own notion of a key.

That the keys are distinct is a field of the structure.  `keys_insertInto` is
the reason that insertion keeps it.
-/
namespace ShaderLink

/-- The list with an entry put where its key stands, or at the end. -/
def insertInto {α : Type} (key : α → String) (x : α) : List α → List α
  | [] => [x]
  | y :: rest => if key y = key x then x :: rest else y :: insertInto key x rest

/-- Insertion adds the key at the end when it is new and keeps the keys otherwise. -/
theorem keys_insertInto {α : Type} (key : α → String) (x : α) (xs : List α) :
    (insertInto key x xs).map key =
      if key x ∈ xs.map key then xs.map key else xs.map key ++ [key x] := by
  induction xs with
  | nil => simp [insertInto]
  | cons y rest ih =>
    by_cases h : key y = key x
    · simp [insertInto, h]
    · have hne : ¬ key x = key y := fun e => h e.symm
      by_cases hm : key x ∈ rest.map key
      · simp_all [insertInto]
      · simp_all [insertInto]

/-- Entries with distinct keys, in the order in which the keys were first inserted. -/
structure Table {α : Type} (key : α → String) where
  entries : List α
  distinct : (entries.map key).Nodup
  deriving DecidableEq

namespace Table

variable {α : Type} {key : α → String}

/-- The table without entries. -/
def empty : Table key := ⟨[], by simp⟩

/-- The entry of a name. -/
def get? (table : Table key) (name : String) : Option α :=
  table.entries.find? (key · == name)

/-- The keys in order. -/
def names (table : Table key) : List String := table.entries.map key

/-- The number of entries. -/
def size (table : Table key) : Nat := table.entries.length

/-- The table with an entry replaced in place or added at the end. -/
def insert (table : Table key) (x : α) : Table key where
  entries := insertInto key x table.entries
  distinct := by
    rw [keys_insertInto]
    split
    · exact table.distinct
    · rename_i fresh
      refine List.nodup_append.mpr ⟨table.distinct, by simp, ?_⟩
      intro a ha b hb e
      simp only [List.mem_singleton] at hb
      exact fresh (hb ▸ e ▸ ha)

/-- The table with the entries of another inserted in order, so that the other's win. -/
def merge (table other : Table key) : Table key :=
  other.entries.foldl insert table

@[simp] theorem entries_empty : (empty : Table key).entries = [] := rfl

@[simp] theorem entries_insert (table : Table key) (x : α) :
    (table.insert x).entries = insertInto key x table.entries := rfl

/-- Tables with the same entries are equal. -/
theorem ext {a b : Table key} (h : a.entries = b.entries) : a = b := by
  cases a
  cases b
  cases h
  rfl

/-! ### What an insertion does to look-ups -/

private theorem find?_insertInto_self (x : α) (xs : List α) :
    (insertInto key x xs).find? (key · == key x) = some x := by
  induction xs with
  | nil => simp [insertInto]
  | cons y rest ih =>
    by_cases h : key y = key x
    · simp [insertInto, h]
    · have other : (key y == key x) = false := by simpa using h
      simp [insertInto, h, other, ih]

private theorem find?_insertInto_of_ne {x : α} {name : String} (hne : key x ≠ name) (xs : List α) :
    (insertInto key x xs).find? (key · == name) = xs.find? (key · == name) := by
  have new : (key x == name) = false := by simpa using hne
  induction xs with
  | nil => simp [insertInto, new]
  | cons y rest ih =>
    by_cases h : key y = key x
    · have old : (key y == name) = false := by rw [h, new]
      simp [insertInto, h, new]
    · simp only [insertInto, h, if_false, List.find?_cons, ih]

/-- The entry just inserted is found under its key. -/
@[simp] theorem get?_insert_self (table : Table key) (x : α) :
    (table.insert x).get? (key x) = some x :=
  find?_insertInto_self x table.entries

/-- Under every other key an insertion changes nothing. -/
theorem get?_insert_of_ne (table : Table key) {x : α} {name : String} (hne : key x ≠ name) :
    (table.insert x).get? name = table.get? name :=
  find?_insertInto_of_ne hne table.entries

end Table

end ShaderLink
