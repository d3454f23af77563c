/-
Constants with an index by name.

A table of constants may be kept as a list beside a hash map that has the place of every
name in the list.  The two are written to apart from each other: a constant of a new name is
put at the end of the list and its place into the map, and a constant of a name that is
there is put into the list alone.  A place that the map has is looked up without asking
whether the list is that long.

The map always has the names of the list, each with its place (`Represents`).  One lemma for
each insertion says that it keeps this and makes of the list what it makes of the table that
has no map, and a run of insertions does so too.  So no place is out of range, and an
insertion that is refused leaves list and map alone.
-/
import ShaderLink.Proofs.Constant.Table

namespace ShaderLink

/-! ### Where entries stand -/

section Insertion

variable {α : Type} {key : α → String} {x : α}

/-- An entry whose key is there already takes the place of the one that has it. -/
private theorem insertInto_eq_set {xs : List α} (distinct : (xs.map key).Nodup) {i : Nat}
    (place : (xs.map key)[i]? = some (key x)) : insertInto key x xs = xs.set i x := by
  induction xs generalizing i with
  | nil => exact absurd place (by simp)
  | cons y rest ih =>
      rw [List.map_cons, List.nodup_cons] at distinct
      obtain ⟨hy, hrest⟩ := distinct
      cases i with
      | zero =>
          have hkey : key y = key x := Option.some.inj place
          rw [insertInto, if_pos hkey, List.set_cons_zero]
      | succ i =>
          have hplace : (rest.map key)[i]? = some (key x) := place
          have hkey : key y ≠ key x := by
            intro heq
            rw [heq] at hy
            exact hy (List.mem_of_getElem? hplace)
          rw [insertInto, if_neg hkey, ih hrest hplace, List.set_cons_succ]

end Insertion

private theorem getElem?_append_singleton_eq_some_iff {α : Type} {xs : List α} {x y : α} {i : Nat} :
    (xs ++ [x])[i]? = some y ↔ xs[i]? = some y ∨ (i = xs.length ∧ x = y) := by
  rcases Nat.lt_trichotomy i xs.length with hlt | rfl | hgt
  · rw [List.getElem?_append_left hlt]
    simp [Nat.ne_of_lt hlt]
  · simp
  · rw [List.getElem?_eq_none (by simp; omega), List.getElem?_eq_none (by omega)]
    simp [Nat.ne_of_gt hgt]

namespace Table

variable {α : Type} {key : α → String}

theorem getElem?_names_eq_some_iff {table : Table key} {name : String} {i : Nat} :
    table.names[i]? = some name ↔ ∃ x, table.entries[i]? = some x ∧ key x = name := by
  rw [names, List.getElem?_map, Option.map_eq_some_iff]

/-- **A list keyed by name**: an entry is replaced where it stands, or a new one comes to the end. -/
theorem entries_insert_cases (table : Table key) (x : α) :
    (∃ (i : Nat) (old : α), table.entries[i]? = some old ∧ key old = key x ∧
        (table.insert x).entries = table.entries.set i x) ∨
      ((∀ other ∈ table.entries, key other ≠ key x) ∧
        (table.insert x).entries = table.entries ++ [x]) := by
  by_cases hknown : key x ∈ table.names
  · obtain ⟨i, hi⟩ := List.mem_iff_getElem?.mp hknown
    obtain ⟨old, hold, hkey⟩ := getElem?_names_eq_some_iff.mp hi
    exact .inl ⟨i, old, hold, hkey, insertInto_eq_set table.distinct hi⟩
  · refine .inr ⟨?_, insertInto_of_notMem hknown⟩
    intro other hother heq
    exact hknown (mem_names_iff.mpr ⟨other, hother, heq⟩)

end Table

/-! ### Insertions -/

namespace ConstantTable

/-- A constant that is inserted, in any case or only if its name is new. -/
inductive Insertion where
  | replacing (c : Constant)
  | unique (c : Constant)

/-- What comes of an insertion, and the table then. -/
def apply (table : ConstantTable) : Insertion → Except BuildError Unit × ConstantTable
  | .replacing c => (.ok (), table.insert c)
  | .unique c =>
    match table.insertUnique c with
    | .ok next => (.ok (), next)
    | .error error => (.error error, table)

/-- What comes of insertions one after the other, and the table in the end. -/
def applyAll (table : ConstantTable) :
    List Insertion → List (Except BuildError Unit) × ConstantTable
  | [] => ([], table)
  | insertion :: rest =>
    let (outcome, table) := apply table insertion
    let (outcomes, table) := applyAll table rest
    (outcome :: outcomes, table)

private theorem apply_unique_of_some {table : ConstantTable} {c taken : Constant}
    (found : table.get? c.name = some taken) :
    table.apply (.unique c) = (.error (.duplicateConstant taken c), table) := by
  have hrefused : table.insertUnique c = .error (.duplicateConstant taken c) := by
    rw [insertUnique, found]
  rw [apply, hrefused]

private theorem apply_unique_of_none {table : ConstantTable} {c : Constant}
    (fresh : table.get? c.name = none) : table.apply (.unique c) = (.ok (), table.insert c) := by
  have hinserted : table.insertUnique c = .ok (table.insert c) := by
    rw [insertUnique, fresh]
  rw [apply, hinserted]

/-- Constants with the place of every name. -/
structure Indexed where
  entries : List Constant
  byName : Std.HashMap String Nat

namespace Indexed

def new : Indexed := ⟨[], ∅⟩

/-- The constant of a name, if the name has a place.  Nothing comes of a place out of range. -/
def get? (indexed : Indexed) (name : String) : Option (Option Constant) :=
  match indexed.byName[name]? with
  | some i => indexed.entries[i]?.map some
  | none => some none

/-- The constants with one put in its place or at the end.  Nothing comes of a place out of range. -/
def insert (indexed : Indexed) (c : Constant) : Option Indexed :=
  match indexed.byName[c.name]? with
  | some i =>
    if i < indexed.entries.length then some { indexed with entries := indexed.entries.set i c }
    else none
  | none => some ⟨indexed.entries ++ [c], indexed.byName.insert c.name indexed.entries.length⟩

/-- What comes of inserting a constant if its name is new, and the constants then. -/
def insertUnique (indexed : Indexed) (c : Constant) : Option (Except BuildError Unit × Indexed) := do
  match ← indexed.get? c.name with
  | some taken => return (.error (.duplicateConstant taken c), indexed)
  | none =>
    let next ← indexed.insert c
    return (.ok (), next)

/-- What comes of an insertion, and the constants then. -/
def apply (indexed : Indexed) : Insertion → Option (Except BuildError Unit × Indexed)
  | .replacing c => do
    let next ← indexed.insert c
    return (.ok (), next)
  | .unique c => indexed.insertUnique c

/-- What comes of insertions one after the other, and the constants in the end. -/
def applyAll (indexed : Indexed) :
    List Insertion → Option (List (Except BuildError Unit) × Indexed)
  | [] => some ([], indexed)
  | insertion :: rest => do
    let (outcome, next) ← indexed.apply insertion
    let (outcomes, last) ← next.applyAll rest
    return (outcome :: outcomes, last)

/-! ### The index is that of the table -/

/-- The constants are those of the table, and the place of a name is where the table has it. -/
structure Represents (indexed : Indexed) (table : ConstantTable) : Prop where
  entries : indexed.entries = table.entries
  places : ∀ (name : String) (i : Nat),
    indexed.byName[name]? = some i ↔ table.names[i]? = some name

variable {indexed : Indexed} {table : ConstantTable}

theorem represents_new : new.Represents Table.empty := by
  refine ⟨rfl, ?_⟩
  intro name i
  simp [new, Table.names]

/-- A name without a place is not in the table. -/
private theorem Represents.notMem_names (h : indexed.Represents table) {name : String}
    (unplaced : indexed.byName[name]? = none) : name ∉ table.names := by
  intro hname
  obtain ⟨i, hi⟩ := List.mem_iff_getElem?.mp hname
  rw [(h.places name i).mpr hi] at unplaced
  exact absurd unplaced (by simp)

theorem Represents.get? (h : indexed.Represents table) (name : String) :
    indexed.get? name = some (table.get? name) := by
  unfold Indexed.get?
  cases hplace : indexed.byName[name]? with
  | some i =>
      obtain ⟨c, hc, hname⟩ := Table.getElem?_names_eq_some_iff.mp ((h.places name i).mp hplace)
      have hfound : table.get? name = some c :=
        Table.get?_eq_some_iff.mpr ⟨List.mem_of_getElem? hc, hname⟩
      dsimp only
      rw [h.entries, hc, hfound]
      rfl
  | none =>
      rw [Table.get?_eq_none_iff.mpr (h.notMem_names hplace)]

/-- **A constant that is inserted** takes its place in both, or comes to the end of both. -/
theorem Represents.insert (h : indexed.Represents table) (c : Constant) :
    ∃ next, indexed.insert c = some next ∧ next.Represents (table.insert c) := by
  unfold Indexed.insert
  cases hplace : indexed.byName[c.name]? with
  | some i =>
      have hi := (h.places c.name i).mp hplace
      have hlength : i < indexed.entries.length := by
        obtain ⟨old, hold, -⟩ := Table.getElem?_names_eq_some_iff.mp hi
        rw [h.entries]
        exact (List.getElem?_eq_some_iff.mp hold).1
      dsimp only
      refine ⟨_, if_pos hlength, ?_, ?_⟩
      · rw [Table.entries_insert, insertInto_eq_set table.distinct hi, ← h.entries]
      · intro name j
        rw [Table.names_insert, if_pos (List.mem_of_getElem? hi)]
        exact h.places name j
  | none =>
      have hfresh := h.notMem_names hplace
      refine ⟨_, rfl, ?_, ?_⟩
      · rw [Table.entries_insert, insertInto_of_notMem hfresh, ← h.entries]
      · intro name i
        have hlength : indexed.entries.length = table.names.length := by
          rw [h.entries, Table.names, List.length_map]
        rw [Table.names_insert, if_neg hfresh, getElem?_append_singleton_eq_some_iff,
          Std.HashMap.getElem?_insert, hlength]
        by_cases hname : c.name = name
        · have hnone : table.names[i]? ≠ some name := by
            intro hi
            rw [← hname] at hi
            exact hfresh (List.mem_of_getElem? hi)
          simp [hname, hnone, eq_comm]
        · simp [hname, h.places]

/-- A constant whose name is there is refused, and nothing changes. -/
private theorem Represents.insertUnique_of_some (h : indexed.Represents table) {c taken : Constant}
    (found : table.get? c.name = some taken) :
    indexed.insertUnique c = some (.error (.duplicateConstant taken c), indexed) := by
  rw [Indexed.insertUnique, h.get? c.name, found]
  rfl

private theorem Represents.insertUnique_of_none (h : indexed.Represents table) {c : Constant}
    (fresh : table.get? c.name = none) :
    indexed.insertUnique c = (indexed.insert c).map fun next => (.ok (), next) := by
  rw [Indexed.insertUnique, h.get? c.name, fresh]
  cases indexed.insert c with
  | none => rfl
  | some next => rfl

/-- **One insertion** makes of both the same, with the same outcome. -/
theorem Represents.apply (h : indexed.Represents table) (insertion : Insertion) :
    ∃ next, indexed.apply insertion = some ((table.apply insertion).1, next) ∧
      next.Represents (table.apply insertion).2 := by
  cases insertion with
  | replacing c =>
      obtain ⟨next, hnext, hrepresents⟩ := h.insert c
      refine ⟨next, ?_, hrepresents⟩
      rw [Indexed.apply, hnext]
      rfl
  | unique c =>
      cases hfound : table.get? c.name with
      | some taken =>
          rw [apply_unique_of_some hfound]
          exact ⟨indexed, h.insertUnique_of_some hfound, h⟩
      | none =>
          obtain ⟨next, hnext, hrepresents⟩ := h.insert c
          rw [apply_unique_of_none hfound]
          refine ⟨next, ?_, hrepresents⟩
          rw [Indexed.apply, h.insertUnique_of_none hfound, hnext]
          rfl

/-- **A run of insertions** makes of both the same, with the same outcomes. -/
theorem Represents.applyAll (h : indexed.Represents table) (insertions : List Insertion) :
    ∃ last, indexed.applyAll insertions = some ((table.applyAll insertions).1, last) ∧
      last.Represents (table.applyAll insertions).2 := by
  induction insertions generalizing indexed table with
  | nil => exact ⟨indexed, rfl, h⟩
  | cons insertion rest ih =>
      obtain ⟨next, hnext, hrepresents⟩ := h.apply insertion
      obtain ⟨last, hlast, hend⟩ := ih hrepresents
      refine ⟨last, ?_, hend⟩
      rw [Indexed.applyAll, hnext, Option.bind_eq_bind, Option.bind_some]
      dsimp only
      rw [hlast]
      rfl

/-! ### Tables made by insertions -/

/-- The index belongs to the constants. -/
structure Consistent (indexed : Indexed) : Prop where
  /-- It has the names of the constants and no others. -/
  names : ∀ name, name ∈ indexed.byName ↔ ∃ c ∈ indexed.entries, c.name = name
  /-- The place of a name is that of the only constant of the name. -/
  places : ∀ (name : String) (i : Nat), indexed.byName[name]? = some i →
    ∃ c, indexed.entries[i]? = some c ∧ c.name = name ∧
      ∀ (j : Nat) (other : Constant), indexed.entries[j]? = some other → other.name = name → j = i
  /-- A look-up stays within the constants and finds the one of the name. -/
  lookups : ∀ name, indexed.get? name = some (indexed.entries.find? (·.name == name))

/-- What inserting a constant comes to. -/
structure Inserts (indexed : Indexed) (c : Constant) : Prop where
  /-- It takes the place of the constant of its name, or comes to the end when the name is new. -/
  insert : ∃ next, indexed.insert c = some next ∧
    ((∃ (i : Nat) (old : Constant), indexed.entries[i]? = some old ∧ old.name = c.name ∧
        next.entries = indexed.entries.set i c) ∨
      ((∀ other ∈ indexed.entries, other.name ≠ c.name) ∧ next.entries = indexed.entries ++ [c]))
  /-- When its name must be new, it is refused for the constant of its name and nothing changes, or it
  comes to the end. -/
  insertUnique :
    (∃ taken ∈ indexed.entries, taken.name = c.name ∧
        indexed.insertUnique c = some (.error (.duplicateConstant taken c), indexed)) ∨
      ((∀ other ∈ indexed.entries, other.name ≠ c.name) ∧
        ∃ next, indexed.insertUnique c = some (.ok (), next) ∧ next.entries = indexed.entries ++ [c])

theorem Represents.consistent (h : indexed.Represents table) : indexed.Consistent := by
  refine ⟨?_, ?_, ?_⟩
  · intro name
    rw [Std.HashMap.mem_iff_isSome_getElem?, Option.isSome_iff_exists, h.entries,
      ← Table.mem_names_iff, List.mem_iff_getElem?]
    exact exists_congr fun i => h.places name i
  · intro name i hplace
    obtain ⟨c, hc, hname⟩ := Table.getElem?_names_eq_some_iff.mp ((h.places name i).mp hplace)
    rw [h.entries]
    refine ⟨c, hc, hname, ?_⟩
    intro j other hother hothername
    have hj := (h.places name j).mpr (Table.getElem?_names_eq_some_iff.mpr ⟨other, hother, hothername⟩)
    exact Option.some.inj (hj.symm.trans hplace)
  · intro name
    rw [h.get? name, h.entries]
    rfl

theorem Represents.inserts (h : indexed.Represents table) (c : Constant) : indexed.Inserts c := by
  obtain ⟨next, hnext, hrepresents⟩ := h.insert c
  have hcases := table.entries_insert_cases c
  rw [← hrepresents.entries, ← h.entries] at hcases
  refine ⟨⟨next, hnext, hcases⟩, ?_⟩
  cases hfound : table.get? c.name with
  | some taken =>
      obtain ⟨htaken, hname⟩ := Table.get?_eq_some_iff.mp hfound
      rw [← h.entries] at htaken
      exact .inl ⟨taken, htaken, hname, h.insertUnique_of_some hfound⟩
  | none =>
      have hfresh : ∀ other ∈ indexed.entries, other.name ≠ c.name := by
        intro other hother heq
        rw [h.entries] at hother
        exact Table.get?_eq_none_iff.mp hfound (Table.mem_names_iff.mpr ⟨other, hother, heq⟩)
      refine .inr ⟨hfresh, next, ?_, ?_⟩
      · rw [h.insertUnique_of_none hfound, hnext]
        rfl
      · -- Only a constant that is there could be replaced.
        rcases hcases with ⟨i, old, hold, hname, -⟩ | ⟨-, hentries⟩
        · exact absurd hname (hfresh old (List.mem_of_getElem? hold))
        · exact hentries

/--
**Constants that are inserted one after another, in any case or if their names are new, have the index
that belongs to them.**  They are those of the table that has no index, and the same insertions are
refused.  So no place is ever out of range, and each further insertion replaces one constant, adds one
at the end, or changes nothing.
-/
theorem consistent_of_insertions (insertions : List Insertion) :
    ∃ indexed, new.applyAll insertions =
        some ((ConstantTable.applyAll Table.empty insertions).1, indexed) ∧
      indexed.entries = (ConstantTable.applyAll Table.empty insertions).2.entries ∧
      indexed.Consistent ∧ ∀ c, indexed.Inserts c := by
  obtain ⟨indexed, hrun, hrepresents⟩ := represents_new.applyAll insertions
  exact ⟨indexed, hrun, hrepresents.entries, hrepresents.consistent, hrepresents.inserts⟩

end Indexed

end ConstantTable

end ShaderLink
