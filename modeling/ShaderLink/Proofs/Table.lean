/-
Tables after insertions.

An insertion puts its entry in the place of the one with its key, so a look-up finds what
was inserted last under a key, and as the keys are distinct it finds nothing else.

To merge a table with another is to insert the entries of the other in their order.  It
comes to the same whether an entry is inserted into the other first or into the merged
table last: where the other has the key already, the entry stands in its place in between,
and what is inserted behind it has other keys.  So entries may be gathered before they are
merged, and merging is associative, the order of the keys included, with the empty table on
both sides.
-/
import ShaderLink.Proofs.Lists
import ShaderLink.Table

namespace ShaderLink

section Insertion

variable {α : Type} {key : α → String} {x y : α} {xs : List α}

theorem insertInto_of_notMem (fresh : key x ∉ xs.map key) : insertInto key x xs = xs ++ [x] := by
  induction xs with
  | nil => rfl
  | cons z rest ih =>
      rw [List.map_cons, List.mem_cons, not_or] at fresh
      rw [insertInto, if_neg (Ne.symm fresh.1), ih fresh.2]
      rfl

/-- An insertion takes away only the entry of the same key. -/
theorem mem_insertInto (distinct : (xs.map key).Nodup) :
    y ∈ insertInto key x xs ↔ y = x ∨ (y ∈ xs ∧ key y ≠ key x) := by
  induction xs with
  | nil => simp [insertInto]
  | cons z rest ih =>
      rw [List.map_cons, List.nodup_cons] at distinct
      obtain ⟨hz, hrest⟩ := distinct
      by_cases hkey : key z = key x
      · rw [insertInto, if_pos hkey, List.mem_cons]
        refine or_congr Iff.rfl ⟨fun hy => ⟨List.mem_cons_of_mem _ hy, ?_⟩, ?_⟩
        · intro heq
          exact hz (List.mem_map.mpr ⟨y, hy, heq.trans hkey.symm⟩)
        · intro hy
          obtain ⟨hy, hne⟩ := hy
          rcases List.mem_cons.mp hy with rfl | hy
          · exact absurd hkey hne
          · exact hy
      · rw [insertInto, if_neg hkey, List.mem_cons, ih hrest]
        constructor
        · intro hy
          rcases hy with rfl | rfl | ⟨hy, hne⟩
          · exact Or.inr ⟨List.mem_cons_self .., hkey⟩
          · exact Or.inl rfl
          · exact Or.inr ⟨List.mem_cons_of_mem _ hy, hne⟩
        · intro hy
          rcases hy with rfl | ⟨hy, hne⟩
          · exact Or.inr (Or.inl rfl)
          · rcases List.mem_cons.mp hy with rfl | hy
            · exact Or.inl rfl
            · exact Or.inr (Or.inr ⟨hy, hne⟩)

/-- Of two entries of one key the later one stays. -/
private theorem insertInto_insertInto_of_key_eq (same : key x = key y) (xs : List α) :
    insertInto key y (insertInto key x xs) = insertInto key y xs := by
  induction xs with
  | nil => simp [insertInto, same]
  | cons z rest ih =>
      by_cases hz : key z = key x
      · simp [insertInto, hz, same]
      · have hother : key z ≠ key y := by rwa [← same]
        simp [insertInto, hz, hother, ih]

/-- An entry whose key is there already takes its place before or after another. -/
private theorem insertInto_comm (known : key x ∈ xs.map key) (ne : key y ≠ key x) :
    insertInto key x (insertInto key y xs) = insertInto key y (insertInto key x xs) := by
  induction xs with
  | nil => exact absurd known List.not_mem_nil
  | cons z rest ih =>
      by_cases hx : key z = key x
      · simp [insertInto, hx, ne.symm]
      · have hrest : key x ∈ rest.map key := by
          rw [List.map_cons, List.mem_cons] at known
          exact known.resolve_left (Ne.symm hx)
        by_cases hy : key z = key y
        · simp [insertInto, hy, ne]
        · simp [insertInto, hx, hy, ih hrest]

end Insertion

namespace Table

variable {α : Type} {key : α → String}

/-! ### Names and look-ups -/

theorem mem_names_iff {table : Table key} {name : String} :
    name ∈ table.names ↔ ∃ x ∈ table.entries, key x = name := by
  rw [names, List.mem_map]

theorem names_insert (table : Table key) (x : α) : (table.insert x).names =
    if key x ∈ table.names then table.names else table.names ++ [key x] :=
  keys_insertInto key x table.entries

theorem get?_eq_some_iff {table : Table key} {name : String} {x : α} :
    table.get? name = some x ↔ x ∈ table.entries ∧ key x = name :=
  find?_eq_some_iff_of_nodup table.distinct

theorem get?_eq_none_iff {table : Table key} {name : String} :
    table.get? name = none ↔ name ∉ table.names := by
  rw [get?, List.find?_eq_none, mem_names_iff]
  simp

theorem get?_insert (table : Table key) (x : α) (name : String) :
    (table.insert x).get? name = if key x = name then some x else table.get? name := by
  split
  · rename_i hkey
    rw [← hkey, get?_insert_self]
  · rename_i hkey
    exact get?_insert_of_ne table hkey

theorem get?_foldl_insert (entries : List α) (table : Table key) (name : String) :
    (entries.foldl insert table).get? name =
      (entries.reverse.find? (key · == name)).or (table.get? name) := by
  induction entries generalizing table with
  | nil => rfl
  | cons x rest ih =>
      rw [List.foldl_cons, ih, get?_insert, List.reverse_cons, List.find?_append, Option.or_assoc]
      by_cases hkey : key x = name
      · simp [hkey]
      · simp [hkey]

/-! ### Insertions one after another -/

private theorem insert_insert_of_key_eq (table : Table key) {x y : α} (same : key x = key y) :
    (table.insert x).insert y = table.insert y :=
  ext (insertInto_insertInto_of_key_eq same table.entries)

/-- A key stays when an entry is inserted. -/
private theorem mem_names_insert {table : Table key} {name : String} (x : α)
    (known : name ∈ table.names ∨ name = key x) : name ∈ (table.insert x).names := by
  rw [names_insert]
  split
  · rename_i hx
    rcases known with hname | rfl
    · exact hname
    · exact hx
  · rw [List.mem_append, List.mem_singleton]
    exact known

/-- An entry whose key is there already may be inserted before entries of other keys. -/
private theorem insert_foldl_insert {table : Table key} {x : α} {entries : List α}
    (known : key x ∈ table.names) (others : ∀ y ∈ entries, key y ≠ key x) :
    (entries.foldl insert table).insert x = entries.foldl insert (table.insert x) := by
  induction entries generalizing table with
  | nil => rfl
  | cons y rest ih =>
      obtain ⟨hy, hrest⟩ := List.forall_mem_cons.mp others
      have hswap : (table.insert y).insert x = (table.insert x).insert y :=
        ext (insertInto_comm known hy)
      rw [List.foldl_cons, List.foldl_cons, ih (mem_names_insert y (.inl known)) hrest, hswap]

/-- An entry behind those of a table has a new key when all keys are distinct. -/
theorem notMem_names_of_nodup {table : Table key} {x : α} {rest : List α}
    (distinct : ((table.entries ++ x :: rest).map key).Nodup) : key x ∉ table.names := by
  intro hx
  rw [List.map_append, List.nodup_append] at distinct
  exact distinct.2.2 _ hx _ (List.mem_map_of_mem (List.mem_cons_self ..)) rfl

/-- Entries of new keys are put at the end. -/
theorem entries_foldl_insert {table : Table key} {entries : List α}
    (distinct : ((table.entries ++ entries).map key).Nodup) :
    (entries.foldl insert table).entries = table.entries ++ entries := by
  induction entries generalizing table with
  | nil => exact (List.append_nil _).symm
  | cons x rest ih =>
      have hentries : (table.insert x).entries = table.entries ++ [x] :=
        insertInto_of_notMem (notMem_names_of_nodup distinct)
      have hnext : (((table.insert x).entries ++ rest).map key).Nodup := by
        rwa [hentries, List.append_assoc]
      rw [List.foldl_cons, ih hnext, hentries, List.append_assoc]
      rfl

/-! ### The laws of merging -/

/-- **An entry may be inserted into the other table first or into the merged table last.** -/
theorem merge_insert (table other : Table key) (x : α) :
    table.merge (other.insert x) = (table.merge other).insert x := by
  obtain ⟨entries, distinct⟩ := other
  show (insertInto key x entries).foldl insert table = (entries.foldl insert table).insert x
  induction entries generalizing table with
  | nil => rfl
  | cons y rest ih =>
      obtain ⟨hy, hrest⟩ := List.nodup_cons.mp distinct
      by_cases hkey : key y = key x
      · have hothers : ∀ z ∈ rest, key z ≠ key x := by
          intro z hz heq
          exact hy (List.mem_map.mpr ⟨z, hz, heq.trans hkey.symm⟩)
        rw [insertInto, if_pos hkey, List.foldl_cons, List.foldl_cons,
          insert_foldl_insert (mem_names_insert y (.inr hkey.symm)) hothers,
          insert_insert_of_key_eq table hkey]
      · rw [insertInto, if_neg hkey, List.foldl_cons, List.foldl_cons]
        exact ih (table.insert y) hrest

/-- Entries inserted behind a merged table may be inserted into the other table before. -/
theorem foldl_insert_merge (table other : Table key) (entries : List α) :
    entries.foldl insert (table.merge other) = table.merge (entries.foldl insert other) := by
  induction entries generalizing other with
  | nil => rfl
  | cons x rest ih => rw [List.foldl_cons, List.foldl_cons, ← merge_insert, ih]

theorem merge_assoc (first second third : Table key) :
    (first.merge second).merge third = first.merge (second.merge third) :=
  foldl_insert_merge first second third.entries

theorem get?_merge (table other : Table key) (name : String) :
    (table.merge other).get? name = (other.get? name).or (table.get? name) := by
  rw [merge, get?_foldl_insert, find?_reverse other.distinct]
  rfl

theorem merge_empty (table : Table key) : table.merge empty = table := rfl

theorem empty_merge (table : Table key) : empty.merge table = table :=
  ext (entries_foldl_insert table.distinct)

end Table

end ShaderLink
