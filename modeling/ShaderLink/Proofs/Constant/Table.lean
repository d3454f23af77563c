/-
Tables of constants that are merged.

A constant of a name that is taken is refused.  So tables that are merged put no
constant in the place of another: what they hold is what all of them hold, one after
the other.  They cannot be merged when two of them have a name in common, and what is
told then is the first constant whose name was there before, with the one that had it.
-/
import ShaderLink.Constant.Table
import ShaderLink.Proofs.Outcome
import ShaderLink.Proofs.Table

namespace ShaderLink

namespace ConstantTable

variable {table result : ConstantTable} {c : Constant} {error : BuildError}

/-! ### Constants of new names -/

theorem insertUnique_eq_ok_iff :
    table.insertUnique c = .ok result ↔
      c.name ∉ table.names ∧ result.entries = table.entries ++ [c] := by
  unfold insertUnique
  cases hget : table.get? c.name with
  | some taken =>
      have htaken := Table.get?_eq_some_iff.mp hget
      have hname : c.name ∈ table.names := Table.mem_names_iff.mpr ⟨taken, htaken⟩
      simp [hname]
  | none =>
      have hname : c.name ∉ table.names := Table.get?_eq_none_iff.mp hget
      rw [← insertInto_of_notMem hname, Except.ok.injEq, and_iff_right hname]
      exact ⟨fun h => by rw [← h]; rfl, fun h => Table.ext h.symm⟩

theorem insertUnique_eq_error_iff :
    table.insertUnique c = .error error ↔
      ∃ taken ∈ table.entries, taken.name = c.name ∧ error = .duplicateConstant taken c := by
  unfold insertUnique
  cases hget : table.get? c.name with
  | some taken =>
      obtain ⟨htaken, hname⟩ := Table.get?_eq_some_iff.mp hget
      constructor
      · intro h
        exact ⟨taken, htaken, hname, (Except.error.inj h).symm⟩
      · rintro ⟨other, hother, hotherName, rfl⟩
        have hsame := Table.get?_eq_some_iff.mpr ⟨hother, hotherName⟩
        rw [Table.get?] at hget
        rw [Option.some.inj (hget.symm.trans hsame)]
  | none =>
      refine iff_of_false (by simp) ?_
      rintro ⟨other, hother, hotherName, -⟩
      exact Table.get?_eq_none_iff.mp hget (Table.mem_names_iff.mpr ⟨other, hother, hotherName⟩)

/-- Constants are inserted one after another as long as their names are new. -/
theorem foldlM_insertUnique_eq_ok_iff {constants : List Constant} :
    constants.foldlM insertUnique table = .ok result ↔
      ((table.entries ++ constants).map (·.name)).Nodup ∧
        result.entries = table.entries ++ constants := by
  induction constants generalizing table with
  | nil =>
      rw [List.append_nil, and_iff_right table.distinct]
      exact ⟨fun h => by rw [← Except.ok.inj h], fun h => congrArg Except.ok (Table.ext h.symm)⟩
  | cons c rest ih =>
      rw [foldlM_cons_eq_ok_iff]
      constructor
      · rintro ⟨next, hnext, hrest⟩
        obtain ⟨-, hentries⟩ := insertUnique_eq_ok_iff.mp hnext
        have hmore := ih.mp hrest
        rwa [hentries, List.append_assoc, List.singleton_append] at hmore
      · rintro ⟨hdistinct, hresult⟩
        have hnew : c.name ∉ table.names := Table.notMem_names_of_nodup hdistinct
        have hentries : (table.insert c).entries = table.entries ++ [c] :=
          insertInto_of_notMem hnew
        refine ⟨table.insert c, insertUnique_eq_ok_iff.mpr ⟨hnew, hentries⟩, ih.mpr ?_⟩
        rw [hentries, List.append_assoc, List.singleton_append]
        exact ⟨hdistinct, hresult⟩

/-- Constants are inserted one after another up to one whose name is there. -/
theorem foldlM_insertUnique_eq_error_iff {constants : List Constant} :
    constants.foldlM insertUnique table = .error error ↔
      ∃ first second before behind, constants = before ++ second :: behind ∧
        ((table.entries ++ before).map (·.name)).Nodup ∧ first ∈ table.entries ++ before ∧
        first.name = second.name ∧ error = .duplicateConstant first second := by
  induction constants generalizing table with
  | nil =>
      refine iff_of_false (by simp [pure, Except.pure]) ?_
      rintro ⟨first, second, before, behind, hsplit, -⟩
      exact absurd hsplit (by simp)
  | cons c rest ih =>
      rw [foldlM_cons_eq_error_iff]
      constructor
      · rintro (hstep | ⟨next, hnext, hrest⟩)
        · obtain ⟨taken, htaken, hname, rfl⟩ := insertUnique_eq_error_iff.mp hstep
          refine ⟨taken, c, [], rest, rfl, ?_, ?_, hname, rfl⟩
          · rw [List.append_nil]
            exact table.distinct
          · rwa [List.append_nil]
        · obtain ⟨-, hentries⟩ := insertUnique_eq_ok_iff.mp hnext
          obtain ⟨first, second, before, behind, rfl, hdistinct, hfirst, hname, rfl⟩ := ih.mp hrest
          rw [hentries, List.append_assoc] at hdistinct hfirst
          exact ⟨first, second, c :: before, behind, rfl, hdistinct, hfirst, hname, rfl⟩
      · rintro ⟨first, second, before, behind, hsplit, hdistinct, hfirst, hname, rfl⟩
        cases before with
        | nil =>
            obtain ⟨rfl, rfl⟩ := List.cons.inj hsplit
            rw [List.append_nil] at hfirst
            exact .inl (insertUnique_eq_error_iff.mpr ⟨first, hfirst, hname, rfl⟩)
        | cons d before =>
            obtain ⟨rfl, rfl⟩ := List.cons.inj hsplit
            have hnew : c.name ∉ table.names := Table.notMem_names_of_nodup hdistinct
            have hentries : (table.insert c).entries = table.entries ++ [c] :=
              insertInto_of_notMem hnew
            refine .inr ⟨table.insert c, insertUnique_eq_ok_iff.mpr ⟨hnew, hentries⟩, ih.mpr ?_⟩
            rw [List.append_cons, ← hentries] at hdistinct hfirst
            exact ⟨first, second, before, behind, rfl, hdistinct, hfirst, hname, rfl⟩

/-! ### Merged tables -/

/-- The second is the first of the constants whose name stands before it, and there the first has it. -/
def FirstRepeat (constants : List Constant) (first second : Constant) : Prop :=
  ∃ before behind, constants = before ++ second :: behind ∧ (before.map (·.name)).Nodup ∧
    first ∈ before ∧ first.name = second.name

/-- Names of tables are distinct when no two tables have one in common. -/
private theorem nodup_names_iff {tables : List ConstantTable} :
    ((tables.flatMap (·.entries)).map (·.name)).Nodup ↔
      tables.Pairwise fun a b => a.names.Disjoint b.names := by
  rw [List.map_flatMap, List.nodup_flatMap, and_iff_right fun table _ => table.distinct]
  exact Iff.rfl

theorem mergeAll_eq_ok_iff {tables : List ConstantTable} :
    mergeAll tables = .ok result ↔
      tables.Pairwise (fun a b => a.names.Disjoint b.names) ∧
        result.entries = tables.flatMap (·.entries) := by
  unfold mergeAll
  rw [foldlM_insertUnique_eq_ok_iff, ← nodup_names_iff]
  exact Iff.rfl

/-- **Merged tables hold all that the tables hold, in their order.** -/
theorem entries_of_mergeAll {tables : List ConstantTable} (h : mergeAll tables = .ok result) :
    result.entries = tables.flatMap (·.entries) :=
  (mergeAll_eq_ok_iff.mp h).2

theorem exists_mergeAll_iff {tables : List ConstantTable} :
    (∃ merged, mergeAll tables = .ok merged) ↔
      tables.Pairwise fun a b => a.names.Disjoint b.names := by
  constructor
  · rintro ⟨merged, hmerged⟩
    exact (mergeAll_eq_ok_iff.mp hmerged).1
  · intro hapart
    exact ⟨⟨_, nodup_names_iff.mpr hapart⟩, mergeAll_eq_ok_iff.mpr ⟨hapart, rfl⟩⟩

theorem mergeAll_eq_error_iff {tables : List ConstantTable} :
    mergeAll tables = .error error ↔
      ∃ first second, FirstRepeat (tables.flatMap (·.entries)) first second ∧
        error = .duplicateConstant first second := by
  unfold mergeAll
  rw [foldlM_insertUnique_eq_error_iff]
  simp only [FirstRepeat, Table.entries_empty, List.nil_append]
  refine exists_congr fun first => exists_congr fun second => ?_
  constructor
  · rintro ⟨before, behind, hsplit, hdistinct, hfirst, hname, rfl⟩
    exact ⟨⟨before, behind, hsplit, hdistinct, hfirst, hname⟩, rfl⟩
  · rintro ⟨⟨before, behind, hsplit, hdistinct, hfirst, hname⟩, rfl⟩
    exact ⟨before, behind, hsplit, hdistinct, hfirst, hname, rfl⟩

end ConstantTable

end ShaderLink
