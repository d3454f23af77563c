/-
The metadata that a unit takes from its file.

Of several versions, stages or precisions the last counts: the value that a unit has is
declared by a statement behind which no other declares one.  It is made of words of
that statement, so it stands on one line.
-/
import ShaderLink.Proofs.Unit.Tokens

namespace ShaderLink

namespace Statement

/-- A value that a statement declares, and none behind it declares another. -/
def LastDeclares {α : Type} (declared? : Statement → Option α) (statements : List Statement)
    (value : α) : Prop :=
  ∃ before s after, statements = before ++ s :: after ∧ declared? s = some value ∧
    ∀ later ∈ after, declared? later = none

theorem lastDeclares_of_getLast? {α : Type} {declared? : Statement → Option α}
    {statements : List Statement} {value : α}
    (h : (statements.filterMap declared?).getLast? = some value) :
    LastDeclares declared? statements value := by
  induction statements with
  | nil => exact absurd h (by simp)
  | cons s rest ih =>
      -- Either a later statement declares a value, or this one is the last that does.
      by_cases hrest : ∀ later ∈ rest, declared? later = none
      · have hnil : rest.filterMap declared? = [] := List.filterMap_eq_nil_iff.mpr hrest
        refine ⟨[], s, rest, rfl, ?_, hrest⟩
        cases hs : declared? s with
        | none => simp [hs, hnil] at h
        | some found => simpa [hs, hnil] using h
      · have hlast : (rest.filterMap declared?).getLast? = some value := by
          have hne : rest.filterMap declared? ≠ [] :=
            fun hnil => hrest (List.filterMap_eq_nil_iff.mp hnil)
          cases hs : declared? s with
          | none => simpa [hs] using h
          | some found =>
              rw [List.filterMap_cons_some hs, List.getLast?_cons_of_ne_nil hne] at h
              exact h
        obtain ⟨before, t, after, rfl, ht, hafter⟩ := ih hlast
        exact ⟨s :: before, t, after, rfl, ht, hafter⟩

variable {s : Statement} {declared : Declared String}

theorem oneLine_of_version? (h : s.version? = some declared)
    (words : ∀ token ∈ s.tokens, Text.OneLine token.text) : Text.OneLine declared.value := by
  cases s with
  | version keyword number profile =>
      have hnumber := words number (by simp [tokens])
      cases profile with
      | none =>
          rw [← Option.some.inj h]
          exact hnumber
      | some profile =>
          have hprofile := words profile (by simp [tokens])
          rw [← Option.some.inj h]
          exact (hnumber.append (by simp [Text.OneLine])).append hprofile
  | _ => exact absurd h (by simp [version?])

theorem oneLine_of_defaultPrecision? (h : s.defaultPrecision? = some declared)
    (words : ∀ token ∈ s.tokens, Text.OneLine token.text) : Text.OneLine declared.value := by
  cases s with
  | precision keyword qualifier type stop =>
      rw [defaultPrecision?] at h
      split at h
      · rw [← Option.some.inj h]
        exact words qualifier (by simp [tokens])
      · exact absurd h (by simp)
  | _ => exact absurd h (by simp [defaultPrecision?])

end Statement

end ShaderLink
