/-
What a ceiling allows.

A chain of files has a ceiling, the lowest version declared along it.  A file
passes the check against it exactly when its version is at most that of each file
of the chain, files without a version aside.  So a ceiling may be forgotten once
the chain it belongs to is known.
-/
import Mathlib.Data.List.Induction
import ShaderLink.Link.Ceiling

namespace ShaderLink

/-- The version of a file is at most that of another, when both declare one. -/
def ShaderUnit.KeepsWithin (file other : ShaderUnit) : Prop :=
  ∀ m n, file.versionNumber? = some m → other.versionNumber? = some n → m ≤ n

namespace Ceiling

/-- The ceiling below a chain of files. -/
def ofChain (chain : List ShaderUnit) : Option Ceiling := chain.foldl tighten none

@[simp] theorem ofChain_nil : ofChain [] = none := rfl

theorem ofChain_append (chain : List ShaderUnit) (file : ShaderUnit) :
    ofChain (chain ++ [file]) = tighten (ofChain chain) file := by
  simp [ofChain]

/-- A file sets a ceiling by itself when its version has a number, which is then the ceiling's. -/
private theorem ofUnit?_map_number (file : ShaderUnit) :
    (ofUnit? file).map (·.number) = file.versionNumber? := by
  unfold ofUnit? ShaderUnit.versionNumber?
  cases file.version with
  | none => rfl
  | some version =>
      show ((versionNumber? version.value).bind fun number =>
        some (Ceiling.mk number version.value file.path)).map (·.number) = versionNumber? version.value
      cases versionNumber? version.value <;> rfl

private theorem ofUnit?_eq_none {file : ShaderUnit} (h : file.versionNumber? = none) :
    ofUnit? file = none := by
  rw [← ofUnit?_map_number] at h
  exact Option.map_eq_none_iff.mp h

private theorem ofUnit?_eq_some {file : ShaderUnit} {n : Nat} (h : file.versionNumber? = some n) :
    ∃ own, ofUnit? file = some own ∧ own.number = n := by
  rw [← ofUnit?_map_number] at h
  exact Option.map_eq_some_iff.mp h

/-- The ceiling is the number of some file of the chain and at most that of every one. -/
structure Lowest (chain : List ShaderUnit) (ceiling : Option Ceiling) : Prop where
  attained : ∀ c, ceiling = some c → ∃ file ∈ chain, file.versionNumber? = some c.number
  least : ∀ file ∈ chain, ∀ n, file.versionNumber? = some n → ∃ c, ceiling = some c ∧ c.number ≤ n

theorem lowest_tighten {chain : List ShaderUnit} {ceiling : Option Ceiling}
    (h : Lowest chain ceiling) (file : ShaderUnit) :
    Lowest (chain ++ [file]) (tighten ceiling file) := by
  have hold : ∀ c, ceiling = some c → ∃ other ∈ chain ++ [file], other.versionNumber? = some c.number := by
    intro c hc
    obtain ⟨other, hmem, hnum⟩ := h.attained c hc
    exact ⟨other, List.mem_append_left _ hmem, hnum⟩
  have hself : file ∈ chain ++ [file] := by simp
  cases hv : file.versionNumber? with
  | none =>
      have hkeep : tighten ceiling file = ceiling := by
        unfold tighten
        rw [ofUnit?_eq_none hv]
        cases ceiling <;> rfl
      rw [hkeep]
      refine ⟨hold, ?_⟩
      intro other hother n hn
      rcases List.mem_append.mp hother with hmem | hlast
      · exact h.least other hmem n hn
      · rw [List.mem_singleton.mp hlast, hv] at hn
        exact absurd hn (by simp)
  | some m =>
      obtain ⟨own, hown, hnum⟩ := ofUnit?_eq_some hv
      cases ceiling with
      | none =>
          have hnew : tighten none file = some own := by
            unfold tighten
            rw [hown]
          rw [hnew]
          refine ⟨?_, ?_⟩
          · intro c hc
            rw [← Option.some.inj hc, hnum]
            exact ⟨file, hself, hv⟩
          · intro other hother n hn
            rcases List.mem_append.mp hother with hmem | hlast
            · obtain ⟨c, hc, -⟩ := h.least other hmem n hn
              exact absurd hc (by simp)
            · rw [List.mem_singleton.mp hlast, hv, Option.some.injEq] at hn
              exact ⟨own, rfl, by omega⟩
      | some above =>
          have hlower : tighten (some above) file =
              some (if own.number < above.number then own else above) := by
            unfold tighten
            rw [hown]
          rw [hlower]
          refine ⟨?_, ?_⟩
          · intro c hc
            rw [Option.some.injEq] at hc
            by_cases hlt : own.number < above.number
            · rw [if_pos hlt] at hc
              rw [← hc, hnum]
              exact ⟨file, hself, hv⟩
            · rw [if_neg hlt] at hc
              exact hold c (by rw [hc])
          · intro other hother n hn
            refine ⟨_, rfl, ?_⟩
            rcases List.mem_append.mp hother with hmem | hlast
            · obtain ⟨c, hc, hle⟩ := h.least other hmem n hn
              rw [Option.some.injEq] at hc
              subst hc
              split <;> omega
            · rw [List.mem_singleton.mp hlast, hv, Option.some.injEq] at hn
              split <;> omega

theorem lowest_ofChain (chain : List ShaderUnit) : Lowest chain (ofChain chain) := by
  induction chain using List.reverseRecOn with
  | nil => exact ⟨by simp, by simp⟩
  | append_singleton chain file ih =>
      rw [ofChain_append]
      exact lowest_tighten ih file

/-- **Passing the check of a chain is keeping within each of its files.** -/
theorem check_ofChain_eq_ok_iff (chain : List ShaderUnit) (file : ShaderUnit) :
    check (ofChain chain) file = .ok () ↔ ∀ other ∈ chain, file.KeepsWithin other := by
  have low := lowest_ofChain chain
  cases hc : ofChain chain with
  | none =>
      refine ⟨fun _ other hother m n _ hn => ?_, fun _ => rfl⟩
      obtain ⟨c, hsome, -⟩ := low.least other hother n hn
      rw [hc] at hsome
      exact absurd hsome (by simp)
  | some above =>
      obtain ⟨lowest, hmem, hlow⟩ := low.attained above hc
      cases hv : file.versionNumber? with
      | none =>
          unfold check
          rw [ofUnit?_eq_none hv]
          refine ⟨fun _ other _ m n hm _ => ?_, fun _ => rfl⟩
          rw [hv] at hm
          exact absurd hm (by simp)
      | some m =>
          obtain ⟨own, hown, hnum⟩ := ofUnit?_eq_some hv
          unfold check
          rw [hown]
          show (if above.number < own.number then _ else _) = _ ↔ _
          constructor
          · intro h other hother m' n hm' hn
            obtain ⟨c, hsome, hle⟩ := low.least other hother n hn
            rw [hc, Option.some.injEq] at hsome
            rw [hv, Option.some.injEq] at hm'
            by_cases hlt : above.number < own.number
            · rw [if_pos hlt] at h
              exact absurd h (by simp)
            · subst hsome
              omega
          · intro h
            have hle := h lowest hmem m above.number hv hlow
            rw [if_neg (by omega)]

/-- A file fails the check when it stands above the ceiling, and both are told. -/
theorem check_eq_error_iff {ceiling : Option Ceiling} {file : ShaderUnit} {error : BuildError} :
    check ceiling file = .error error ↔
      ∃ above own, ceiling = some above ∧ ofUnit? file = some own ∧ above.number < own.number ∧
        error = .versionViolation own.path own.version above.path above.version := by
  unfold check
  cases ceiling with
  | none => simp
  | some above =>
      cases ofUnit? file with
      | none => simp
      | some own =>
          by_cases hlt : above.number < own.number
          · simp [hlt, eq_comm]
          · simp [hlt]

end Ceiling

end ShaderLink
