/-
The names of added constants.

A fresh name is the first candidate that is not taken: the candidates are distinct,
and there is one more of them than names are taken.  It is an identifier too, since the
spelling of a number becomes word characters and the ending holds nothing else.
-/
import ShaderLink.Proofs.Literal.Replacing
import ShaderLink.Proofs.Number.Spelling
import ShaderLink.Literal.Sharing

namespace ShaderLink

namespace Literal

/-! ### Fresh names are fresh -/

private theorem candidate_succ_ne (base : String) (k : Nat) : candidate base (k + 1) ≠ base := by
  intro h
  have hlength := congrArg (fun name => name.toList.length) h
  simp only [candidate, String.toList_append, List.length_append] at hlength
  have hmark : "_".toList.length = 1 := rfl
  omega

/-- The number in the ending is read back from it. -/
theorem candidate_injective (base : String) {i j : Nat}
    (h : candidate base i = candidate base j) : i = j := by
  match i, j with
  | 0, 0 => rfl
  | 0, j + 1 => exact absurd h.symm (candidate_succ_ne base j)
  | i + 1, 0 => exact absurd h (candidate_succ_ne base i)
  | i + 1, j + 1 =>
      have hlist := congrArg String.toList h
      simp only [candidate, String.toList_append] at hlist
      have hdigits := List.append_cancel_left hlist
      have hnumber := congrArg (fun digits => Nat.ofDigitChars 10 digits 0) hdigits
      simpa [Nat.toString_eq_ofList_toDigits] using hnumber

/-- Candidates that are all taken are no more than there are taken names. -/
theorem le_length_of_taken {taken : List String} {base : String} {k : Nat}
    (h : ∀ j < k, candidate base j ∈ taken) : k ≤ taken.length := by
  have hall : (List.range k).map (candidate base) ⊆ taken := by
    intro name hname
    obtain ⟨j, hj, rfl⟩ := List.mem_map.mp hname
    exact h j (List.mem_range.mp hj)
  have hdistinct : ((List.range k).map (candidate base)).Nodup :=
    List.Pairwise.map _ (fun i j hne h => hne (candidate_injective base h)) List.nodup_range
  have hlength := hdistinct.length_le_of_subset hall
  rwa [List.length_map, List.length_range] at hlength

/-- **A fresh name is the first candidate that is not taken.** -/
theorem exists_freshName (taken : List String) (base : String) :
    ∃ k, freshName taken base = candidate base k ∧ candidate base k ∉ taken ∧
      ∀ j < k, candidate base j ∈ taken := by
  unfold freshName
  dsimp only
  cases hfree : (List.range (taken.length + 1)).find?
      fun k => !taken.contains (candidate base k) with
  | some k =>
      obtain ⟨hk, -, hbefore⟩ := List.find?_range_eq_some.mp hfree
      refine ⟨k, rfl, by simpa using hk, ?_⟩
      intro j hj
      simpa using hbefore j hj
  | none =>
      -- All candidates would be taken, more of them than names are.
      exfalso
      have hlength : taken.length + 1 ≤ taken.length := by
        have htaken : ∀ k < taken.length + 1, candidate base k ∈ taken := by
          intro k hk
          simpa using List.find?_eq_none.mp hfree k (List.mem_range.mpr hk)
        exact le_length_of_taken htaken
      omega

theorem freshName_eq {taken : List String} {base : String} {k : Nat}
    (free : candidate base k ∉ taken) (before : ∀ j < k, candidate base j ∈ taken) :
    freshName taken base = candidate base k := by
  obtain ⟨i, hname, hfree, hbefore⟩ := exists_freshName taken base
  have hle : i ≤ k := Nat.le_of_not_lt fun hlt => free (hbefore k hlt)
  have hge : k ≤ i := Nat.le_of_not_lt fun hlt => hfree (before i hlt)
  rw [hname, Nat.le_antisymm hle hge]

theorem freshName_notMem (taken : List String) (base : String) : freshName taken base ∉ taken := by
  obtain ⟨k, hname, hfree, -⟩ := exists_freshName taken base
  rw [hname]
  exact hfree

/-- Names that are no candidates make no difference. -/
theorem freshName_append {taken more : List String} {base : String}
    (away : ∀ k, candidate base k ∉ more) :
    freshName (taken ++ more) base = freshName taken base := by
  obtain ⟨k, hname, hfree, hbefore⟩ := exists_freshName taken base
  rw [hname]
  refine freshName_eq ?_ fun j hj => List.mem_append_left _ (hbefore j hj)
  intro hmem
  rcases List.mem_append.mp hmem with htaken | hmore
  · exact hfree htaken
  · exact away k hmore

/-! ### Fresh names are identifiers -/

private theorem isIdentifier_append {name more : List Char} (h : Text.isIdentifier name = true)
    (hmore : ∀ c ∈ more, Text.isPlainWordChar c = true) :
    Text.isIdentifier (name ++ more) = true := by
  cases name with
  | nil => exact absurd h (by simp [Text.isIdentifier])
  | cons c rest =>
      rw [Text.isIdentifier, Bool.and_eq_true] at h
      rw [List.cons_append, Text.isIdentifier, List.all_append, h.1, h.2,
        List.all_eq_true.mpr hmore]
      rfl

private theorem isIdentifier_candidate {base : String} (h : Text.isIdentifier base.toList = true)
    (k : Nat) : Text.isIdentifier (candidate base k).toList = true := by
  cases k with
  | zero => exact h
  | succ k =>
      rw [candidate, String.toList_append, String.toList_append]
      refine isIdentifier_append (isIdentifier_append h (List.all_eq_true.mp rfl)) ?_
      intro c hc
      exact Text.isPlainWordChar_of_isDigit (Text.isDigit_of_mem_nat hc)

private theorem isPlainWordChar_of_mem_nameText {text : String} {c : Char}
    (h : ∀ d ∈ text.toList, Text.isNumberChar d = true) (hc : c ∈ (nameText text).toList) :
    Text.isPlainWordChar c = true := by
  rw [nameText, String.toList_ofList] at hc
  obtain ⟨d, hd, hc⟩ := List.mem_flatMap.mp hc
  have hnumber := h d hd
  split at hc
  · have hneg : ∀ c ∈ ['n', 'e', 'g'], Text.isPlainWordChar c = true := List.all_eq_true.mp rfl
    exact hneg c hc
  · split at hc
    · rw [List.mem_singleton.mp hc]
      rfl
    · rename_i hminus hpoint
      rw [List.mem_singleton.mp hc]
      simpa [Text.isNumberChar, hminus, hpoint] using hnumber

private theorem isNumberChar_of_mem_text {kind : ConstKind} {text : List Char} {value : ConstValue}
    (h : value? kind text = some value) {c : Char} (hc : c ∈ value.text.toList) :
    Text.isNumberChar c = true := by
  cases kind with
  | int =>
      obtain ⟨i, -, rfl⟩ := Option.map_eq_some_iff.mp h
      exact Text.isNumberChar_of_isNumeralChar (Text.isNumeralChar_of_mem_int hc)
  | float =>
      obtain ⟨x, -, rfl⟩ := Option.map_eq_some_iff.mp h
      exact Binary32.isNumberChar_of_mem_toText hc

/-- **The name of an added constant is an identifier.** -/
theorem isIdentifier_added {kind : ConstKind} {text : List Char} {value : ConstValue}
    (h : value? kind text = some value) (constants : List Constant) :
    Text.isIdentifier (added constants kind value).name.toList = true := by
  have hbase : Text.isIdentifier (baseName kind value).toList = true := by
    have hword (c : Char) (hc : c ∈ (nameText value.text).toList) :
        Text.isPlainWordChar c = true :=
      isPlainWordChar_of_mem_nameText (fun d hd => isNumberChar_of_mem_text h hd) hc
    cases kind with
    | int =>
        rw [baseName, String.toList_append]
        exact isIdentifier_append rfl hword
    | float =>
        rw [baseName, String.toList_append]
        exact isIdentifier_append rfl hword
  show Text.isIdentifier (freshName _ _).toList = true
  unfold freshName
  exact isIdentifier_candidate hbase _

end Literal

end ShaderLink
