/-
Sharing the literals of a body twice.

A body whose literals have been shared is settled as one text, and its lines fit that
text again.  So to share it once more with the constants of the first time gives the
same constants and the same lines.
-/
import ShaderLink.Proofs.Literal.Settled
import ShaderLink.Proofs.Program.Body

namespace ShaderLink

namespace Body

open Literal (Named Settled imageBy)

variable {constants : List Constant} {body : List OutputLine}

/-- A settled body is left alone. -/
theorem share_of_settled (texts : ∀ line ∈ body, Text.OneLine line.text)
    (settled : Settled (code body)) : share constants body = (constants, body) := by
  by_cases hbody : body = []
  · rw [share, if_pos hbody, hbody]
  · have hfields : Text.fields (· == '\n') (code body) = body.map (·.text.toList) := by
      refine Text.fields_joinWith (by simpa using hbody) ?_
      intro text htext
      obtain ⟨line, hline, rfl⟩ := List.mem_map.mp htext
      exact texts line hline
    rw [share, if_neg hbody]
    show ((Literal.share constants (code body)).2, body.zipWith _ (Text.fields (· == '\n')
      (Literal.share constants (code body)).1)) = _
    rw [settled.share]
    dsimp only
    rw [hfields, List.zipWith_map_right, List.zipWith_self]
    simp

/-- The lines of a shared body are those of the shared text. -/
private theorem code_share (texts : ∀ line ∈ body, Text.OneLine line.text)
    (names : ∀ c ∈ (share constants body).1, c.value.kind?.isSome = true → Text.OneLine c.name) :
    code (share constants body).2 = (Literal.share constants (code body)).1 := by
  rw [share_snd texts names, Literal.share_fst, ← share_fst, code, List.map_map, code,
    Literal.imageBy_joinWith, List.map_map]
  refine congrArg _ (List.map_congr_left ?_)
  intro line _
  exact String.toList_ofList

/-- **A shared body is shared once and for all.** -/
theorem share_share (named : Named constants) (texts : ∀ line ∈ body, Text.OneLine line.text) :
    share (share constants body).1 (share constants body).2 = share constants body := by
  have hnames : ∀ c ∈ (share constants body).1,
      c.value.kind?.isSome = true → Text.OneLine c.name := by
    rw [share_fst]
    exact ((Literal.grows_share constants (code body)).named named).oneLine
  have hlines : ∀ line ∈ (share constants body).2, Text.OneLine line.text := by
    rw [share_snd texts hnames]
    intro line hline
    obtain ⟨source, hsource, rfl⟩ := List.mem_map.mp hline
    show '\n' ∉ (String.ofList _).toList
    rw [String.toList_ofList]
    exact Literal.newline_notMem_imageBy hnames (texts source hsource)
  have hsettled : Settled (code (share constants body).2) := by
    rw [code_share texts hnames]
    exact Literal.settled_share named (code body)
  exact share_of_settled hlines hsettled

/-- Two constants, one of them an expression whose name is no identifier, and two lines with
literals that have a constant, literals that have none yet, and one out of range. -/
def resharing : List Constant × List OutputLine :=
  ([⟨"HALF", .float, .float ⟨0x3F000000⟩, "a", some 1⟩, ⟨"4", .int, .expr "HALF*2", "a", some 2⟩],
    [⟨⟨"a", some 3⟩, "float a = 0.5 * 2.0 + 1.0e-3 ;"⟩,
      ⟨⟨"a", some 4⟩, "int b = 2 + 9223372036854775808 ;"⟩])

/-- The literals of the lines get their names the first time, and nothing happens the second. -/
theorem share_resharing :
    ((share resharing.1 resharing.2).2.map (·.text) =
        ["float a = HALF * F_2_0 + F_0_001 ;", "int b = I_2 + 9223372036854775808 ;"]) ∧
      share (share resharing.1 resharing.2).1 (share resharing.1 resharing.2).2 =
        share resharing.1 resharing.2 :=
  ⟨by decide +kernel, share_share (by decide +kernel) (by unfold Text.OneLine; decide +kernel)⟩

end Body

end ShaderLink
