/-
Code whose literals are all settled.

A literal is settled when its value is out of range, so that no constant can take its
place.  Settled code is left alone: sharing replaces nothing in it and adds no
constant, whatever the constants are.

Sharing settles code.  What it gives a name is no literal any more, and with
identifiers for names nothing new becomes one, so the literals left are those that no
constant holds; and every value in range has a constant in the end.
-/
import ShaderLink.Proofs.Literal.Sharing

namespace ShaderLink

namespace Literal

variable {constants : List Constant} {kind : ConstKind} {code text : List Char} {ps : List Piece}

/-- Every literal of the code is out of range. -/
def Settled (code : List Char) : Prop :=
  ∀ kind text, .literal kind text ∈ pieces none 0 code → value? kind text = none

/-! ### Settled code is left alone -/

private theorem sharePieces_of_settled
    (settled : ∀ kind text, .literal kind text ∈ ps → value? kind text = none) :
    sharePieces kind constants ps = (ps.flatMap Piece.text, constants) := by
  induction ps with
  | nil => rfl
  | cons piece rest ih =>
      have hpiece : sharePiece kind constants piece = (piece.text, constants) := by
        cases piece with
        | verbatim c => rfl
        | literal found text =>
            have hnone : (if found = kind then value? kind text else none) = none := by
              split
              · rename_i hfound
                rw [← hfound]
                exact settled found text (List.mem_cons_self ..)
              · rfl
            rw [sharePiece, hnone]
            rfl
      rw [sharePieces, hpiece]
      dsimp only
      rw [ih fun found text hmem => settled found text (List.mem_cons_of_mem _ hmem)]
      rfl

theorem Settled.shareKind (settled : Settled code) (kind : ConstKind) (constants : List Constant) :
    shareKind kind constants code = (code, constants) := by
  have htexts : (pieces none 0 code).flatMap Piece.text = code := flatMap_text_pieces none 0 code
  rw [Literal.shareKind, sharePieces_of_settled settled, htexts]

theorem Settled.share (settled : Settled code) (constants : List Constant) :
    share constants code = (code, constants) := by
  rw [Literal.share, settled.shareKind]
  exact settled.shareKind .float constants

/-! ### Sharing settles code -/

/-- A literal that remains is one that the rule gives no name. -/
private theorem mem_of_mem_remains {rule : Rule}
    (hmem : .literal kind text ∈ ps.flatMap (Piece.remains rule)) :
    .literal kind text ∈ ps ∧ rule kind text = none := by
  obtain ⟨piece, hpiece, hmem⟩ := List.mem_flatMap.mp hmem
  cases piece with
  | verbatim c => exact absurd hmem (by simp [Piece.remains])
  | literal found word =>
      rw [Piece.remains] at hmem
      cases hname : rule found word with
      | some name =>
          rw [hname] at hmem
          exact absurd hmem (by simp)
      | none =>
          rw [hname] at hmem
          obtain ⟨rfl, rfl⟩ := Piece.literal.inj (List.mem_singleton.mp hmem)
          exact ⟨hpiece, hname⟩

theorem settled_share (named : Named constants) (code : List Char) :
    Settled (share constants code).1 := by
  intro kind text hmem
  have hnamed := (grows_share constants code).named named
  rw [share_fst, hnamed.imageBy, pieces_replace hnamed.byConstants] at hmem
  obtain ⟨horiginal, hnone⟩ := mem_of_mem_remains hmem
  cases hvalue : value? kind text with
  | none => rfl
  | some value =>
      obtain ⟨name, hname⟩ := nameOf?_share named horiginal hvalue
      rw [byConstants_of_nameOf? hvalue hname] at hnone
      exact absurd hnone (by simp)

end Literal

end ShaderLink
