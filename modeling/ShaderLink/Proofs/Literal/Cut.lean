/-
How code is cut into pieces.

`pieces` goes through the code and counts the characters that a lexeme already
covers.  `Cut` is the same without the count: a derivation has one step for every
piece, or for every lexeme that is no literal because something touches it on its
right.  The flag is all that the left neighbour matters for: whether a literal may
not begin here.

What is said of pieces is proved by induction on a cut, so no later proof counts.
-/
import ShaderLink.Proofs.Literal.Lexeme

namespace ShaderLink

namespace Literal

/-- Code and the pieces it is cut into, behind a character that a literal may touch or not. -/
inductive Cut : Bool → List Char → List Piece → Prop
  | nil (touching : Bool) : Cut touching [] []
  | verbatim {touching : Bool} {c : Char} {rest : List Char} {ps : List Piece}
      (starts : startsLexeme (c :: rest) = true → touching = true)
      (more : Cut (attaches (some c)) rest ps) : Cut touching (c :: rest) (.verbatim c :: ps)
  | literal {kind : ConstKind} {word tail : List Char} {ps : List Piece}
      (spans : Spans kind word tail) (free : attaches tail.head? = false)
      (more : Cut true tail ps) : Cut false (word ++ tail) (.literal kind word :: ps)
  | attached {kind : ConstKind} {word tail : List Char} {ps : List Piece}
      (spans : Spans kind word tail) (touched : attaches tail.head? = true)
      (more : Cut true tail ps) : Cut false (word ++ tail) (word.map .verbatim ++ ps)

variable {before : Option Char} {kind : ConstKind} {word tail : List Char}

/-! ### The steps of `pieces` -/

/-- Passing over a word leaves its last character on the left. -/
private theorem pieces_append (before : Option Char) (word tail : List Char) :
    pieces before word.length (word ++ tail) = pieces (word.getLast?.or before) 0 tail := by
  induction word generalizing before with
  | nil => rfl
  | cons c rest ih =>
      rw [List.cons_append, List.length_cons, pieces, ih, List.getLast?_cons]
      cases rest.getLast? with
      | none => rfl
      | some d => rfl

private theorem pieces_of_verbatim {c : Char} {rest : List Char}
    (starts : startsLexeme (c :: rest) = true → attaches before = true) :
    pieces before 0 (c :: rest) = .verbatim c :: pieces (some c) 0 rest := by
  rw [pieces, if_neg]
  intro h
  rw [Bool.and_eq_true] at h
  simp [starts h.1] at h

private theorem pieces_of_spans (spans : Spans kind word tail) (free : attaches before = false) :
    pieces before 0 (word ++ tail) =
      (if attaches tail.head? then word.map .verbatim else [.literal kind word]) ++
        pieces word.getLast? 0 tail := by
  have hstarts := spans.starts
  have hcovers := spans.covers
  obtain ⟨c, rest, rfl⟩ := List.exists_cons_of_ne_nil spans.ne_nil
  rw [List.cons_append] at hstarts hcovers ⊢
  rw [pieces, if_pos (by rw [hstarts, free]; rfl), hcovers]
  dsimp only
  rw [← List.cons_append, List.take_left, List.drop_left, List.length_cons, Nat.add_sub_cancel,
    pieces_append]
  have hlast : (c :: rest).getLast? = rest.getLast?.or (some c) := by
    rw [List.getLast?_cons]
    cases rest.getLast? with
    | none => rfl
    | some d => rfl
  rw [hlast]
  cases attaches tail.head? with
  | false => rfl
  | true => rfl

/-! ### Cutting is what `pieces` does -/

theorem cut_pieces (before : Option Char) (text : List Char) :
    Cut (attaches before) text (pieces before 0 text) := by
  -- A lexeme leaves a shorter text, so the induction is on the length.
  induction hn : text.length using Nat.strongRecOn generalizing before text with
  | ind n ih =>
      cases text with
      | nil =>
          rw [pieces]
          exact .nil _
      | cons c rest =>
          by_cases hlexeme : startsLexeme (c :: rest) = true ∧ attaches before = false
          · obtain ⟨hstarts, hfree⟩ := hlexeme
            have hspans := spans_lexeme hstarts
            generalize (lexeme (c :: rest)).1 = kind at hspans
            have hsplit := List.take_append_drop (lexeme (c :: rest)).2 (c :: rest)
            generalize List.take (lexeme (c :: rest)).2 (c :: rest) = word at hspans hsplit
            generalize List.drop (lexeme (c :: rest)).2 (c :: rest) = tail at hspans hsplit
            rw [← hsplit, pieces_of_spans hspans hfree, hfree]
            have hpos := List.length_pos_iff.mpr hspans.ne_nil
            have hlength := congrArg List.length hsplit
            rw [List.length_append] at hlength
            have hmore := ih tail.length (by omega) word.getLast? tail rfl
            rw [hspans.attaches_getLast?] at hmore
            cases htouched : attaches tail.head? with
            | false => exact .literal hspans htouched hmore
            | true => exact .attached hspans htouched hmore
          · have hstarts : startsLexeme (c :: rest) = true → attaches before = true := by
              intro hstarts
              rw [← Bool.not_eq_false]
              exact fun hfree => hlexeme ⟨hstarts, hfree⟩
            rw [pieces_of_verbatim hstarts]
            exact .verbatim hstarts (ih rest.length (by simp [← hn]) (some c) rest rfl)

theorem Cut.eq_pieces {touching : Bool} {text : List Char} {ps : List Piece}
    (cut : Cut touching text ps) (hbefore : attaches before = touching) :
    pieces before 0 text = ps := by
  induction cut generalizing before with
  | nil touching => rfl
  | verbatim starts more ih =>
      rw [pieces_of_verbatim (hbefore ▸ starts), ih rfl]
  | literal spans free more ih =>
      rw [pieces_of_spans spans hbefore, free, ih spans.attaches_getLast?]
      rfl
  | attached spans touched more ih =>
      rw [pieces_of_spans spans hbefore, touched, ih spans.attaches_getLast?]
      rfl

/-- **Code is cut into its pieces and in no other way.** -/
theorem cut_iff {text : List Char} {ps : List Piece} :
    Cut (attaches before) text ps ↔ pieces before 0 text = ps := by
  constructor
  · intro cut
    exact cut.eq_pieces rfl
  · rintro rfl
    exact cut_pieces before text

namespace Cut

variable {touching : Bool} {text : List Char} {ps : List Piece}

/-- No literal begins behind a character that it may not touch. -/
theorem of_touching {c : Char} {rest : List Char} (cut : Cut true (c :: rest) ps) :
    ∃ qs, ps = .verbatim c :: qs ∧ Cut (attaches (some c)) rest qs := by
  cases cut with
  | verbatim starts more => exact ⟨_, rfl, more⟩

/-- Characters that attach are pieces of their own behind one that does. -/
theorem append_attached {word : List Char} (attached : ∀ c ∈ word, attaches (some c) = true)
    (cut : Cut true text ps) : Cut true (word ++ text) (word.map .verbatim ++ ps) := by
  induction word with
  | nil => exact cut
  | cons c rest ih =>
      refine .verbatim (fun _ => rfl) ?_
      rw [attached c (List.mem_cons_self ..)]
      exact ih fun d hd => attached d (List.mem_cons_of_mem _ hd)

end Cut

end Literal

end ShaderLink
