/-
Replacing literals by names.

A rule says which literals are replaced, and by what.  When every name it gives is
an identifier, the code that comes out is cut where the code that went in was: what
was replaced has become characters that belong to no literal, and every other piece
is still there.  So a second replacement sees the literals that the first one left,
and two of them one after the other are a single one.

A line break ends every piece, so code is replaced line by line.
-/
import ShaderLink.Proofs.Literal.Cut
import ShaderLink.Proofs.Text.Fields

namespace ShaderLink

/-- A letter or the underscore, and then letters, underscores and digits, all of them ASCII. -/
def Text.isIdentifier : List Char → Bool
  | [] => false
  | c :: rest => (c.isAlpha || c == '_') && rest.all isPlainWordChar

namespace Literal

/-- The name that a literal of a kind and a text is replaced by, if it is. -/
abbrev Rule := ConstKind → List Char → Option (List Char)

/-- Every name that the rule gives is an identifier. -/
def Rule.Names (rule : Rule) : Prop :=
  ∀ kind text name, rule kind text = some name → Text.isIdentifier name = true

/-- The rule that asks a second one where the first gives no name. -/
def Rule.or (first second : Rule) : Rule := fun kind text => (first kind text).or (second kind text)

/-- The code that a piece becomes. -/
def Piece.image (rule : Rule) : Piece → List Char
  | .verbatim c => [c]
  | .literal kind text => (rule kind text).getD text

/-- The pieces of that code: a name is no literal any more. -/
def Piece.remains (rule : Rule) : Piece → List Piece
  | .verbatim c => [.verbatim c]
  | .literal kind text =>
    match rule kind text with
    | some name => name.map .verbatim
    | none => [.literal kind text]

def replace (rule : Rule) (code : List Char) : List Char :=
  (pieces none 0 code).flatMap (Piece.image rule)

variable {rule : Rule} {touching : Bool} {text : List Char} {ps : List Piece}

@[simp] theorem image_verbatim (c : Char) : Piece.image rule (.verbatim c) = [c] := rfl

@[simp] theorem flatMap_image_verbatim (word : List Char) :
    (word.map Piece.verbatim).flatMap (Piece.image rule) = word := by
  induction word with
  | nil => rfl
  | cons c rest ih => simp [ih]

@[simp] theorem flatMap_remains_verbatim (word : List Char) :
    (word.map Piece.verbatim).flatMap (Piece.remains rule) = word.map .verbatim := by
  induction word with
  | nil => rfl
  | cons c rest ih => simp [ih, Piece.remains]

/-! ### Names begin nothing -/

private theorem isDigit_of_isAlpha {c : Char} (h : c.isAlpha = true) : c.isDigit = false := by
  rw [← Bool.not_eq_true, Char.isDigit_iff_toNat]
  intro hbounds
  obtain ⟨-, hle⟩ := hbounds
  have hge : 65 ≤ c.toNat := by
    have hcase : (c.isUpper || c.isLower) = true := h
    rcases Bool.or_eq_true_iff.mp hcase with hupper | hlower
    · obtain ⟨hfrom, -⟩ : 'A'.val ≤ c.val ∧ c.val ≤ 'Z'.val := of_decide_eq_true hupper
      exact UInt32.le_iff_toNat_le.mp hfrom
    · obtain ⟨hfrom, -⟩ := Bool.and_eq_true_iff.mp hlower
      have hfrom : 'a'.val ≤ c.val := of_decide_eq_true hfrom
      exact Nat.le_trans (by simp) (UInt32.le_iff_toNat_le.mp hfrom)
  have hnine : '9'.toNat = 57 := rfl
  omega

theorem exists_of_isIdentifier {name : List Char} (h : Text.isIdentifier name = true) :
    ∃ c rest, name = c :: rest ∧ c.isDigit = false ∧ c ≠ '.' ∧
      ∀ d ∈ name, attaches (some d) = true := by
  cases name with
  | nil => exact absurd h (by simp [Text.isIdentifier])
  | cons c rest =>
      rw [Text.isIdentifier, Bool.and_eq_true, Bool.or_eq_true, beq_iff_eq] at h
      obtain ⟨hfirst, hrest⟩ := h
      refine ⟨c, rest, rfl, ?_, ?_, ?_⟩
      · rcases hfirst with halpha | rfl
        · exact isDigit_of_isAlpha halpha
        · rfl
      · rintro rfl
        exact absurd hfirst (by decide)
      · intro d hd
        have hword : Text.isPlainWordChar d = true := by
          rcases List.mem_cons.mp hd with rfl | hd
          · rcases hfirst with halpha | rfl
            · simp [Text.isPlainWordChar, Char.isAlphanum, halpha]
            · rfl
          · exact List.all_eq_true.mp hrest d hd
        simp [attaches, hword]

private theorem Cut.append_name {name : List Char} (h : Text.isIdentifier name = true)
    (cut : Cut true text ps) : Cut touching (name ++ text) (name.map .verbatim ++ ps) := by
  obtain ⟨c, rest, rfl, hdigit, hpoint, hattached⟩ := exists_of_isIdentifier h
  refine .verbatim ?_ ?_
  · intro hstarts
    rw [List.append_eq, startsLexeme_cons hpoint] at hstarts
    exact absurd hstarts (by simp [hdigit])
  · rw [hattached c (List.mem_cons_self ..)]
    exact .append_attached (fun d hd => hattached d (List.mem_cons_of_mem _ hd)) cut

/-! ### What a lexeme sees of the code behind it -/

private theorem digitsBehindSign_eq_zero_iff {text : List Char} :
    digitsBehindSign text = 0 ↔ (text.drop (signLength text)).head?.any Char.isDigit = false := by
  unfold digitsBehindSign
  cases text.drop (signLength text) with
  | nil => simp
  | cons c rest => by_cases hc : c.isDigit = true <;> simp [hc]

/-- Behind one letter, code is no exponent when other code is none that has the same sign, or no
sign either, and no digit where that has none. -/
private theorem exponentLength_cons_eq_zero {c : Char} {rest other : List Char}
    (sign : signLength other = signLength rest)
    (digit : (c = 'e' ∨ c = 'E') → (other.drop (signLength rest)).head?.any Char.isDigit = true →
      (rest.drop (signLength rest)).head?.any Char.isDigit = true)
    (none : exponentLength (c :: rest) = 0) : exponentLength (c :: other) = 0 := by
  rw [exponentLength_cons] at none ⊢
  rw [if_neg]
  intro hexponent
  obtain ⟨hletter, hdigits⟩ := hexponent
  rw [Ne, digitsBehindSign_eq_zero_iff, sign, Bool.not_eq_false] at hdigits
  have hbehind : digitsBehindSign rest ≠ 0 := by
    rw [Ne, digitsBehindSign_eq_zero_iff, Bool.not_eq_false]
    exact digit hletter hdigits
  rw [if_pos ⟨hletter, hbehind⟩] at none
  omega

private theorem signLength_congr {c : Char} (rest other : List Char) :
    signLength (c :: other) = signLength (c :: rest) := by
  rw [signLength_cons, signLength_cons]

namespace Cut

/-- Replaced code begins with a digit only where the code did. -/
private theorem head?_image (names : rule.Names) (cut : Cut touching text ps)
    (h : (ps.flatMap (Piece.image rule)).head?.any Char.isDigit = true) :
    text.head?.any Char.isDigit = true := by
  cases cut with
  | nil => exact h
  | verbatim starts more => exact h
  | literal spans free more =>
      rename_i kind word tail qs
      rw [List.flatMap_cons, Piece.image] at h
      obtain ⟨d, rest, rfl⟩ := List.exists_cons_of_ne_nil spans.ne_nil
      cases hname : rule kind (d :: rest) with
      | none =>
          rw [hname] at h
          exact h
      | some name =>
          obtain ⟨c, more, rfl, hdigit, -, -⟩ := exists_of_isIdentifier (names _ _ _ hname)
          rw [hname] at h
          simp [hdigit] at h
  | attached spans touched more =>
      obtain ⟨d, rest, rfl⟩ := List.exists_cons_of_ne_nil spans.ne_nil
      rw [List.flatMap_append, flatMap_image_verbatim] at h
      exact h

private theorem head?_image_of_touching (cut : Cut true text ps) :
    (ps.flatMap (Piece.image rule)).head? = text.head? := by
  cases cut with
  | nil => rfl
  | verbatim starts more => rfl

/-- No exponent comes about where there was none. -/
private theorem exponentLength_image (names : rule.Names) (cut : Cut true text ps)
    (h : exponentLength text = 0) : exponentLength (ps.flatMap (Piece.image rule)) = 0 := by
  cases text with
  | nil =>
      cases cut with
      | nil => rfl
  | cons c rest =>
      obtain ⟨qs, rfl, hrest⟩ := cut.of_touching
      rw [List.flatMap_cons, image_verbatim, List.singleton_append]
      by_cases hletter : c = 'e' ∨ c = 'E'
      · -- The letter attaches, so what follows it stays, be it a sign or not.
        have hattached : attaches (some c) = true := by
          rcases hletter with rfl | rfl <;> rfl
        rw [hattached] at hrest
        cases rest with
        | nil =>
            cases hrest with
            | nil => exact h
        | cons d more =>
            obtain ⟨qs, rfl, hmore⟩ := hrest.of_touching
            rw [List.flatMap_cons, image_verbatim, List.singleton_append]
            refine exponentLength_cons_eq_zero (signLength_congr ..) (fun _ => ?_) h
            rw [signLength_cons]
            split
            · exact hmore.head?_image names
            · exact id
      · rw [exponentLength_cons, if_neg fun hc => hletter hc.1]

private theorem boundsAlike_image (names : rule.Names) (cut : Cut true text ps) :
    BoundsAlike text (ps.flatMap (Piece.image rule)) := by
  refine ⟨?_, ?_, cut.exponentLength_image names⟩
  · rw [cut.head?_image_of_touching]
  · rw [cut.head?_image_of_touching]

/-- **Replaced code is cut into what remains of the pieces.** -/
theorem image (names : rule.Names) (cut : Cut touching text ps) :
    Cut touching (ps.flatMap (Piece.image rule)) (ps.flatMap (Piece.remains rule)) := by
  induction cut with
  | nil touching => exact .nil touching
  | verbatim starts more ih =>
      rename_i touching c rest qs
      rw [List.flatMap_cons, List.flatMap_cons, image_verbatim, Piece.remains]
      refine .verbatim (fun hstarts => starts ?_) ih
      -- A point begins a lexeme only before a digit, and no digit is new.
      by_cases hpoint : c = '.'
      · subst hpoint
        exact more.head?_image names hstarts
      · rw [startsLexeme_cons hpoint] at hstarts ⊢
        exact hstarts
  | literal spans free more ih =>
      rename_i kind word tail qs
      rw [List.flatMap_cons, List.flatMap_cons, Piece.image, Piece.remains]
      cases hname : rule kind word with
      | some name => exact ih.append_name (names kind word name hname)
      | none =>
          refine .literal (spans.of_boundsAlike (more.boundsAlike_image names)) ?_ ih
          rw [more.head?_image_of_touching]
          exact free
  | attached spans touched more ih =>
      rename_i kind word tail qs
      rw [List.flatMap_append, List.flatMap_append, flatMap_image_verbatim,
        flatMap_remains_verbatim]
      refine .attached (spans.of_boundsAlike (more.boundsAlike_image names)) ?_ ih
      rw [more.head?_image_of_touching]
      exact touched

end Cut

theorem pieces_replace (names : rule.Names) (code : List Char) :
    pieces none 0 (replace rule code) = (pieces none 0 code).flatMap (Piece.remains rule) :=
  cut_iff.mp ((cut_pieces none code).image names)

/-- **Two replacements are one by both rules, the first of which gives identifiers.** -/
theorem replace_replace {first : Rule} (names : first.Names) (second : Rule) (code : List Char) :
    replace second (replace first code) = replace (first.or second) code := by
  have hpiece (piece : Piece) : (piece.remains first).flatMap (Piece.image second) =
      piece.image (first.or second) := by
    cases piece with
    | verbatim c => rfl
    | literal kind text =>
        rw [Piece.remains, Piece.image, Rule.or]
        cases first kind text with
        | some name => simp
        | none => simp [Piece.image]
  rw [replace, pieces_replace names, List.flatMap_assoc, funext hpiece]
  rfl

theorem mem_replace {code : List Char} {c : Char} (h : c ∈ replace rule code) :
    c ∈ code ∨ ∃ kind text name, rule kind text = some name ∧ c ∈ name := by
  obtain ⟨piece, hpiece, hc⟩ := List.mem_flatMap.mp h
  have hcode (hmem : c ∈ piece.text) : c ∈ code := by
    have hall := List.mem_flatMap.mpr ⟨piece, hpiece, hmem⟩
    rwa [flatMap_text_pieces] at hall
  cases piece with
  | verbatim d => exact Or.inl (hcode hc)
  | literal kind text =>
      rw [Piece.image] at hc
      cases hname : rule kind text with
      | none =>
          rw [hname] at hc
          exact Or.inl (hcode hc)
      | some name =>
          rw [hname] at hc
          exact Or.inr ⟨kind, text, name, hname, hc⟩

/-! ### Line by line -/

/-- A lexeme at the end of a line ends there whatever the next line is. -/
private theorem boundsAlike_append_newline (tail next : List Char) :
    BoundsAlike tail (tail ++ '\n' :: next) := by
  cases tail with
  | nil => exact ⟨rfl, by simp, fun _ => rfl⟩
  | cons c rest =>
      refine ⟨rfl, Iff.rfl, ?_⟩
      cases rest with
      | nil => exact exponentLength_cons_eq_zero rfl fun _ h => absurd h (by simp [signLength])
      | cons d more =>
          refine exponentLength_cons_eq_zero (signLength_congr ..) fun _ h => ?_
          rw [signLength_cons] at h ⊢
          -- The digit would stand behind the sign, if there is one, and so does the line break.
          split at h
          · rename_i hsign
            rw [if_pos hsign]
            cases more with
            | nil => exact absurd h (by simp)
            | cons e later => exact h
          · rename_i hsign
            rw [if_neg hsign]
            exact h

/-- The pieces of a line and those of the lines behind it make up the pieces of them all. -/
private theorem Cut.append_newline {line next : List Char} {qs : List Piece}
    (cut : Cut touching line ps) (more : Cut false next qs) :
    Cut touching (line ++ '\n' :: next) (ps ++ .verbatim '\n' :: qs) := by
  induction cut with
  | nil touching =>
      rw [List.nil_append, List.nil_append]
      exact .verbatim (fun h => absurd h (by simp [startsLexeme])) more
  | verbatim starts _ ih =>
      rename_i touching c rest qs _
      refine .verbatim (fun hstarts => starts ?_) ih
      by_cases hpoint : c = '.'
      · subst hpoint
        cases rest with
        | nil => exact absurd hstarts (by simp [startsLexeme])
        | cons d later => exact hstarts
      · rw [List.append_eq, startsLexeme_cons hpoint] at hstarts
        rw [startsLexeme_cons hpoint]
        exact hstarts
  | literal spans free _ ih =>
      rename_i kind word tail qs _
      rw [List.append_assoc]
      refine .literal (spans.of_boundsAlike (boundsAlike_append_newline tail next)) ?_ ih
      cases tail with
      | nil => rfl
      | cons c rest => exact free
  | attached spans touched _ ih =>
      rename_i kind word tail qs _
      rw [List.append_assoc, List.append_assoc]
      refine .attached (spans.of_boundsAlike (boundsAlike_append_newline tail next)) ?_ ih
      cases tail with
      | nil => exact absurd touched (by simp [attaches])
      | cons c rest => exact touched

theorem replace_append_newline (rule : Rule) (line next : List Char) :
    replace rule (line ++ '\n' :: next) = replace rule line ++ '\n' :: replace rule next := by
  have hpieces := cut_iff.mp ((cut_pieces none line).append_newline (cut_pieces none next))
  rw [replace, hpieces, List.flatMap_append, List.flatMap_cons]
  rfl

/-- **Lines are replaced one by one.** -/
theorem replace_joinWith (rule : Rule) (lines : List (List Char)) :
    replace rule (Text.joinWith '\n' lines) = Text.joinWith '\n' (lines.map (replace rule)) := by
  induction lines with
  | nil => rfl
  | cons first more ih =>
      cases more with
      | nil => rfl
      | cons second later =>
          show replace rule (first ++ '\n' :: Text.joinWith '\n' (second :: later)) = _
          rw [replace_append_newline, ih]
          rfl

end Literal

end ShaderLink
