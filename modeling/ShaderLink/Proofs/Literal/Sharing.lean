/-
What sharing constants does to code.

While literals are replaced from left to right constants are only added, each
behind the others and only for a value that none of them holds.  So a value that
once has a name keeps it, and every name that a literal was given is the one that
the constants of the end give to its value.  Code is therefore replaced by a rule
that these constants make, once for the integers and once for the numbers; and when
the constants of values have identifiers for names, by one rule for both.
-/
import Mathlib.Data.List.Nodup
import ShaderLink.Proofs.Literal.Naming

namespace ShaderLink

namespace ConstValue

def kind? : ConstValue → Option ConstKind
  | .int _ => some .int
  | .float _ => some .float
  | .expr _ => none

end ConstValue

namespace Literal

variable {constants later : List Constant} {kind : ConstKind} {value : ConstValue} {name : String}

theorem kind?_of_value? {text : List Char} (h : value? kind text = some value) :
    value.kind? = some kind := by
  cases kind with
  | int =>
      obtain ⟨i, -, rfl⟩ := Option.map_eq_some_iff.mp h
      rfl
  | float =>
      obtain ⟨x, -, rfl⟩ := Option.map_eq_some_iff.mp h
      rfl

/-! ### Names of values -/

/-- The name of the first constant that holds a value. -/
def nameOf? (constants : List Constant) (value : ConstValue) : Option String :=
  (constants.find? (·.value == value)).map (·.name)

theorem exists_of_nameOf? (h : nameOf? constants value = some name) :
    ∃ c ∈ constants, c.value = value ∧ c.name = name := by
  obtain ⟨c, hc, rfl⟩ := Option.map_eq_some_iff.mp h
  exact ⟨c, List.mem_of_find?_eq_some hc, by simpa using List.find?_some hc, rfl⟩

theorem nameOf?_eq_none_iff :
    nameOf? constants value = none ↔ ∀ c ∈ constants, c.value ≠ value := by
  simp [nameOf?]

/-- Constants behind others do not change the name that a value has. -/
private theorem nameOf?_of_prefix (hbehind : constants <+: later)
    (h : nameOf? constants value = some name) : nameOf? later value = some name := by
  obtain ⟨more, rfl⟩ := hbehind
  obtain ⟨c, hc, rfl⟩ := Option.map_eq_some_iff.mp h
  rw [nameOf?, List.find?_append, hc]
  rfl

private theorem nameOf?_append_singleton {c : Constant} (h : nameOf? constants c.value = none) :
    nameOf? (constants ++ [c]) c.value = some c.name := by
  rw [nameOf?, Option.map_eq_none_iff] at h
  rw [nameOf?, List.find?_append, h]
  simp

/-- Literals in range are replaced by the names of their values. -/
def byConstants (constants : List Constant) : Rule := fun kind text =>
  (value? kind text).bind fun value => (nameOf? constants value).map String.toList

theorem byConstants_of_nameOf? {text : List Char} (ranged : value? kind text = some value)
    (h : nameOf? constants value = some name) :
    byConstants constants kind text = some name.toList := by
  rw [byConstants, ranged, Option.bind_some, h]
  rfl

/-- Only the literals of one kind are. -/
def byConstantsOf (wanted : ConstKind) (constants : List Constant) : Rule := fun kind text =>
  if kind = wanted then byConstants constants kind text else none

private theorem byConstantsOf_or (constants : List Constant) :
    (byConstantsOf .int constants).or (byConstantsOf .float constants) = byConstants constants := by
  funext kind text
  cases kind with
  | int => simp [Rule.or, byConstantsOf]
  | float => simp [Rule.or, byConstantsOf]

/-- Code with its integers and then its numbers replaced by the names of constants. -/
def imageBy (constants : List Constant) (code : List Char) : List Char :=
  replace (byConstantsOf .float constants) (replace (byConstantsOf .int constants) code)

theorem imageBy_joinWith (constants : List Constant) (lines : List (List Char)) :
    imageBy constants (Text.joinWith '\n' lines) =
      Text.joinWith '\n' (lines.map (imageBy constants)) := by
  rw [imageBy, replace_joinWith, replace_joinWith, List.map_map]
  rfl

private theorem exists_of_byConstants {text written : List Char}
    (h : byConstants constants kind text = some written) :
    ∃ c ∈ constants, value? kind text = some c.value ∧ c.name.toList = written := by
  obtain ⟨value, hvalue, hname⟩ := Option.bind_eq_some_iff.mp h
  obtain ⟨found, hfound, rfl⟩ := Option.map_eq_some_iff.mp hname
  obtain ⟨c, hc, rfl, rfl⟩ := exists_of_nameOf? hfound
  exact ⟨c, hc, hvalue, rfl⟩

private theorem byConstants_of_byConstantsOf {wanted : ConstKind} {text written : List Char}
    (h : byConstantsOf wanted constants kind text = some written) :
    byConstants constants kind text = some written := by
  unfold byConstantsOf at h
  split at h
  · exact h
  · exact absurd h (by simp)

/-- Code on one line stays on it, as literals are given the names of constants of values only. -/
theorem newline_notMem_imageBy
    (names : ∀ c ∈ constants, c.value.kind?.isSome = true → Text.OneLine c.name) {code : List Char}
    (h : '\n' ∉ code) : '\n' ∉ imageBy constants code := by
  have hstep (wanted : ConstKind) {text : List Char} (htext : '\n' ∉ text) :
      '\n' ∉ replace (byConstantsOf wanted constants) text := by
    intro hmem
    rcases mem_replace hmem with hold | ⟨kind, word, written, hwritten, hnew⟩
    · exact htext hold
    · obtain ⟨c, hc, hvalue, rfl⟩ := exists_of_byConstants (byConstants_of_byConstantsOf hwritten)
      exact names c hc (by rw [kind?_of_value? hvalue]; rfl) hnew
  exact hstep .float (hstep .int h)

/-! ### How constants grow -/

/-- Constants with further ones behind them, each added for a literal whose value none held. -/
inductive Grows (constants : List Constant) : List Constant → Prop
  | refl : Grows constants constants
  | added {later : List Constant} {kind : ConstKind} {text : List Char} {value : ConstValue}
      (grows : Grows constants later) (ranged : value? kind text = some value)
      (unheld : nameOf? later value = none) : Grows constants (later ++ [added later kind value])

namespace Grows

theorem trans {between : List Constant} (h : Grows constants between) (h' : Grows between later) :
    Grows constants later := by
  induction h' with
  | refl => exact h
  | added grows ranged unheld ih => exact .added ih ranged unheld

theorem isPrefix (h : Grows constants later) : constants <+: later := by
  induction h with
  | refl => exact List.prefix_refl _
  | added grows ranged unheld ih => exact ih.trans (List.prefix_append _ _)

/-- Names stay distinct, as an added one is fresh. -/
theorem distinct (h : Grows constants later) (distinct : (constants.map (·.name)).Nodup) :
    (later.map (·.name)).Nodup := by
  induction h with
  | refl => exact distinct
  | added grows ranged unheld ih =>
      rename_i later kind text value
      rw [List.map_append, List.map_cons, List.map_nil, List.nodup_append]
      refine ⟨ih, by simp, ?_⟩
      intro a ha b hb
      rw [List.mem_singleton] at hb
      rintro rfl
      exact freshName_notMem _ _ (hb ▸ ha)

/-- What holds of the constants at the start holds of all when it holds of those added. -/
theorem forall_mem {P : Constant → Prop} (h : Grows constants later)
    (start : ∀ c ∈ constants, P c)
    (step : ∀ (before : List Constant) (kind : ConstKind) (text : List Char) (value : ConstValue),
      value? kind text = some value → P (Literal.added before kind value)) :
    ∀ c ∈ later, P c := by
  induction h with
  | refl => exact start
  | added grows ranged unheld ih =>
      intro c hc
      rcases List.mem_append.mp hc with hold | hnew
      · exact ih c hold
      · rw [List.mem_singleton.mp hnew]
        exact step _ _ _ _ ranged

end Grows

/-! ### One piece and many -/

theorem grows_reference {text : List Char} (ranged : value? kind text = some value) :
    Grows constants (reference constants kind value).2 := by
  unfold reference
  split
  · exact .refl
  · rename_i hnone
    exact .added .refl ranged (by rw [nameOf?, hnone]; rfl)

theorem nameOf?_reference (constants : List Constant) (kind : ConstKind) (value : ConstValue) :
    nameOf? (reference constants kind value).2 value =
      some (reference constants kind value).1 := by
  unfold reference
  split
  · rename_i holder hholder
    show nameOf? constants value = some holder.name
    rw [nameOf?, hholder]
    rfl
  · rename_i hnone
    exact nameOf?_append_singleton (c := added constants kind value)
      (by show nameOf? constants value = none; rw [nameOf?, hnone]; rfl)

theorem grows_sharePiece (kind : ConstKind) (constants : List Constant) (piece : Piece) :
    Grows constants (sharePiece kind constants piece).2 := by
  unfold sharePiece
  split
  · exact .refl
  · split
    · rename_i found text value hvalue
      split at hvalue
      · exact grows_reference hvalue
      · exact absurd hvalue (by simp)
    · exact .refl

/-- A piece becomes what the constants of any later time make of it. -/
theorem sharePiece_fst (piece : Piece) (h : (sharePiece kind constants piece).2 <+: later) :
    (sharePiece kind constants piece).1 = piece.image (byConstantsOf kind later) := by
  cases piece with
  | verbatim c => rfl
  | literal found text =>
      unfold sharePiece at h ⊢
      rw [Piece.image, byConstantsOf, byConstants]
      by_cases hkind : found = kind
      · simp only [hkind, if_true] at h ⊢
        cases hvalue : value? kind text with
        | none => rfl
        | some value =>
            simp only [hvalue] at h ⊢
            have hname := nameOf?_of_prefix h (nameOf?_reference constants kind value)
            rw [Option.bind_some, hname]
            rfl
      · simp only [hkind, if_false]
        rfl

theorem grows_sharePieces (kind : ConstKind) (constants : List Constant) (ps : List Piece) :
    Grows constants (sharePieces kind constants ps).2 := by
  induction ps generalizing constants with
  | nil => exact .refl
  | cons piece rest ih => exact (grows_sharePiece kind constants piece).trans (ih _)

theorem sharePieces_fst (ps : List Piece) (h : (sharePieces kind constants ps).2 <+: later) :
    (sharePieces kind constants ps).1 = ps.flatMap (Piece.image (byConstantsOf kind later)) := by
  induction ps generalizing constants with
  | nil => rfl
  | cons piece rest ih =>
      show (sharePiece kind constants piece).1 ++ _ = _
      have hrest := (grows_sharePieces kind (sharePiece kind constants piece).2 rest).isPrefix
      rw [sharePiece_fst piece (hrest.trans h), ih h, List.flatMap_cons]

theorem nameOf?_sharePieces (constants : List Constant) {ps : List Piece} {text : List Char}
    (hmem : .literal kind text ∈ ps) (ranged : value? kind text = some value) :
    ∃ name, nameOf? (sharePieces kind constants ps).2 value = some name := by
  induction ps generalizing constants with
  | nil => exact absurd hmem List.not_mem_nil
  | cons piece rest ih =>
      rcases List.mem_cons.mp hmem with rfl | hrest
      · refine ⟨(reference constants kind value).1, ?_⟩
        have hpiece : (sharePiece kind constants (.literal kind text)).2 =
            (reference constants kind value).2 := by
          simp only [sharePiece, if_true, ranged]
        have hgrows := grows_sharePieces kind (reference constants kind value).2 rest
        show nameOf?
          (sharePieces kind (sharePiece kind constants (.literal kind text)).2 rest).2 _ = _
        rw [hpiece]
        exact nameOf?_of_prefix hgrows.isPrefix (nameOf?_reference constants kind value)
      · exact ih _ hrest

/-! ### All literals -/

theorem grows_shareKind (kind : ConstKind) (constants : List Constant) (code : List Char) :
    Grows constants (shareKind kind constants code).2 :=
  grows_sharePieces kind constants (pieces none 0 code)

theorem grows_share (constants : List Constant) (code : List Char) :
    Grows constants (share constants code).2 := by
  unfold share
  exact (grows_shareKind ..).trans (grows_shareKind ..)

/-- **Shared code is the code replaced by the constants of the end.** -/
theorem share_fst (constants : List Constant) (code : List Char) :
    (share constants code).1 = imageBy (share constants code).2 code := by
  have hint : (shareKind .int constants code).1 =
      replace (byConstantsOf .int (share constants code).2) code :=
    sharePieces_fst _ (grows_shareKind ..).isPrefix
  rw [imageBy, ← hint]
  exact sharePieces_fst _ (List.prefix_refl _)

/-- The code in which the literals of a kind are looked for: the numbers are behind the integers. -/
def searched (constants : List Constant) (code : List Char) : ConstKind → List Char
  | .int => code
  | .float => (shareKind .int constants code).1

/-- What is found in range when its kind is shared has the name of a constant in the end. -/
theorem nameOf?_searched {code text : List Char}
    (hmem : .literal kind text ∈ pieces none 0 (searched constants code kind))
    (ranged : value? kind text = some value) :
    ∃ name, nameOf? (share constants code).2 value = some name := by
  cases kind with
  | int =>
      have hfloats := grows_shareKind .float (shareKind .int constants code).2
        (shareKind .int constants code).1
      obtain ⟨name, hname⟩ := nameOf?_sharePieces constants hmem ranged
      exact ⟨name, nameOf?_of_prefix hfloats.isPrefix hname⟩
  | float => exact nameOf?_sharePieces _ hmem ranged

/-! ### Constants with identifiers -/

/-- Constants of values whose names are identifiers; those of expressions may have other names. -/
def Named (constants : List Constant) : Prop :=
  ∀ c ∈ constants, c.value.kind?.isSome = true → Text.isIdentifier c.name.toList = true

instance (constants : List Constant) : Decidable (Named constants) :=
  inferInstanceAs (Decidable (∀ c ∈ constants, _))

/-- The names of such constants stand on one line. -/
theorem Named.oneLine (named : Named constants) :
    ∀ c ∈ constants, c.value.kind?.isSome = true → Text.OneLine c.name := by
  intro c hc hvalue hnewline
  obtain ⟨-, -, -, -, -, hattached⟩ := exists_of_isIdentifier (named c hc hvalue)
  exact absurd (hattached _ hnewline) (by decide)

theorem Grows.named (h : Grows constants later) (named : Named constants) : Named later :=
  h.forall_mem named fun before _ _ _ ranged _ => isIdentifier_added ranged before

theorem Named.byConstants (named : Named constants) : (byConstants constants).Names := by
  intro kind text written h
  obtain ⟨c, hc, hvalue, rfl⟩ := exists_of_byConstants h
  exact named c hc (by rw [kind?_of_value? hvalue]; rfl)

theorem Named.byConstantsOf (named : Named constants) (wanted : ConstKind) :
    (byConstantsOf wanted constants).Names :=
  fun kind text written h => named.byConstants kind text written (byConstants_of_byConstantsOf h)

/-- **With identifiers for names, replacing the integers and then the numbers is replacing all
literals once.** -/
theorem Named.imageBy (named : Named constants) (code : List Char) :
    imageBy constants code = replace (Literal.byConstants constants) code := by
  rw [Literal.imageBy, replace_replace (named.byConstantsOf .int), byConstantsOf_or]

private theorem mem_remains {rule : Rule} {ps : List Piece} {text : List Char}
    (hmem : .literal kind text ∈ ps) (hnone : rule kind text = none) :
    .literal kind text ∈ ps.flatMap (Piece.remains rule) := by
  refine List.mem_flatMap.mpr ⟨_, hmem, ?_⟩
  rw [Piece.remains, hnone]
  exact List.mem_singleton_self _

/-- With identifiers for names, every literal of the code is still there when its kind is shared. -/
private theorem mem_searched (named : Named constants) {code text : List Char}
    (hmem : .literal kind text ∈ pieces none 0 code) :
    .literal kind text ∈ pieces none 0 (searched constants code kind) := by
  cases kind with
  | int => exact hmem
  | float =>
      have hints := (grows_shareKind .int constants code).named named
      have hcode : searched constants code .float =
          replace (byConstantsOf .int (shareKind .int constants code).2) code :=
        sharePieces_fst _ (List.prefix_refl _)
      rw [hcode, pieces_replace (hints.byConstantsOf .int)]
      exact mem_remains hmem rfl

/-- **Every literal in range has the name of a constant in the end.** -/
theorem nameOf?_share (named : Named constants) {code text : List Char}
    (hmem : .literal kind text ∈ pieces none 0 code) (ranged : value? kind text = some value) :
    ∃ name, nameOf? (share constants code).2 value = some name :=
  nameOf?_searched (mem_searched named hmem) ranged

end Literal

end ShaderLink
