/-
Sharing literals in a single pass.

Sharing goes through the code twice, and the second time the code is another.  With
identifiers for names nothing in it is cut in another way: the literals found then are
those that the first pass left, in their order and moved along with the text.  So the code
can be cut once and every literal replaced where it was found, when the constants for the
integers have been added before those for the numbers.
-/
import ShaderLink.Proofs.Literal.Pool
import ShaderLink.Proofs.Literal.Sites

namespace ShaderLink

namespace Literal

variable {constants later : List Constant} {kind : ConstKind} {rule : Rule}

/-! ### Sites in replaced code -/

/-- A literal that is still there when code is replaced, with what the pieces before it become. -/
def Site.shift (rule : Rule) (site : Site) : Site :=
  { site with before := site.before.flatMap (Piece.remains rule) }

/-- **What remains of pieces has the sites of the literals that are given no name, moved along.** -/
theorem sites_remains (rule : Rule) (before ps : List Piece) :
    sites (before.flatMap (Piece.remains rule)) (ps.flatMap (Piece.remains rule)) =
      ((sites before ps).filter fun site => (rule site.kind site.text).isNone).map
        (Site.shift rule) := by
  induction ps generalizing before with
  | nil => rfl
  | cons piece rest ih =>
      have hrest := ih (before ++ [piece])
      rw [List.flatMap_append, List.flatMap_singleton] at hrest
      rw [List.flatMap_cons]
      cases piece with
      | verbatim c => exact hrest
      | literal kind text =>
          rw [Piece.remains] at hrest ⊢
          cases hname : rule kind text with
          | some name =>
              rw [hname] at hrest
              rw [sites, List.filter_cons_of_neg (by simp [hname]), ← hrest]
              exact sites_verbatim _ name _
          | none =>
              rw [hname] at hrest
              rw [sites, List.filter_cons_of_pos (by simp [hname]), List.map_cons, ← hrest]
              rfl

/-! ### Constants for the literals of a kind -/

/-- The value of a literal when it is of a kind and in range. -/
def valueOf? (kind : ConstKind) (site : Site) : Option ConstValue :=
  if site.kind = kind then value? kind site.text else none

/-- The constants when the values have one each, added where none held it. -/
def mint (kind : ConstKind) (constants : List Constant) (values : List ConstValue) :
    List Constant :=
  values.foldl (fun constants value => (reference constants kind value).2) constants

private theorem sharePieces_snd (kind : ConstKind) (constants : List Constant)
    (before ps : List Piece) :
    (sharePieces kind constants ps).2 =
      mint kind constants ((sites before ps).filterMap (valueOf? kind)) := by
  induction ps generalizing constants before with
  | nil => rfl
  | cons piece rest ih =>
      show (sharePieces kind (sharePiece kind constants piece).2 rest).2 = _
      rw [ih _ (before ++ [piece])]
      cases piece with
      | verbatim c => rfl
      | literal found text =>
          rw [sites, List.filterMap_cons, valueOf?, sharePiece]
          cases (if found = kind then value? kind text else none) with
          | some value => rfl
          | none => rfl

private theorem shareKind_snd (kind : ConstKind) (constants : List Constant) (code : List Char) :
    (shareKind kind constants code).2 =
      mint kind constants ((literals code).filterMap (valueOf? kind)) :=
  sharePieces_snd kind constants [] (pieces none 0 code)

/-! ### Sharing once -/

/-- Literals in range are replaced by their references. -/
def references (constants : List Constant) : Rule := fun kind text =>
  (value? kind text).map fun value => (reference constants kind value).1.toList

private theorem references_of_nameOf? {text : List Char} {value : ConstValue} {name : String}
    (ranged : value? kind text = some value) (h : nameOf? constants value = some name) :
    references constants kind text = some name.toList := by
  obtain ⟨holder, hholder, rfl⟩ := Option.map_eq_some_iff.mp h
  rw [references, ranged, Option.map_some, reference, hholder]

/-- The constants that there are when the integers among some literals and then the numbers have
got theirs. -/
def mintBoth (constants : List Constant) (found : List Site) : List Constant :=
  mint .float (mint .int constants (found.filterMap (valueOf? .int)))
    (found.filterMap (valueOf? .float))

/-- Code with the literals that are found in it replaced by their references, and the constants. -/
def shareOnce (constants : List Constant) (code : List Char) : List Char × List Constant :=
  let constants := mintBoth constants (literals code)
  (replace (references constants) code, constants)

/-! ### The code between the passes -/

variable {code text : List Char} {site : Site}

/-- The literals that no integer constant takes the place of. -/
def Site.stays (site : Site) : Bool := site.kind == .float || (value? .int site.text).isNone

/-- An integer in range has a constant behind the first pass. -/
private theorem isNone_byConstantsOf_int (constants : List Constant) (h : site ∈ literals code) :
    (byConstantsOf .int (shareKind .int constants code).2 site.kind site.text).isNone =
      site.stays := by
  have hmem := mem_pieces_of_mem_literals h
  obtain ⟨before, kind, text⟩ := site
  cases kind with
  | float => rfl
  | int =>
      show (byConstants (shareKind .int constants code).2 .int text).isNone =
        (value? .int text).isNone
      cases hvalue : value? .int text with
      | none => rw [byConstants, hvalue]; rfl
      | some value =>
          obtain ⟨name, hname⟩ := nameOf?_sharePieces constants hmem hvalue
          rw [shareKind, byConstants_of_nameOf? hvalue hname]
          rfl

/-- **Behind the first pass the literals are those that it left, moved along.** -/
theorem literals_shareKind_int (named : Named constants) (code : List Char) :
    literals (shareKind .int constants code).1 = ((literals code).filter Site.stays).map
      (Site.shift (byConstantsOf .int (shareKind .int constants code).2)) := by
  have hnamed := (grows_shareKind .int constants code).named named
  have hcode : (shareKind .int constants code).1 =
      replace (byConstantsOf .int (shareKind .int constants code).2) code :=
    sharePieces_fst _ (List.prefix_refl _)
  have hsites := sites_remains (byConstantsOf .int (shareKind .int constants code).2) []
    (pieces none 0 code)
  rw [List.flatMap_nil] at hsites
  rw [hcode, literals, pieces_replace (hnamed.byConstantsOf .int), hsites]
  exact congrArg _ (List.filter_congr fun site hsite => isNone_byConstantsOf_int constants hsite)

/-- No number is replaced in the first pass, and none is new. -/
private theorem filterMap_valueOf?_float (rule : Rule) (found : List Site) :
    ((found.filter Site.stays).map (Site.shift rule)).filterMap (valueOf? .float) =
      found.filterMap (valueOf? .float) := by
  rw [List.filterMap_map, List.filterMap_filter]
  refine congrArg (List.filterMap · found) (funext fun site => ?_)
  obtain ⟨before, kind, text⟩ := site
  cases kind with
  | float => rfl
  | int => exact ite_self _

/-! ### Both passes at once -/

theorem share_snd (named : Named constants) (code : List Char) :
    (share constants code).2 = mintBoth constants (literals code) := by
  show (shareKind .float (shareKind .int constants code).2 (shareKind .int constants code).1).2 = _
  rw [shareKind_snd .float, literals_shareKind_int named, filterMap_valueOf?_float, shareKind_snd]
  rfl

/-- What has a name when all is shared has its constant for its reference. -/
private theorem byConstants_eq_references (named : Named constants)
    (hmem : .literal kind text ∈ pieces none 0 code) :
    byConstants (share constants code).2 kind text =
      references (share constants code).2 kind text := by
  cases hvalue : value? kind text with
  | none => rw [byConstants, references, hvalue]; rfl
  | some value =>
      obtain ⟨name, hname⟩ := nameOf?_share named hmem hvalue
      rw [byConstants_of_nameOf? hvalue hname, references_of_nameOf? hvalue hname]

theorem share_eq_shareOnce (named : Named constants) (code : List Char) :
    share constants code = shareOnce constants code := by
  have hnamed := (grows_share constants code).named named
  have hreplace : replace (byConstants (share constants code).2) code =
      replace (references (share constants code).2) code := by
    refine List.flatMap_congr fun piece hpiece => ?_
    cases piece with
    | verbatim c => rfl
    | literal kind text => rw [Piece.image, Piece.image, byConstants_eq_references named hpiece]
  refine Prod.ext ?_ (share_snd named code)
  rw [share_fst, hnamed.imageBy, hreplace, share_snd named]
  rfl

/-- **With identifiers for names, sharing in two passes is sharing once.**  The second pass finds
the literals that the first one left, where they have moved to. -/
theorem normalize_follows_shareOnce {pool : Pool} (indexed : pool.Indexed)
    (named : Named pool.constants) (code : List Char) :
    literals (shareKind .int pool.constants code).1 = ((literals code).filter Site.stays).map
      (Site.shift (byConstantsOf .int (shareKind .int pool.constants code).2)) ∧
    share pool.constants code = shareOnce pool.constants code ∧
    Pool.Follows (pool.normalize code) (shareOnce pool.constants code) := by
  have honce := share_eq_shareOnce named code
  refine ⟨literals_shareKind_int named code, honce, ?_⟩
  rw [← honce]
  exact indexed.normalize code

/-- A constant of a number and one of an expression. -/
def halved : List Constant :=
  [⟨"HALF", .float, .read "0.5", "a.glsl", some 1⟩,
    ⟨"STEP", .float, .read "sin(3.0)", "a.glsl", some 2⟩]

/-- The integer behind a sign is none, the one out of range stays, and a number beside a replaced
integer is the same number: the integer constant stands before that of the number to its left. -/
theorem halved_follows :
    (Pool.ofConstants halved).Indexed ∧ Named (Pool.ofConstants halved).constants ∧
      ∃ pool, (Pool.ofConstants halved).normalize "2e+3-3*.5/9223372036854775808".toList =
          some ("F_2000_0-I_3*HALF/9223372036854775808".toList, pool) ∧
        pool.constants.map (·.name) = ["HALF", "STEP", "I_3", "F_2000_0"] := by
  have hindexed := Pool.indexed_ofConstants halved
  have hnamed : Named (Pool.ofConstants halved).constants := by decide +kernel
  have hshared : (shareOnce halved "2e+3-3*.5/9223372036854775808".toList).1 =
        "F_2000_0-I_3*HALF/9223372036854775808".toList ∧
      (shareOnce halved "2e+3-3*.5/9223372036854775808".toList).2.map (·.name) =
        ["HALF", "STEP", "I_3", "F_2000_0"] := by decide +kernel
  obtain ⟨-, -, pool, hrun, hconstants, -⟩ :=
    normalize_follows_shareOnce hindexed hnamed "2e+3-3*.5/9223372036854775808".toList
  refine ⟨hindexed, hnamed, pool, ?_, ?_⟩
  · rw [hrun, ← hshared.1]
    rfl
  · rw [hconstants]
    exact hshared.2

end Literal

end ShaderLink
