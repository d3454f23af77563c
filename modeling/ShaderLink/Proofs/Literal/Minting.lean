/-
The names that added constants are given.

A name tells its value.  The text of a number has one point at most, and none behind
an exponent, while an ending brings one more; so a candidate for one value is never a
candidate for another, whatever their endings.

So the constants added for other values do not matter to a name: each added constant
has the first candidate for its value that none of the constants at the start has.
-/
import ShaderLink.Proofs.Lists
import ShaderLink.Proofs.Literal.Sharing
import ShaderLink.Proofs.Number.ReadBack

namespace ShaderLink

namespace Literal

/-! ### The characters of names -/

/-- What a character of a number becomes in a name. -/
def nameChar (c : Char) : List Char :=
  if c = '-' then ['n', 'e', 'g'] else if c = '.' then ['_'] else [c]

private theorem toList_nameText (text : String) :
    (nameText text).toList = text.toList.flatMap nameChar :=
  String.toList_ofList

private theorem nameChar_of_isDigit {c : Char} (h : c.isDigit = true) : nameChar c = [c] := by
  have hminus : c ≠ '-' := by
    rintro rfl
    exact absurd h (by decide)
  have hpoint : c ≠ '.' := by
    rintro rfl
    exact absurd h (by decide)
  rw [nameChar, if_neg hminus, if_neg hpoint]

private theorem nameChar_ne_nil (c : Char) : nameChar c ≠ [] := by
  unfold nameChar
  split
  · simp
  · split <;> simp

/-- Characters of numbers are told apart by the first character of what they become. -/
private theorem head?_nameChar_inj {c d : Char} (hc : Text.isNumeralChar c = true)
    (hd : Text.isNumeralChar d = true) (h : (nameChar c).head? = (nameChar d).head?) : c = d := by
  have hcases {e : Char} (he : Text.isNumeralChar e = true) :
      (e.isDigit = true ∧ (nameChar e).head? = some e) ∨ e = '.' ∨ e = '-' ∨ e = 'e' := by
    simp only [Text.isNumeralChar, Bool.or_eq_true, beq_iff_eq] at he
    rcases he with ((hdigit | hpoint) | hminus) | hletter
    · exact .inl ⟨hdigit, by rw [nameChar_of_isDigit hdigit]; rfl⟩
    · exact .inr (.inl hpoint)
    · exact .inr (.inr (.inl hminus))
    · exact .inr (.inr (.inr hletter))
  have hmarks : ∀ e ∈ ['.', '-', 'e'], ∀ f, (nameChar e).head? = some f → f.isDigit = false := by
    simp [nameChar]
  rcases hcases hc with ⟨hdigit, hhead⟩ | hmark
  · rcases hcases hd with ⟨-, hhead'⟩ | hmark'
    · rw [hhead, hhead'] at h
      exact Option.some.inj h
    · rw [hhead] at h
      have hnot := hmarks d (by simpa using hmark') c h.symm
      rw [hdigit] at hnot
      exact absurd hnot (by simp)
  · rcases hcases hd with ⟨hdigit, hhead'⟩ | hmark'
    · rw [hhead'] at h
      have hnot := hmarks c (by simpa using hmark) d h
      rw [hdigit] at hnot
      exact absurd hnot (by simp)
    · rcases hmark with rfl | rfl | rfl <;> rcases hmark' with rfl | rfl | rfl <;>
        first | rfl | exact absurd h (by decide)

private theorem flatMap_nameChar_inj {text other : List Char}
    (htext : ∀ c ∈ text, Text.isNumeralChar c = true)
    (hother : ∀ c ∈ other, Text.isNumeralChar c = true)
    (h : text.flatMap nameChar = other.flatMap nameChar) : text = other := by
  induction text generalizing other with
  | nil =>
      cases other with
      | nil => rfl
      | cons d rest => exact absurd h.symm (by simp [nameChar_ne_nil])
  | cons c rest ih =>
      cases other with
      | nil => exact absurd h (by simp [nameChar_ne_nil])
      | cons d others =>
          rw [List.flatMap_cons, List.flatMap_cons] at h
          have hhead := congrArg List.head? h
          rw [List.head?_append_of_ne_nil _ (nameChar_ne_nil c),
            List.head?_append_of_ne_nil _ (nameChar_ne_nil d)] at hhead
          have hsame := head?_nameChar_inj (htext c (List.mem_cons_self ..))
            (hother d (List.mem_cons_self ..)) hhead
          rw [hsame] at h ⊢
          rw [ih (fun e he => htext e (List.mem_cons_of_mem _ he))
            (fun e he => hother e (List.mem_cons_of_mem _ he)) (List.append_cancel_left h)]

/-! ### Candidates tell their values -/

/-- The ending of a candidate, as a name shows it of a number: a point and digits. -/
def ending : Nat → List Char
  | 0 => []
  | k + 1 => '.' :: (toString (k + 1)).toList

def mark : ConstKind → List Char
  | .int => ['I', '_']
  | .float => ['F', '_']

variable {kind kind' : ConstKind} {text text' : List Char} {value value' : ConstValue}

private theorem toList_candidate (kind : ConstKind) (value : ConstValue) (k : Nat) :
    (candidate (baseName kind value) k).toList =
      mark kind ++ (value.text.toList ++ ending k).flatMap nameChar := by
  have hbase : (baseName kind value).toList = mark kind ++ value.text.toList.flatMap nameChar := by
    cases kind with
    | int => rw [baseName, String.toList_append, toList_nameText]; rfl
    | float => rw [baseName, String.toList_append, toList_nameText]; rfl
  cases k with
  | zero => rw [candidate, hbase, ending, List.append_nil]
  | succ k =>
      have hdigits : (toString (k + 1)).toList.flatMap nameChar = (toString (k + 1)).toList := by
        have hall : ∀ c ∈ (toString (k + 1)).toList, nameChar c = [c] :=
          fun c hc => nameChar_of_isDigit (Text.isDigit_of_mem_nat hc)
        rw [List.flatMap_congr hall, List.flatMap_singleton']
      rw [candidate, String.toList_append, String.toList_append, hbase, ending, List.flatMap_append,
        List.flatMap_cons, hdigits, List.append_assoc, List.append_assoc]
      rfl

/-- The value of a literal in range is an integer, or a finite number. -/
theorem value?_cases (h : value? kind text = some value) :
    (kind = .int ∧ ∃ i, value = .int i) ∨
      (kind = .float ∧ ∃ x, value = .float x ∧ x.isFinite = true) := by
  cases kind with
  | int =>
      obtain ⟨i, -, rfl⟩ := Option.map_eq_some_iff.mp h
      exact .inl ⟨rfl, i, rfl⟩
  | float =>
      obtain ⟨x, hx, rfl⟩ := Option.map_eq_some_iff.mp h
      exact .inr ⟨rfl, x, rfl, (Option.filter_eq_some_iff.mp hx).2⟩

private theorem isNumeralChar_of_mem_text (h : value? kind text = some value) {c : Char}
    (hc : c ∈ value.text.toList) : Text.isNumeralChar c = true := by
  rcases value?_cases h with ⟨-, i, rfl⟩ | ⟨-, x, rfl, hfinite⟩
  · exact Text.isNumeralChar_of_mem_int hc
  · exact Binary32.isNumeralChar_of_mem_toText hfinite hc

theorem text_injective (h : value? kind text = some value) (h' : value? kind text' = some value')
    (heq : value.text = value'.text) : value = value' := by
  rcases value?_cases h with ⟨rfl, i, rfl⟩ | ⟨rfl, x, rfl, hx⟩
  · rcases value?_cases h' with ⟨-, j, rfl⟩ | ⟨hkind, -⟩
    · have hi := Text.signed?_toString i.toInt
      have htext : toString i.toInt = toString j.toInt := heq
      rw [htext, Text.signed?_toString, Option.some.injEq] at hi
      rw [Int64.toInt_inj.mp hi]
    · exact absurd hkind (by simp)
  · rcases value?_cases h' with ⟨hkind, -⟩ | ⟨-, y, rfl, hy⟩
    · exact absurd hkind (by simp)
    · rw [Binary32.toText_injective hx hy heq]

/-- A number's text is not that of another of its kind with an ending. -/
private theorem text_ne_append (h : value? kind text = some value)
    (h' : value? kind text' = some value') (k : Nat) :
    value.text.toList ≠ value'.text.toList ++ ending (k + 1) := by
  intro heq
  have hpoint : '.' ∈ ending (k + 1) := List.mem_cons_self ..
  rcases value?_cases h with ⟨rfl, i, rfl⟩ | ⟨rfl, x, rfl, hx⟩
  · have hmem : '.' ∈ (toString i.toInt).toList := by
      show '.' ∈ (ConstValue.int i).text.toList
      rw [heq]
      exact List.mem_append_right _ hpoint
    rcases Text.mem_int_cases hmem with hminus | hdigit
    · exact absurd hminus (by decide)
    · exact absurd hdigit (by decide)
  · rcases value?_cases h' with ⟨hkind, -⟩ | ⟨-, y, rfl, hy⟩
    · exact absurd hkind (by simp)
    · -- The first mark of both texts is the same, and behind it only the second has a point.
      obtain ⟨whole, m, rest, hxtext, hwhole, hm, hrest⟩ := Binary32.exists_toText hx
      obtain ⟨whole', m', rest', hytext, hwhole', hm', -⟩ := Binary32.exists_toText hy
      have hnot {mark : Char} (hmark : mark = '.' ∨ mark = 'e') {front : List Char}
          (hfront : ∀ c ∈ front, c = '-' ∨ c.isDigit = true) : mark ∉ front := by
        intro hmem
        rcases hmark with rfl | rfl <;> rcases hfront _ hmem with hminus | hdigit <;>
          first | exact absurd hminus (by decide) | exact absurd hdigit (by decide)
      have hboth : whole ++ m :: rest = whole' ++ m' :: (rest' ++ ending (k + 1)) := by
        rw [← hxtext, ← List.cons_append, ← List.append_assoc, ← hytext]
        exact heq
      obtain ⟨-, -, htail⟩ := cut_unique (hnot hm' hwhole) (hnot hm hwhole') hboth
      rw [htail] at hrest
      exact hrest (List.mem_append_right _ hpoint)

/-- **No candidate for a value is one for another.** -/
theorem candidate_inj (h : value? kind text = some value) (h' : value? kind' text' = some value')
    {i j : Nat} (heq : candidate (baseName kind value) i = candidate (baseName kind' value') j) :
    value = value' := by
  have hlist := congrArg String.toList heq
  rw [toList_candidate, toList_candidate] at hlist
  obtain rfl : kind = kind' := by
    cases kind <;> cases kind' <;> first | rfl | exact absurd hlist (by simp [mark])
  have hnumerals {text : List Char} {value : ConstValue} (h : value? kind text = some value)
      (k : Nat) : ∀ c ∈ value.text.toList ++ ending k, Text.isNumeralChar c = true := by
    intro c hc
    rcases List.mem_append.mp hc with htext | hending
    · exact isNumeralChar_of_mem_text h htext
    · cases k with
      | zero => exact absurd hending List.not_mem_nil
      | succ k =>
          rcases List.mem_cons.mp hending with rfl | hdigit
          · rfl
          · exact Text.isNumeralChar_of_isDigit (Text.isDigit_of_mem_nat hdigit)
  have htexts := flatMap_nameChar_inj (hnumerals h i) (hnumerals h' j)
    (List.append_cancel_left hlist)
  refine text_injective h h' (String.toList_inj.mp ?_)
  match i, j with
  | 0, 0 => simpa [ending] using htexts
  | 0, j + 1 =>
      rw [ending, List.append_nil] at htexts
      exact absurd htexts (text_ne_append h h' j)
  | i + 1, 0 =>
      rw [ending, ending, List.append_nil] at htexts
      exact absurd htexts.symm (text_ne_append h' h i)
  | i + 1, j + 1 =>
      -- The endings begin with the last points of both texts.
      have hreversed := congrArg List.reverse htexts
      rw [ending, ending, List.reverse_append, List.reverse_append, List.reverse_cons,
        List.reverse_cons, List.append_assoc, List.append_assoc] at hreversed
      have hnot (k : Nat) : '.' ∉ (toString (k + 1)).toList.reverse :=
        fun hmem => absurd (Text.isDigit_of_mem_nat (List.mem_reverse.mp hmem)) (by decide)
      exact List.reverse_inj.mp (cut_unique (hnot i) (hnot j) hreversed).2.2

/-! ### Added constants -/

variable {constants later : List Constant}

/-- The constant that is added to others for a value that none of them holds, whatever is added for
other values before it. -/
structure Mints (constants : List Constant) (c : Constant) : Prop where
  ranged : ∃ text, value? c.kind text = some c.value
  unheld : nameOf? constants c.value = none
  name : c.name = freshName (constants.map (·.name)) (baseName c.kind c.value)
  origin : c.origin = generatedOrigin
  line : c.line = none

/-- **Constants grow by constants that are minted for the start.** -/
theorem Grows.exists_added (h : Grows constants later) :
    ∃ added, later = constants ++ added ∧ ∀ c ∈ added, Mints constants c := by
  induction h with
  | refl => exact ⟨[], (List.append_nil _).symm, by simp⟩
  | @added between kind text value grows ranged unheld ih =>
      obtain ⟨before, rfl, hbefore⟩ := ih
      have hothers := nameOf?_eq_none_iff.mp unheld
      have haway : ∀ k, candidate (baseName kind value) k ∉ before.map (·.name) := by
        intro k hmem
        obtain ⟨c, hc, hname⟩ := List.mem_map.mp hmem
        obtain ⟨other, hother⟩ := (hbefore c hc).ranged
        obtain ⟨i, hcandidate, -, -⟩ :=
          exists_freshName (constants.map (·.name)) (baseName c.kind c.value)
        rw [(hbefore c hc).name, hcandidate] at hname
        exact hothers c (List.mem_append_right _ hc) (candidate_inj hother ranged hname)
      refine ⟨before ++ [Literal.added (constants ++ before) kind value],
        by rw [List.append_assoc], ?_⟩
      intro c hc
      rcases List.mem_append.mp hc with hold | hnew
      · exact hbefore c hold
      · rw [List.mem_singleton.mp hnew]
        refine ⟨⟨text, ranged⟩, nameOf?_eq_none_iff.mpr ?_, ?_, rfl, rfl⟩
        · exact fun c hc => hothers c (List.mem_append_left _ hc)
        show freshName ((constants ++ before).map (·.name)) _ = _
        rw [List.map_append, freshName_append haway]
        rfl

/-! ### The literals that they are added for -/

private theorem mem_sharePiece {piece : Piece} {c : Constant}
    (hc : c ∈ (sharePiece kind constants piece).2) :
    c ∈ constants ∨
      c.kind = kind ∧ ∃ text, piece = .literal kind text ∧ value? kind text = some c.value := by
  unfold sharePiece at hc
  split at hc
  · exact .inl hc
  · rename_i found text
    split at hc
    · rename_i value hvalue
      split at hvalue
      · rename_i hfound
        have hreference : c ∈ (reference constants kind value).2 := hc
        unfold reference at hreference
        split at hreference
        · exact .inl hreference
        · rcases List.mem_append.mp hreference with hold | hnew
          · exact .inl hold
          · rw [List.mem_singleton.mp hnew]
            exact .inr ⟨rfl, text, by rw [hfound], hvalue⟩
      · exact absurd hvalue (by simp)
    · exact .inl hc

private theorem mem_sharePieces {ps : List Piece} {c : Constant}
    (hc : c ∈ (sharePieces kind constants ps).2) :
    c ∈ constants ∨
      c.kind = kind ∧ ∃ text, .literal kind text ∈ ps ∧ value? kind text = some c.value := by
  induction ps generalizing constants with
  | nil => exact .inl hc
  | cons piece rest ih =>
      rcases ih hc with hpiece | ⟨hkind, text, hmem, hvalue⟩
      · rcases mem_sharePiece hpiece with hold | ⟨hkind, text, rfl, hvalue⟩
        · exact .inl hold
        · exact .inr ⟨hkind, text, List.mem_cons_self .., hvalue⟩
      · exact .inr ⟨hkind, text, List.mem_cons_of_mem _ hmem, hvalue⟩

/-- A literal in range that no constant has the value of. -/
def Unheld (constants : List Constant) (code : List Char) (kind : ConstKind) (value : ConstValue) :
    Prop :=
  (∃ text, .literal kind text ∈ pieces none 0 (searched constants code kind) ∧
    value? kind text = some value) ∧ nameOf? constants value = none

/-- **Constants are added for the literals in range whose value none has, one for each value, and
their names are the first candidates for these values that are free at the start.** -/
theorem exists_added_share (constants : List Constant) (code : List Char) :
    ∃ added, (share constants code).2 = constants ++ added ∧ (∀ c ∈ added, Mints constants c) ∧
      ∀ kind value, Unheld constants code kind value ↔
        ∃ c ∈ added, c.kind = kind ∧ c.value = value := by
  obtain ⟨added, hadded, hmints⟩ := (grows_share constants code).exists_added
  refine ⟨added, hadded, hmints, ?_⟩
  intro kind value
  constructor
  · rintro ⟨⟨text, hmem, ranged⟩, unheld⟩
    obtain ⟨name, hname⟩ := nameOf?_searched hmem ranged
    obtain ⟨c, hc, rfl, -⟩ := exists_of_nameOf? hname
    rw [hadded] at hc
    rcases List.mem_append.mp hc with hstart | hnew
    · exact absurd rfl (nameOf?_eq_none_iff.mp unheld c hstart)
    · refine ⟨c, hnew, ?_, rfl⟩
      obtain ⟨other, hother⟩ := (hmints c hnew).ranged
      have hkind := kind?_of_value? hother
      rw [kind?_of_value? ranged] at hkind
      exact (Option.some.inj hkind).symm
  · rintro ⟨c, hc, rfl, rfl⟩
    refine ⟨?_, (hmints c hc).unheld⟩
    have hnotStart : c ∉ constants :=
      fun hstart => nameOf?_eq_none_iff.mp (hmints c hc).unheld c hstart rfl
    have hshare : c ∈ (shareKind .float (shareKind .int constants code).2
        (shareKind .int constants code).1).2 := by
      show c ∈ (share constants code).2
      rw [hadded]
      exact List.mem_append_right _ hc
    rcases mem_sharePieces hshare with hbefore | ⟨hkind, text, hmem, hvalue⟩
    · rcases mem_sharePieces hbefore with hstart | ⟨hkind, text, hmem, hvalue⟩
      · exact absurd hstart hnotStart
      · rw [hkind]
        exact ⟨text, hmem, hvalue⟩
    · rw [hkind]
      exact ⟨text, hmem, hvalue⟩

end Literal

end ShaderLink
