/-
Stripping a line byte by byte.

The marks of comments are ASCII characters, so they can be looked for among the bytes of a
line, at an offset that moves on by one byte or by two.  What is kept is sliced out between
such offsets.  The offset may well be inside a character, but where a mark stands it is on a
boundary, and so are the offsets that are remembered from there.

The scan keeps what `strip` keeps, and every range that it slices is one of the line.  The
invariant is that the offset from which nothing has been kept yet is where the characters
`done` end, and the present one where `pending` end behind them.
-/
import ShaderLink.Proofs.Source.Outline
import ShaderLink.Proofs.Text.Octets

namespace ShaderLink
namespace Comment

open Text

/-- The scan of a line from an offset on, where what stands before `start` is done with: the
characters outside comments and whether a block comment is open behind the line, or nothing when a
comment ends that was never begun. -/
def scanBytes (text : List Char) (inside : Bool) (kept : List Char) (start offset : Nat) :
    Slicing (Option (List Char × Bool)) :=
  match _h : (octets text).drop offset with
  | first :: second :: _ =>
    if inside then
      if first = '*' ∧ second = '/' then scanBytes text false kept (offset + 2) (offset + 2)
      else scanBytes text true kept start (offset + 1)
    else if first = '/' ∧ second = '/' then do
      let piece ← .slice text start offset
      return some (kept ++ piece, false)
    else if first = '/' ∧ second = '*' then do
      let piece ← .slice text start offset
      scanBytes text true (kept ++ piece) start (offset + 2)
    else if first = '*' ∧ second = '/' then return none
    else scanBytes text false kept start (offset + 1)
  | _ =>
    if inside then return some (kept, true)
    else do
      let piece ← .slice text start (octets text).length
      return some (kept ++ piece, false)
termination_by (octets text).length - offset
decreasing_by
  all_goals
    have := congrArg List.length _h
    simp only [List.length_drop, List.length_cons] at this
    omega

/-- The scan of a whole line. -/
def stripBytes (inside : Bool) (text : List Char) : Slicing (Option (List Char × Bool)) :=
  scanBytes text inside [] 0 0

variable {text kept done pending front rest more : List Char} {inside : Bool} {start offset : Nat}
  {c first second : Char}

/-! ### Steps of the scan -/

private theorem scanBytes_of_drop (h : (octets text).drop offset = first :: second :: more) :
    scanBytes text inside kept start offset =
      if inside then
        if first = '*' ∧ second = '/' then scanBytes text false kept (offset + 2) (offset + 2)
        else scanBytes text true kept start (offset + 1)
      else if first = '/' ∧ second = '/' then do
        let piece ← .slice text start offset
        return some (kept ++ piece, false)
      else if first = '/' ∧ second = '*' then do
        let piece ← .slice text start offset
        scanBytes text true (kept ++ piece) start (offset + 2)
      else if first = '*' ∧ second = '/' then return none
      else scanBytes text false kept start (offset + 1) := by
  rw [scanBytes]
  split
  · rename_i hpair
    rw [h] at hpair
    cases hpair
    rfl
  · rename_i hnone
    exact absurd h (hnone _ _ _)

/-- Where fewer than two bytes are left, the scan is at its end. -/
private theorem scanBytes_of_end (h : (octets text).length ≤ offset + 1) :
    scanBytes text inside kept start offset =
      if inside then return some (kept, true)
      else do
        let piece ← .slice text start (octets text).length
        return some (kept ++ piece, false) := by
  rw [scanBytes]
  split
  · rename_i hpair
    have := congrArg List.length hpair
    simp only [List.length_drop, List.length_cons] at this
    omega
  · rfl

/-- No mark begins at an offset. -/
def NoMarkAt (text : List Char) (inside : Bool) (offset : Nat) : Prop :=
  ∀ c, (octets text)[offset]? = some c → isMark inside c (octets text)[offset + 1]? = false

private theorem scanBytes_succ (free : NoMarkAt text inside offset) :
    scanBytes text inside kept start offset = scanBytes text inside kept start (offset + 1) := by
  by_cases hend : (octets text).length ≤ offset + 1
  · rw [scanBytes_of_end hend, scanBytes_of_end (by omega)]
  · have hdrop : (octets text).drop offset = (octets text)[offset] :: (octets text)[offset + 1] ::
        (octets text).drop (offset + 2) := by
      rw [List.drop_eq_getElem_cons (by omega), List.drop_eq_getElem_cons (by omega)]
    have hmark := free _ (List.getElem?_eq_getElem (by omega))
    rw [List.getElem?_eq_getElem (by omega)] at hmark
    rw [scanBytes_of_drop hdrop]
    cases inside with
    | true =>
        rw [if_pos rfl, if_neg]
        rintro ⟨h1, h2⟩
        simp [isMark, h1, h2] at hmark
    | false =>
        rw [if_neg (by simp), if_neg, if_neg, if_neg]
        all_goals
          rintro ⟨h1, h2⟩
          simp [isMark, h1, h2] at hmark

private theorem scanBytes_add {count : Nat}
    (free : ∀ i < count, NoMarkAt text inside (offset + i)) :
    scanBytes text inside kept start offset = scanBytes text inside kept start (offset + count) := by
  induction count with
  | zero => rfl
  | succ n ih =>
      rw [ih fun i hi => free i (by omega), scanBytes_succ (free n (by omega))]
      rfl

/-- A mark begins in front of an octet where it begins in front of the character. -/
private theorem isMark_octets (inside : Bool) (c : Char) (rest : List Char) :
    isMark inside c (octets rest).head? = isMark inside c rest.head? := by
  have hbeq (d : Char) (hd : d.toNat < 0x80) :
      ((octets rest).head? == some d) = (rest.head? == some d) := by
    rw [Bool.eq_iff_iff, beq_iff_eq, beq_iff_eq, head?_octets_eq_some_iff hd]
  rw [isMark, isMark, hbeq '/' (by decide), hbeq '*' (by decide)]

/-- **A character that begins no mark is passed over, byte by byte.** -/
theorem scanBytes_char (split : text = front ++ c :: rest)
    (mark : isMark inside c rest.head? = false) :
    scanBytes text inside kept start (byteCount front) =
      scanBytes text inside kept start (byteCount (front ++ [c])) := by
  subst split
  rw [byteCount_concat]
  refine scanBytes_add fun i hi d hd => ?_
  rw [getElem?_octets, octets_cons, List.getElem?_append_left hi] at hd
  rcases octets_cases c with ⟨hascii, hc⟩ | ⟨-, hgreat⟩
  · have hi : i = 0 := by
      rw [hc] at hi
      simpa using hi
    rw [hi, hc] at hd
    cases hd
    rw [hi, Nat.add_zero, getElem?_octets, octets_cons_of_ascii hascii, List.getElem?_cons_succ,
      ← List.head?_eq_getElem?, isMark_octets]
    exact mark
  · have hle := hgreat d (List.mem_of_getElem? hd)
    have hslash : d ≠ '/' := by rintro rfl; exact absurd hle (by decide)
    have hstar : d ≠ '*' := by rintro rfl; exact absurd hle (by decide)
    simp [isMark, hslash, hstar]

/-- The two characters of a mark are two bytes, and behind them the text goes on. -/
private theorem mark_octets (split : text = front ++ first :: second :: rest)
    (hfirst : first.toNat < 0x80) (hsecond : second.toNat < 0x80) :
    (octets text).drop (byteCount front) = first :: second :: octets rest ∧
      byteCount front + 2 = byteCount (front ++ [first, second]) := by
  constructor
  · rw [split, drop_octets, octets_cons_of_ascii hfirst, octets_cons_of_ascii hsecond]
  · rw [byteCount_append, ← length_octets [first, second], octets_cons_of_ascii hfirst,
      octets_of_ascii hsecond]
    rfl

/-- Behind the last character there is no byte. -/
theorem stop_octets (split : text = front ++ []) : byteCount front = (octets text).length := by
  rw [split, List.append_nil, length_octets]

/-! ### The scan keeps what stripping keeps -/

/-- What comes of a line that is stripped from a place on, when `kept` is kept already, and outside
comments `pending` as well. -/
def resume (inside : Bool) (kept pending rest : List Char) : Option (List Char × Bool) :=
  (strip inside rest).map (Prod.map (kept ++ (if inside then [] else pending) ++ ·) id)

private theorem resume_char (mark : isMark inside c rest.head? = false) :
    resume inside kept pending (c :: rest) = resume inside kept (pending ++ [c]) rest := by
  cases inside with
  | true =>
      rw [resume, strip_eq, outline_true_cons mark, ← strip_eq]
      rfl
  | false =>
      have hstrip : strip false (c :: rest) = (strip false rest).map (Prod.map (c :: ·) id) := by
        rw [strip_eq, strip_eq, outline_false_cons mark, Option.map_map, Option.map_map]
        rfl
      rw [resume, hstrip, Option.map_map, resume]
      refine congrArg (fun f => Option.map f (strip false rest)) (funext fun result => ?_)
      simp [Prod.map]

private theorem gives_scanBytes (split : text = done ++ pending ++ rest)
    (hstart : inside = false → byteCount done = start) :
    Slicing.Gives text (scanBytes text inside kept start (byteCount (done ++ pending)))
      (resume inside kept pending rest) := by
  fun_induction strip inside rest generalizing kept done pending start with
  | case1 rest ih =>
      obtain ⟨hdrop, hbehind⟩ := mark_octets split (by decide) (by decide)
      rw [scanBytes_of_drop hdrop, if_pos rfl, if_pos ⟨rfl, rfl⟩, hbehind, ← List.append_nil (_ ++ _)]
      exact ih (by simp [split]) fun _ => by rw [List.append_nil]
  | case2 c rest ending ih =>
      have hmark : isMark true c rest.head? = false := isMark_eq_false (by simp) (by simp) ending
      rw [scanBytes_char split hmark, resume_char hmark, List.append_assoc]
      refine ih ?_ hstart
      simp [split]
  | case3 =>
      rw [scanBytes_of_end (by rw [stop_octets split]; omega), if_pos rfl]
      have hkept : resume true kept pending [] = some (kept, true) := by simp [resume, strip]
      rw [hkept]
      exact .pure _
  | case4 rest =>
      obtain ⟨hdrop, -⟩ := mark_octets split (by decide) (by decide)
      rw [scanBytes_of_drop hdrop, if_neg (by simp), if_pos ⟨rfl, rfl⟩]
      have hpiece := Slicing.gives_slice split (hstart rfl) rfl
      have hkept : resume false kept pending ('/' :: '/' :: rest) = some (kept ++ pending, false) := by
        simp [resume, strip]
      rw [hkept]
      exact hpiece.bind (.pure _)
  | case5 rest ih =>
      obtain ⟨hdrop, hbehind⟩ := mark_octets split (by decide) (by decide)
      rw [scanBytes_of_drop hdrop, if_neg (by simp), if_neg (by simp), if_pos ⟨rfl, rfl⟩, hbehind]
      have hpiece := Slicing.gives_slice split (hstart rfl) rfl
      have hkept : resume false kept pending ('/' :: '*' :: rest) =
          resume true (kept ++ pending) ['/', '*'] rest := by
        simp [resume, strip]
      rw [hkept]
      refine hpiece.bind (ih ?_ (by simp))
      simp [split]
  | case6 rest =>
      obtain ⟨hdrop, -⟩ := mark_octets split (by decide) (by decide)
      rw [scanBytes_of_drop hdrop, if_neg (by simp), if_neg (by simp), if_neg (by simp),
        if_pos ⟨rfl, rfl⟩]
      exact .pure none
  | case7 c rest line block stray ih =>
      have hmark : isMark false c rest.head? = false :=
        isMark_eq_false (fun _ => line) (fun _ => block) stray
      rw [scanBytes_char split hmark, resume_char hmark, List.append_assoc]
      refine ih ?_ hstart
      simp [split]
  | case8 =>
      have hstop := stop_octets split
      rw [scanBytes_of_end (by omega), if_neg (by simp)]
      have hpiece := Slicing.gives_slice split (hstart rfl) hstop
      have hkept : resume false kept pending [] = some (kept ++ pending, false) := by
        simp [resume, strip]
      rw [hkept]
      exact hpiece.bind (.pure _)

/-- **The scan of a line keeps what stripping keeps, and slices it only where characters meet.** -/
theorem gives_stripBytes (inside : Bool) (text : List Char) :
    (stripBytes inside text).Gives text (strip inside text) := by
  have hresume : resume inside [] [] text = strip inside text := by
    cases h : strip inside text with
    | none => simp [resume, h]
    | some result => simp [resume, h, Prod.map]
  have hsplit : text = [] ++ [] ++ text := rfl
  have hscan : (stripBytes inside text).Gives text (resume inside [] [] text) :=
    gives_scanBytes hsplit fun _ => rfl
  rwa [hresume] at hscan

/-- Characters of two and of four bytes stand next to the marks here. -/
example : (stripBytes false "π/*é*/𝄞//2".toList).ranges = [⟨0, 2⟩, ⟨8, 12⟩] := by
  decide +kernel

end Comment

end ShaderLink
