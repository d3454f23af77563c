/-
Replacing literals by offsets.

The characters of a literal are ASCII characters, and so are the neighbours that it may not
touch.  So literals can be looked for among the bytes of the code, at an offset that moves on
by one byte, or from the beginning of a lexeme to its end.  They are kept as ranges of bytes
with a kind, and in the end each of them is sliced out of the code to be read, and the code
between two that are replaced as well.

The ranges are those of the literals that `pieces` cuts the code into, so every slice is a
part of the code.  The invariant of the replacement is that the remembered offset is where
the pieces `done` end, and that `pending` is what stands between it and the next piece.

With the scan for comments this covers all slices that are made of a text by offsets.
-/
import ShaderLink.Literal.Sharing
import ShaderLink.Proofs.Literal.Sites
import ShaderLink.Proofs.Source.ByteScan

namespace ShaderLink
namespace Literal

open Text

/-! ### Lexemes at an offset -/

/-- The offset behind the digits that stand at an offset. -/
def digitsEnd (text : List Char) (offset : Nat) : Nat :=
  offset + (((octets text).drop offset).takeWhile Char.isDigit).length

/-- The offset behind the fraction that stands at an offset. -/
def fractionEnd? (text : List Char) (offset : Nat) : Option Nat :=
  if (octets text)[offset]? = some '.' then some (digitsEnd text (offset + 1)) else none

/-- The offset behind the sign that stands at an offset. -/
def signEnd (text : List Char) (offset : Nat) : Nat :=
  if (octets text)[offset]?.any fun c => c == '+' || c == '-' then offset + 1 else offset

/-- The offset behind the exponent that stands at an offset. -/
def exponentEnd? (text : List Char) (offset : Nat) : Option Nat :=
  if (octets text)[offset]?.any fun c => c == 'e' || c == 'E' then
    let digits := signEnd text (offset + 1)
    if (octets text)[digits]?.any Char.isDigit then some (digitsEnd text digits) else none
  else none

/-- The kind of the lexeme at an offset, and the offset behind it. -/
def lexemeEnd (text : List Char) (offset : Nat) : ConstKind × Nat :=
  let whole := digitsEnd text offset
  let fraction := fractionEnd? text whole
  let mantissa := fraction.getD whole
  let exponent := exponentEnd? text mantissa
  (if fraction.isSome || exponent.isSome then .float else .int, exponent.getD mantissa)

variable {text front rest word tail : List Char} {offset : Nat} {c d : Char} {kind : ConstKind}

private theorem ofAscii_isDigit : OfAscii Char.isDigit := by
  intro c h
  exact Nat.lt_of_le_of_lt (Char.isDigit_iff_toNat.mp h).2 (by decide)

private theorem digitsEnd_eq (split : text = front ++ rest) :
    digitsEnd text (byteCount front) = byteCount (front ++ rest.takeWhile Char.isDigit) := by
  have hdigits : byteCount (rest.takeWhile Char.isDigit) = (rest.takeWhile Char.isDigit).length :=
    byteCount_of_forall ofAscii_isDigit (takeWhile_digits rest)
  rw [digitsEnd, split, drop_octets, takeWhile_octets ofAscii_isDigit, byteCount_append, hdigits]

private theorem getElem?_octets_front (split : text = front ++ rest) :
    (octets text)[byteCount front]? = (octets rest).head? := by
  rw [split, ← Nat.add_zero (byteCount front), getElem?_octets, List.head?_eq_getElem?]

private theorem byteCount_concat_of_ascii (h : c.toNat < 0x80) :
    byteCount (front ++ [c]) = byteCount front + 1 := by
  rw [byteCount_concat, octets_of_ascii h]
  rfl

/-- The offset behind so many characters of a text that goes on at an offset, if there are any. -/
def partEnd? (front rest : List Char) (length : Nat) : Option Nat :=
  if length = 0 then none else some (byteCount (front ++ rest.take length))

private theorem partEnd?_succ (front rest : List Char) (length : Nat) :
    partEnd? front rest (length + 1) = some (byteCount (front ++ rest.take (length + 1))) :=
  if_neg (Nat.succ_ne_zero _)

private theorem isSome_partEnd? (front rest : List Char) (length : Nat) :
    (partEnd? front rest length).isSome = true ↔ length ≠ 0 := by
  cases length with
  | zero => simp [partEnd?]
  | succ n => simp [partEnd?_succ]

private theorem partEnd?_getD (front rest : List Char) (length : Nat) :
    (partEnd? front rest length).getD (byteCount front) =
      byteCount (front ++ rest.take length) := by
  cases length with
  | zero => simp [partEnd?]
  | succ n => simp [partEnd?_succ]

private theorem fractionEnd?_eq (split : text = front ++ rest) :
    fractionEnd? text (byteCount front) = partEnd? front rest (fractionLength rest) := by
  have hoctet : (octets text)[byteCount front]? = some '.' ↔ rest.head? = some '.' := by
    rw [getElem?_octets_front split, head?_octets_eq_some_iff (by decide)]
  rw [fractionEnd?]
  by_cases hpoint : rest.head? = some '.'
  · obtain ⟨more, rfl⟩ := List.head?_eq_some_iff.mp hpoint
    have hdigits : digitsEnd text (byteCount (front ++ ['.'])) =
        byteCount (front ++ ['.'] ++ more.takeWhile Char.isDigit) :=
      digitsEnd_eq (by simp [split])
    rw [byteCount_concat_of_ascii (by decide)] at hdigits
    have hlength : fractionLength ('.' :: more) = (more.takeWhile Char.isDigit).length + 1 :=
      Nat.add_comm ..
    rw [if_pos (hoctet.mpr hpoint), hdigits, hlength, partEnd?_succ, List.take_succ_cons,
      take_takeWhile, List.append_assoc, List.singleton_append]
  · rw [if_neg (mt hoctet.mp hpoint), fractionLength_eq_zero_iff.mpr hpoint]
    rfl

/-- A test that two ASCII characters pass and no other. -/
private theorem ofAscii_pair {a b : Char} (ha : a.toNat < 0x80) (hb : b.toNat < 0x80) :
    OfAscii fun c => c == a || c == b := by
  intro c h
  rcases (Bool.or_eq_true ..).mp h with hc | hc
  · rwa [beq_iff_eq.mp hc]
  · rwa [beq_iff_eq.mp hc]

private theorem any_octets_front {p : Char → Bool} (h : OfAscii p) (split : text = front ++ rest) :
    (octets text)[byteCount front]?.any p = rest.head?.any p := by
  rw [getElem?_octets_front split, h.any_head?]

private theorem signEnd_eq (split : text = front ++ rest) :
    signEnd text (byteCount front) = byteCount (front ++ rest.take (signLength rest)) := by
  rw [signEnd, any_octets_front (ofAscii_pair (by decide) (by decide)) split]
  cases rest with
  | nil => simp
  | cons c more =>
      rw [List.head?_cons, Option.any_some, signLength_cons]
      by_cases hc : c = '+' ∨ c = '-'
      · have hascii : c.toNat < 0x80 := by
          rcases hc with rfl | rfl
          all_goals decide
        rw [if_pos (by simpa using hc), if_pos hc, List.take_one, List.head?_cons,
          Option.toList_some, byteCount_concat_of_ascii hascii]
      · rw [if_neg (by simpa using hc), if_neg hc, List.take_zero, List.append_nil]

private theorem any_digit_drop_sign (text : List Char) :
    (text.drop (signLength text)).head?.any Char.isDigit = true ↔ digitsBehindSign text ≠ 0 := by
  rw [digitsBehindSign]
  cases text.drop (signLength text) with
  | nil => simp
  | cons c more => by_cases hc : c.isDigit = true <;> simp [hc]

private theorem exponentEnd?_eq (split : text = front ++ rest) :
    exponentEnd? text (byteCount front) = partEnd? front rest (exponentLength rest) := by
  rw [exponentEnd?, any_octets_front (ofAscii_pair (by decide) (by decide)) split]
  cases rest with
  | nil => rfl
  | cons c more =>
      rw [List.head?_cons, Option.any_some, exponentLength_cons]
      by_cases hletter : c = 'e' ∨ c = 'E'
      · have hascii : c.toNat < 0x80 := by
          rcases hletter with rfl | rfl
          all_goals decide
        -- The sign is looked for behind the letter, and the digits are behind the sign.
        have hbehind : text = front ++ [c] ++ more := by simp [split]
        have hsign := signEnd_eq hbehind
        have hdigits : text = front ++ [c] ++ more.take (signLength more) ++
            more.drop (signLength more) := by
          rw [List.append_assoc _ (List.take ..), List.take_append_drop, hbehind]
        rw [byteCount_concat_of_ascii hascii] at hsign
        rw [if_pos (by simpa using hletter), hsign]
        dsimp only
        rw [any_octets_front ofAscii_isDigit hdigits, digitsEnd_eq hdigits]
        by_cases hnumber : digitsBehindSign more = 0
        · have hnone : ¬((c = 'e' ∨ c = 'E') ∧ digitsBehindSign more ≠ 0) := fun h => h.2 hnumber
          rw [if_neg (mt (any_digit_drop_sign more).mp (not_not.mpr hnumber)), if_neg hnone]
          rfl
        · have hlength : 1 + signLength more + digitsBehindSign more =
              signLength more + digitsBehindSign more + 1 := by omega
          rw [if_pos ((any_digit_drop_sign more).mpr hnumber), if_pos ⟨hletter, hnumber⟩, hlength,
            partEnd?_succ, List.take_succ_cons, List.take_add, digitsBehindSign, take_takeWhile]
          simp
      · rw [if_neg (by simpa using hletter), if_neg fun h => hletter h.1]
        rfl

/-- **A lexeme looked for at an offset is that of the text there, and ends where it ends.** -/
theorem lexemeEnd_eq (split : text = front ++ rest) :
    lexemeEnd text (byteCount front) =
      ((lexeme rest).1, byteCount (front ++ rest.take (lexeme rest).2)) := by
  rw [lexemeEnd, lexeme]
  dsimp only
  have hwhole := digitsEnd_eq split
  rw [← take_takeWhile] at hwhole
  generalize (rest.takeWhile Char.isDigit).length = whole at hwhole ⊢
  have hmore : text = front ++ rest.take whole ++ rest.drop whole := by simp [split]
  have hfraction := fractionEnd?_eq hmore
  generalize fractionLength (rest.drop whole) = fraction at hfraction ⊢
  have hlast : text = front ++ rest.take (whole + fraction) ++ rest.drop (whole + fraction) := by
    simp [split]
  have hexponent := exponentEnd?_eq hlast
  generalize exponentLength (rest.drop (whole + fraction)) = exponent at hexponent ⊢
  have htake (n m : Nat) :
      front ++ rest.take n ++ (rest.drop n).take m = front ++ rest.take (n + m) := by
    rw [List.append_assoc, List.take_add]
  rw [hwhole, hfraction, partEnd?_getD, htake, hexponent, partEnd?_getD, htake]
  by_cases hint : fraction = 0 ∧ exponent = 0
  · rw [if_pos hint, hint.1, hint.2]
    rfl
  · rw [if_neg hint, if_pos]
    rw [Bool.or_eq_true, isSome_partEnd?, isSome_partEnd?]
    exact not_and_or.mp hint

/-! ### Literals at an offset -/

/-- Whether a lexeme begins at an offset. -/
def startsAt (text : List Char) (offset : Nat) : Bool :=
  (octets text)[offset]?.any Char.isDigit ||
    ((octets text)[offset]? == some '.' && (octets text)[offset + 1]?.any Char.isDigit)

/-- Whether what is in front of an offset is a character that a literal may not touch. -/
def attachedAt (text : List Char) (offset : Nat) : Bool :=
  0 < offset && attaches (octets text)[offset - 1]?

private theorem startsAt_eq (split : text = front ++ rest) :
    startsAt text (byteCount front) = startsLexeme rest := by
  rw [startsAt, any_octets_front ofAscii_isDigit split]
  have hpoint : ((octets text)[byteCount front]? == some '.') = (rest.head? == some '.') := by
    rw [Bool.eq_iff_iff, beq_iff_eq, beq_iff_eq, getElem?_octets_front split,
      head?_octets_eq_some_iff (by decide)]
  rw [hpoint]
  cases rest with
  | nil => rfl
  | cons c more =>
      by_cases hc : c = '.'
      · subst hc
        have hbehind : text = front ++ ['.'] ++ more := by simp [split]
        have hnext : byteCount front + 1 = byteCount (front ++ ['.']) :=
          (byteCount_concat_of_ascii (by decide)).symm
        rw [hnext, any_octets_front ofAscii_isDigit hbehind]
        rfl
      · rw [startsLexeme_cons hc]
        simp [hc]

private theorem ofAscii_isAlphanum : OfAscii Char.isAlphanum := by
  intro c h
  have hcase : ((c.isUpper || c.isLower) || c.isDigit) = true := h
  rw [Bool.or_eq_true, Bool.or_eq_true] at hcase
  rcases hcase with (hupper | hlower) | hdigit
  · obtain ⟨-, hto⟩ : 'A'.val ≤ c.val ∧ c.val ≤ 'Z'.val := of_decide_eq_true hupper
    exact Nat.lt_of_le_of_lt (UInt32.le_iff_toNat_le.mp hto) (by decide)
  · obtain ⟨-, hto⟩ := Bool.and_eq_true_iff.mp hlower
    have hto : c.val ≤ 'z'.val := of_decide_eq_true hto
    exact Nat.lt_of_le_of_lt (UInt32.le_iff_toNat_le.mp hto) (by decide)
  · exact ofAscii_isDigit c hdigit

private theorem ofAscii_attaches : OfAscii fun c => Text.isPlainWordChar c || c == '.' := by
  intro c h
  simp only [Text.isPlainWordChar, Bool.or_eq_true, beq_iff_eq] at h
  rcases h with (hword | rfl) | rfl
  · exact ofAscii_isAlphanum c hword
  · decide
  · decide

private theorem attachedAt_eq (split : text = front ++ rest) :
    attachedAt text (byteCount front) = attaches front.getLast? := by
  rw [attachedAt]
  by_cases hfront : front = []
  · rw [hfront]
    rfl
  · have hpos := byteCount_pos hfront
    rw [decide_eq_true hpos, Bool.true_and, split, octets_append,
      List.getElem?_append_left (by rw [length_octets]; omega), ← length_octets,
      ← List.getLast?_eq_getElem?]
    exact ofAscii_attaches.any_getLast? front

/-- Whether at an offset stands a character that a literal may not touch. -/
def attachesAt (text : List Char) (offset : Nat) : Slicing Bool :=
  if offset = (octets text).length then return false
  else do
    let next ← .octet text offset
    return attaches (some next)

private theorem gives_attachesAt (split : text = front ++ rest) :
    Slicing.Gives text (attachesAt text (byteCount front)) (attaches rest.head?) := by
  rw [attachesAt]
  by_cases hrest : rest = []
  · subst hrest
    rw [if_pos (Comment.stop_octets split)]
    exact .pure _
  · have hlength : 0 < (octets rest).length := by
      rw [length_octets]
      exact byteCount_pos hrest
    obtain ⟨d, more, hoctets⟩ := List.exists_cons_of_length_pos hlength
    have hd : (octets text)[byteCount front]? = some d := by
      rw [getElem?_octets_front split, hoctets]
      rfl
    have hattaches : attaches (some d) = attaches rest.head? := by
      rw [← hd, getElem?_octets_front split]
      exact ofAscii_attaches.any_head? rest
    rw [if_neg, ← hattaches]
    · exact (Slicing.gives_octet hd).bind (.pure _)
    · intro hstop
      rw [hstop, List.getElem?_eq_none (Nat.le_refl _)] at hd
      cases hd

private theorem le_digitsEnd (text : List Char) (offset : Nat) : offset ≤ digitsEnd text offset :=
  Nat.le_add_right ..

private theorem lt_digitsEnd (h : (octets text)[offset]?.any Char.isDigit = true) :
    offset < digitsEnd text offset := by
  obtain ⟨d, hd, hdigit⟩ := (Option.any_eq_true ..).mp h
  obtain ⟨hlt, rfl⟩ := List.getElem?_eq_some_iff.mp hd
  rw [digitsEnd, List.drop_eq_getElem_cons hlt, List.takeWhile_cons_of_pos hdigit,
    List.length_cons]
  omega

private theorem lt_of_fractionEnd? {stop : Nat} (h : fractionEnd? text offset = some stop) :
    offset < stop := by
  rw [fractionEnd?] at h
  split at h
  · cases h
    exact le_digitsEnd ..
  · exact absurd h (by simp)

private theorem lt_of_exponentEnd? {stop : Nat} (h : exponentEnd? text offset = some stop) :
    offset < stop := by
  have hsign : offset + 1 ≤ signEnd text (offset + 1) := by
    rw [signEnd]
    split
    · exact Nat.le_succ _
    · exact Nat.le_refl _
  rw [exponentEnd?] at h
  split at h
  · dsimp only at h
    split at h
    · cases h
      exact Nat.lt_of_lt_of_le hsign (le_digitsEnd ..)
    · exact absurd h (by simp)
  · exact absurd h (by simp)

/-- A lexeme that begins at an offset ends behind it. -/
private theorem lt_lexemeEnd (starts : startsAt text offset = true) :
    offset < (lexemeEnd text offset).2 := by
  have hmantissa : offset < (fractionEnd? text (digitsEnd text offset)).getD
      (digitsEnd text offset) := by
    cases hfraction : fractionEnd? text (digitsEnd text offset) with
    | some stop => exact Nat.lt_of_le_of_lt (le_digitsEnd ..) (lt_of_fractionEnd? hfraction)
    | none =>
        rcases (Bool.or_eq_true ..).mp starts with hdigit | hpoint
        · exact lt_digitsEnd hdigit
        · -- Digits in front of the point, or else it would begin a fraction.
          refine Nat.lt_of_le_of_ne (le_digitsEnd ..) fun hnone => ?_
          change offset = digitsEnd text offset at hnone
          rw [← hnone, fractionEnd?, if_pos] at hfraction
          · cases hfraction
          · exact beq_iff_eq.mp ((Bool.and_eq_true ..).mp hpoint).1
  rw [lexemeEnd]
  dsimp only
  cases hexponent : exponentEnd? text ((fractionEnd? text (digitsEnd text offset)).getD
      (digitsEnd text offset)) with
  | none => exact hmantissa
  | some stop => exact Nat.lt_trans hmantissa (lt_of_exponentEnd? hexponent)

/-- A literal that has been found: its bytes and its kind. -/
structure Place where
  range : ByteRange
  kind : ConstKind
  deriving DecidableEq

/-- The literals from an offset on. -/
def places (text : List Char) (offset : Nat) : Slicing (List Place) :=
  if _inside : offset < (octets text).length then
    if _starts : startsAt text offset = true ∧ attachedAt text offset = false then do
      let found := lexemeEnd text offset
      let attached ← attachesAt text found.2
      let later ← places text found.2
      return if attached then later else ⟨⟨offset, found.2⟩, found.1⟩ :: later
    else places text (offset + 1)
  else return []
termination_by (octets text).length - offset
decreasing_by
  · have := lt_lexemeEnd _starts.1
    omega
  · omega

/-! ### The scan finds the literals -/

private theorem places_succ (inside : offset < (octets text).length)
    (idle : startsAt text offset = true → attachedAt text offset = true) :
    places text offset = places text (offset + 1) := by
  rw [places, dif_pos inside, dif_neg]
  rintro ⟨hstarts, hfree⟩
  rw [idle hstarts] at hfree
  cases hfree

private theorem places_add {count : Nat} (idle : ∀ i < count, offset + i < (octets text).length ∧
    (startsAt text (offset + i) = true → attachedAt text (offset + i) = true)) :
    places text offset = places text (offset + count) := by
  induction count with
  | zero => rfl
  | succ n ih =>
      obtain ⟨hinside, hidle⟩ := idle n (Nat.lt_succ_self n)
      rw [ih fun i hi => idle i (Nat.lt_succ_of_lt hi), places_succ hinside hidle]
      rfl

private theorem startsAt_of_great (h : (octets text)[offset]? = some d) (great : 0x80 ≤ d.toNat) :
    startsAt text offset = false := by
  have hdigit : d.isDigit = false := by
    rw [← Bool.not_eq_true]
    intro hd
    have := ofAscii_isDigit d hd
    omega
  have hpoint : d ≠ '.' := by
    rintro rfl
    exact absurd great (by decide)
  simp [startsAt, h, hdigit, hpoint]

/-- **A character at which no literal is looked for is passed over, byte by byte.** -/
theorem places_char (split : text = front ++ c :: rest)
    (idle : startsLexeme (c :: rest) = true → attaches front.getLast? = true) :
    places text (byteCount front) = places text (byteCount (front ++ [c])) := by
  rw [byteCount_concat]
  refine places_add fun i hi => ⟨?_, ?_⟩
  · rw [split, octets_append, octets_cons, List.length_append, List.length_append, length_octets]
    omega
  · cases i with
    | zero =>
        rw [Nat.add_zero, startsAt_eq split, attachedAt_eq split]
        exact idle
    | succ i =>
        -- A character of more than one byte is no ASCII character.
        have hoctet : (octets text)[byteCount front + (i + 1)]? = some (octets [c])[i + 1] := by
          rw [split, getElem?_octets, octets_cons, List.getElem?_append_left hi,
            List.getElem?_eq_getElem hi]
        rcases octets_cases c with ⟨-, hc⟩ | ⟨-, hgreat⟩
        · rw [hc] at hi
          simp at hi
        · rw [startsAt_of_great hoctet (hgreat _ (List.getElem_mem hi))]
          intro h
          cases h

/-- **A lexeme is passed over, and kept when no character that it may not touch is behind it.** -/
theorem places_lexeme (split : text = front ++ word ++ tail) (spans : Spans kind word tail)
    (free : attaches front.getLast? = false) :
    places text (byteCount front) = do
      let attached ← attachesAt text (byteCount (front ++ word))
      let later ← places text (byteCount (front ++ word))
      return if attached then later
        else ⟨⟨byteCount front, byteCount (front ++ word)⟩, kind⟩ :: later := by
  rw [List.append_assoc] at split
  have hstarts : startsAt text (byteCount front) = true := by
    rw [startsAt_eq split]
    exact spans.starts
  have hfree : attachedAt text (byteCount front) = false := by
    rw [attachedAt_eq split]
    exact free
  have hfound : lexemeEnd text (byteCount front) = (kind, byteCount (front ++ word)) := by
    rw [lexemeEnd_eq split, spans.covers, List.take_left]
  have hinside : byteCount front < (octets text).length := by
    rw [length_octets, split, byteCount_append, byteCount_append]
    have := byteCount_pos spans.ne_nil
    omega
  rw [places, dif_pos hinside, dif_pos ⟨hstarts, hfree⟩, hfound]

/-- The place of a literal among the pieces of code. -/
def Site.place (site : Site) : Place := ⟨⟨site.start, site.stop⟩, site.kind⟩

private theorem gives_places {touching : Bool} {ps before : List Piece} (cut : Cut touching rest ps)
    (split : text = front ++ rest) (hfront : attaches front.getLast? = touching)
    (hbefore : before.flatMap Piece.text = front) :
    Slicing.Gives text (places text (byteCount front)) ((sites before ps).map Site.place) := by
  induction cut generalizing front before with
  | nil touching =>
      rw [places, dif_neg (by rw [Comment.stop_octets split]; omega)]
      exact .pure _
  | verbatim starts more ih =>
      rename_i touching c rest qs
      rw [places_char split (hfront ▸ starts), sites]
      refine ih (by simp [split]) (by simp) ?_
      rw [List.flatMap_append, hbefore]
      rfl
  | literal spans free more ih =>
      rename_i found lexeme behind qs
      rw [← List.append_assoc] at split
      have hbehind :
          (before ++ [Piece.literal found lexeme]).flatMap Piece.text = front ++ lexeme := by
        rw [List.flatMap_append, hbefore, List.flatMap_singleton]
        rfl
      have hplace : Site.place ⟨before, found, lexeme⟩ =
          ⟨⟨byteCount front, byteCount (front ++ lexeme)⟩, found⟩ := by
        rw [byteCount_append, ← hbefore]
        rfl
      have hattaches := gives_attachesAt split
      rw [free] at hattaches
      rw [places_lexeme split spans hfront, sites, List.map_cons, hplace]
      exact hattaches.bind ((ih split (Cut.attaches_behind front spans) hbehind).bind (.pure _))
  | attached spans touched more ih =>
      rename_i found lexeme behind qs
      rw [← List.append_assoc] at split
      have hbehind :
          (before ++ lexeme.map Piece.verbatim).flatMap Piece.text = front ++ lexeme := by
        rw [List.flatMap_append, hbefore, flatMap_text_verbatim]
      have hattaches := gives_attachesAt split
      rw [touched] at hattaches
      rw [places_lexeme split spans hfront, sites_verbatim]
      exact hattaches.bind ((ih split (Cut.attaches_behind front spans) hbehind).bind (.pure _))

/-! ### Replacing what was found -/

/-- The text from an offset on with the literals at some places replaced, and the constants then;
`out` is what the text before has become. -/
def replaceFrom (text : List Char) (kind : ConstKind) (constants : List Constant)
    (out : List Char) (last : Nat) : List Place → Slicing (List Char × List Constant)
  | [] => do
    let rest ← .slice text last (octets text).length
    return (out ++ rest, constants)
  | place :: more => do
    let word ← .slice text place.range.start place.range.stop
    match value? kind word with
    | some value => do
      let (name, constants) := reference constants kind value
      let gap ← .slice text last place.range.start
      replaceFrom text kind constants (out ++ gap ++ name.toList) place.range.stop more
    | none => replaceFrom text kind constants out last more

/-- A text with its literals of a kind replaced, and the constants then. -/
def replaceBytes (kind : ConstKind) (constants : List Constant) (text : List Char) :
    Slicing (List Char × List Constant) := do
  let found ← places text 0
  replaceFrom text kind constants [] 0 (found.filter (·.kind = kind))

variable {constants : List Constant} {done pending out : List Char} {ps before : List Piece}

/-- What comes of a replacement when the pieces that are left are shared behind what stands. -/
def resumeSharing (kind : ConstKind) (constants : List Constant) (out pending : List Char)
    (ps : List Piece) : List Char × List Constant :=
  ((sharePieces kind constants ps).map (out ++ pending ++ ·) id)

private theorem resumeSharing_kept {piece : Piece} (kept : sharePiece kind constants piece =
    (piece.text, constants)) :
    resumeSharing kind constants out pending (piece :: ps) =
      resumeSharing kind constants out (pending ++ piece.text) ps := by
  simp [resumeSharing, sharePieces, kept, Prod.map]

private theorem resumeSharing_value {value : ConstValue} (ranged : value? kind word = some value) :
    resumeSharing kind constants out pending (.literal kind word :: ps) =
      resumeSharing kind (reference constants kind value).2
        (out ++ pending ++ (reference constants kind value).1.toList) [] ps := by
  simp [resumeSharing, sharePieces, sharePiece, ranged, Prod.map]

/-- **Replacing the literals of pieces at their places is sharing them.** -/
theorem gives_replaceFrom (split : text = done ++ pending ++ ps.flatMap Piece.text)
    (hbefore : before.flatMap Piece.text = done ++ pending) :
    Slicing.Gives text
      (replaceFrom text kind constants out (byteCount done)
        (((sites before ps).map Site.place).filter (·.kind = kind)))
      (resumeSharing kind constants out pending ps) := by
  induction ps generalizing done pending out before constants with
  | nil =>
      have hrest := Slicing.gives_slice split rfl (Comment.stop_octets split)
      have hnil : resumeSharing kind constants out pending [] = (out ++ pending, constants) := by
        simp [resumeSharing, sharePieces]
      rw [hnil]
      exact hrest.bind (.pure _)
  | cons piece more ih =>
      have hsplit : text = done ++ (pending ++ piece.text) ++ more.flatMap Piece.text := by
        simp [split]
      have hbehind : (before ++ [piece]).flatMap Piece.text = done ++ (pending ++ piece.text) := by
        rw [List.flatMap_append, hbefore, List.flatMap_singleton, List.append_assoc]
      cases piece with
      | verbatim c =>
          rw [resumeSharing_kept rfl]
          exact ih hsplit hbehind
      | literal found word =>
          rw [sites, List.map_cons]
          by_cases hkind : found = kind
          · subst hkind
            have hstart : (Site.place ⟨before, found, word⟩).range.start =
                byteCount (done ++ pending) := congrArg byteCount hbefore
            have hstop : (Site.place ⟨before, found, word⟩).range.stop =
                byteCount (done ++ pending ++ word) := by
              rw [byteCount_append, ← hbefore]
              rfl
            have hword : text = done ++ pending ++ word ++ more.flatMap Piece.text := by
              simp [split, Piece.text]
            rw [List.filter_cons_of_pos (by simp [Site.place]), replaceFrom, hstart, hstop]
            refine (Slicing.gives_slice hword rfl rfl).bind ?_
            cases hvalue : value? found word with
            | none =>
                rw [resumeSharing_kept (by simp [sharePiece, hvalue, Piece.text])]
                exact ih hsplit hbehind
            | some value =>
                rw [resumeSharing_value hvalue]
                have hgap : text = done ++ pending ++ (word ++ more.flatMap Piece.text) := by
                  simp [hword]
                have hlater : text = done ++ pending ++ word ++ [] ++ more.flatMap Piece.text := by
                  simp [hword]
                refine (Slicing.gives_slice hgap rfl rfl).bind (ih hlater ?_)
                simp [hbefore, Piece.text]
          · rw [List.filter_cons_of_neg (by simp [Site.place, hkind]),
              resumeSharing_kept (by simp [sharePiece, hkind, Piece.text])]
            exact ih hsplit hbehind

/-- **Replacing the literals of a text is sharing them, and slices it only where characters
meet.** -/
theorem gives_replaceBytes (kind : ConstKind) (constants : List Constant) (text : List Char) :
    (replaceBytes kind constants text).Gives text (shareKind kind constants text) := by
  have hcut : Cut false text (pieces none 0 text) := cut_pieces none text
  have hpieces : (pieces none 0 text).flatMap Piece.text = text := flatMap_text_pieces none 0 text
  have hplaces : Slicing.Gives text (places text (byteCount []))
      ((sites [] (pieces none 0 text)).map Site.place) := gives_places hcut rfl rfl rfl
  have hshare : shareKind kind constants text =
      resumeSharing kind constants [] [] (pieces none 0 text) := by
    simp [resumeSharing, shareKind, Prod.map]
  have hsplit : text = [] ++ [] ++ (pieces none 0 text).flatMap Piece.text := hpieces.symm
  rw [hshare]
  exact hplaces.bind (gives_replaceFrom hsplit rfl)

/-- **Stripping a line and replacing literals slice the text by ranges of the text only.**  Such a
range is ordered, within bounds, and on boundaries of characters, and these are just the ranges
that the text can be sliced by. -/
theorem slices_in_range (text : List Char) :
    (∀ range, (slice? text range).isSome ↔ range.IsIn text) ∧
    (∀ inside, (Comment.stripBytes inside text).Gives text (Comment.strip inside text)) ∧
    ∀ kind constants,
      (replaceBytes kind constants text).Gives text (shareKind kind constants text) := by
  refine ⟨fun range => isSome_slice?_iff, ?_, ?_⟩
  · intro inside
    exact Comment.gives_stripBytes inside text
  · intro kind constants
    exact gives_replaceBytes kind constants text

/-- Characters of two and of four bytes touch the numbers here: each number is sliced, then the
text in front of it, and in the end the text behind the last. -/
example : (replaceBytes .int [] "π1é23𝄞".toList).ranges =
    [⟨2, 3⟩, ⟨0, 2⟩, ⟨5, 7⟩, ⟨3, 5⟩, ⟨7, 11⟩] := by
  decide +kernel

end Literal

end ShaderLink
