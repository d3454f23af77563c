/-
Texts by their bytes.

In UTF-8 a byte below 128 is an ASCII character, and all bytes of every other character are
greater.  So a scan that looks for ASCII characters only may go through the bytes of a text
one by one.  An octet is such a byte, read as the character of its number, and a test for
ASCII characters finds the same octets as characters.

A text is sliced by ranges of bytes.  Such a range has to be ordered, to lie within the text,
and to begin and end on boundaries of characters.  A `Slicing` is a run that slices a text as
it goes: it records all the ranges that it asks for, and comes to nothing when one of them is
no range of the text, or when a byte is asked for that is not there.
-/
import Mathlib.Data.List.Basic

namespace ShaderLink

namespace Text

variable {text rest a b piece : List Char} {c d : Char} {p : Char → Bool}

/-- The number of bytes that a text takes. -/
def byteCount (text : List Char) : Nat := (String.ofList text).utf8ByteSize

theorem byteCount_append (a b : List Char) :
    byteCount (a ++ b) = byteCount a + byteCount b := by
  rw [byteCount, String.ofList_append, String.utf8ByteSize_append]
  rfl

theorem byteCount_pos {text : List Char} (nonempty : text ≠ []) : 0 < byteCount text := by
  rw [Nat.pos_iff_ne_zero, byteCount, Ne, String.utf8ByteSize_eq_zero_iff,
    String.ofList_eq_empty_iff]
  exact nonempty

/-! ### Octets -/

/-- The bytes of a text in UTF-8, each read as the character of its number. -/
def octets (text : List Char) : List Char :=
  (text.flatMap String.utf8EncodeChar).map Char.ofUInt8

theorem length_octets (text : List Char) : (octets text).length = byteCount text := by
  rw [octets, List.length_map, byteCount]
  show _ = (List.utf8Encode text).size
  rw [List.utf8Encode, List.size_toByteArray]

@[simp] theorem octets_append (a b : List Char) : octets (a ++ b) = octets a ++ octets b := by
  rw [octets, List.flatMap_append, List.map_append]
  rfl

theorem octets_cons (c : Char) (rest : List Char) : octets (c :: rest) = octets [c] ++ octets rest :=
  octets_append [c] rest

private theorem octets_ne_nil (c : Char) : octets [c] ≠ [] := by
  simp [octets]

/-- The octet of an ASCII character is that character. -/
theorem octets_of_ascii (h : c.toNat < 0x80) : octets [c] = [c] := by
  have hval : c.val.toNat < 0x80 := h
  have hsize : c.utf8Size = 1 := by
    rw [Char.utf8Size_eq_one_iff, UInt32.le_iff_toNat_le]
    exact Nat.le_of_lt_succ h
  rw [octets, List.flatMap_singleton, String.utf8EncodeChar_eq_singleton hsize, List.map_singleton]
  refine congrArg (fun d => [d]) (Char.ext (UInt32.toNat_inj.mp ?_))
  show c.val.toUInt8.toUInt32.toNat = c.val.toNat
  rw [UInt8.toNat_toUInt32, UInt32.toNat_toUInt8, Nat.mod_eq_of_lt (by omega)]

/-- No octet of another character is one. -/
private theorem le_of_mem_octets (h : 0x80 ≤ c.toNat) (hd : d ∈ octets [c]) : 0x80 ≤ d.toNat := by
  have hval : ¬ c.val.toNat ≤ 0x7f := by
    have : 0x80 ≤ c.val.toNat := h
    omega
  rw [octets, List.flatMap_singleton, List.mem_map] at hd
  obtain ⟨byte, hbyte, rfl⟩ := hd
  show 0x80 ≤ byte.toUInt32.toNat
  rw [UInt8.toNat_toUInt32]
  have hgreat (n : Nat) (hle : 0x80 ≤ n) (hlt : n < 0x100) : 0x80 ≤ (UInt8.ofNat n).toNat := by
    rwa [UInt8.toNat_ofNat', Nat.mod_eq_of_lt hlt]
  unfold String.utf8EncodeChar at hbyte
  dsimp only at hbyte
  rw [if_neg hval] at hbyte
  split at hbyte
  · rcases List.mem_cons.mp hbyte with rfl | hbyte
    · exact hgreat _ (by omega) (by omega)
    · rw [List.mem_singleton.mp hbyte]
      exact hgreat _ (by omega) (by omega)
  · split at hbyte
    all_goals
      simp only [List.mem_cons, List.not_mem_nil, or_false] at hbyte
    · rcases hbyte with rfl | rfl | rfl
      all_goals exact hgreat _ (by omega) (by omega)
    · rcases hbyte with rfl | rfl | rfl | rfl
      all_goals exact hgreat _ (by omega) (by omega)

/-- A character is its only octet, or all its octets are greater than any ASCII character. -/
theorem octets_cases (c : Char) :
    (c.toNat < 0x80 ∧ octets [c] = [c]) ∨ (0x80 ≤ c.toNat ∧ ∀ d ∈ octets [c], 0x80 ≤ d.toNat) := by
  by_cases h : c.toNat < 0x80
  · exact .inl ⟨h, octets_of_ascii h⟩
  · exact .inr ⟨by omega, fun d hd => le_of_mem_octets (by omega) hd⟩

/-- Behind the octets of a text stand those of what goes on behind it. -/
theorem drop_octets (a b : List Char) : (octets (a ++ b)).drop (byteCount a) = octets b := by
  rw [octets_append, ← length_octets, List.drop_left]

theorem getElem?_octets (a b : List Char) (i : Nat) :
    (octets (a ++ b))[byteCount a + i]? = (octets b)[i]? := by
  rw [← List.getElem?_drop, drop_octets]

theorem byteCount_concat (a : List Char) (c : Char) :
    byteCount (a ++ [c]) = byteCount a + (octets [c]).length := by
  rw [byteCount_append, length_octets]

theorem octets_cons_of_ascii (h : c.toNat < 0x80) (rest : List Char) :
    octets (c :: rest) = c :: octets rest := by
  rw [octets_cons, octets_of_ascii h]
  rfl

/-- The first octet is an ASCII character when the first character is it. -/
theorem head?_octets_eq_some_iff (ha : d.toNat < 0x80) :
    (octets text).head? = some d ↔ text.head? = some d := by
  cases text with
  | nil => rfl
  | cons c rest =>
      rcases octets_cases c with ⟨-, hc⟩ | ⟨hle, hgreat⟩
      · rw [octets_cons, hc]
        rfl
      · refine iff_of_false ?_ ?_
        · rw [octets_cons, List.head?_append_of_ne_nil _ (octets_ne_nil c)]
          intro hhead
          have := hgreat d (List.mem_of_head? hhead)
          omega
        · rintro ⟨⟩
          omega

private theorem getLast?_octets_eq_some_iff (ha : d.toNat < 0x80) :
    (octets text).getLast? = some d ↔ text.getLast? = some d := by
  rcases List.eq_nil_or_concat text with rfl | ⟨front, c, rfl⟩
  · rfl
  · rw [List.concat_eq_append, octets_append, List.getLast?_append_of_ne_nil _ (octets_ne_nil c),
      List.getLast?_concat]
    rcases octets_cases c with ⟨-, hc⟩ | ⟨hle, hgreat⟩
    · rw [hc]
      rfl
    · refine iff_of_false ?_ ?_
      · intro hlast
        have := hgreat d (List.mem_of_getLast? hlast)
        omega
      · rintro ⟨⟩
        omega

/-! ### Tests for ASCII characters -/

/-- A test that only ASCII characters pass. -/
def OfAscii (p : Char → Bool) : Prop := ∀ c, p c = true → c.toNat < 0x80

private theorem OfAscii.any_eq {x y : Option Char} (h : OfAscii p)
    (same : ∀ d, d.toNat < 0x80 → (x = some d ↔ y = some d)) : x.any p = y.any p := by
  rw [Bool.eq_iff_iff, Option.any_eq_true, Option.any_eq_true]
  constructor
  · rintro ⟨d, hd, hp⟩
    exact ⟨d, (same d (h d hp)).mp hd, hp⟩
  · rintro ⟨d, hd, hp⟩
    exact ⟨d, (same d (h d hp)).mpr hd, hp⟩

theorem OfAscii.any_head? (h : OfAscii p) (text : List Char) :
    (octets text).head?.any p = text.head?.any p :=
  h.any_eq fun _ hd => head?_octets_eq_some_iff hd

theorem OfAscii.any_getLast? (h : OfAscii p) (text : List Char) :
    (octets text).getLast?.any p = text.getLast?.any p :=
  h.any_eq fun _ hd => getLast?_octets_eq_some_iff hd

private theorem octets_of_forall (h : OfAscii p) (hword : ∀ c ∈ text, p c = true) :
    octets text = text := by
  induction text with
  | nil => rfl
  | cons c rest ih =>
      obtain ⟨hc, hrest⟩ := List.forall_mem_cons.mp hword
      rw [octets_cons_of_ascii (h c hc), ih hrest]

theorem byteCount_of_forall (h : OfAscii p) (hword : ∀ c ∈ text, p c = true) :
    byteCount text = text.length := by
  rw [← length_octets, octets_of_forall h hword]

/-- The same run of characters passes the test at the start of a text and of its octets. -/
theorem takeWhile_octets (h : OfAscii p) (text : List Char) :
    (octets text).takeWhile p = text.takeWhile p := by
  induction text with
  | nil => rfl
  | cons c rest ih =>
      by_cases hc : p c = true
      · rw [octets_cons_of_ascii (h c hc), List.takeWhile_cons_of_pos hc,
          List.takeWhile_cons_of_pos hc, ih]
      · have hhead := h.any_head? (c :: rest)
        rw [List.takeWhile_cons_of_neg hc]
        cases hoctets : octets (c :: rest) with
        | nil => rfl
        | cons d more =>
            rw [hoctets] at hhead
            have hd : ¬ p d = true := by
              intro hd
              exact hc (by simpa [hd] using hhead)
            rw [List.takeWhile_cons_of_neg hd]

/-! ### Slices -/

/-- A range of bytes, from one offset to another. -/
structure ByteRange where
  start : Nat
  stop : Nat
  deriving DecidableEq

/-- A range that a text can be sliced by. -/
structure ByteRange.IsIn (text : List Char) (range : ByteRange) : Prop where
  ordered : range.start ≤ range.stop
  bounded : range.stop ≤ byteCount text
  /-- It begins on a boundary of characters. -/
  starts : (String.Pos.Raw.mk range.start).IsValid (String.ofList text)
  /-- It ends on one. -/
  stops : (String.Pos.Raw.mk range.stop).IsValid (String.ofList text)

/-- The text before an offset and the text behind it, when no character is cut in two. -/
def splitAt? (offset : Nat) : List Char → Option (List Char × List Char)
  | [] => if offset = 0 then some ([], []) else none
  | c :: rest =>
    if offset = 0 then some ([], c :: rest)
    else if c.utf8Size ≤ offset then
      (splitAt? (offset - c.utf8Size) rest).map (Prod.map (c :: ·) id)
    else none

/-- The part of a text in a range. -/
def slice? (text : List Char) (range : ByteRange) : Option (List Char) := do
  let (front, _) ← splitAt? range.stop text
  let (_, piece) ← splitAt? range.start front
  return piece

private theorem byteCount_cons (c : Char) (rest : List Char) :
    byteCount (c :: rest) = c.utf8Size + byteCount rest := by
  rw [← List.singleton_append, byteCount_append, ← length_octets [c], octets, List.length_map,
    List.flatMap_singleton, String.length_utf8EncodeChar]

private theorem byteCount_eq_zero_iff : byteCount text = 0 ↔ text = [] := by
  constructor
  · intro hzero
    by_contra hfull
    have := byteCount_pos hfull
    omega
  · rintro rfl
    rfl

private theorem splitAt?_eq_some_iff {offset : Nat} :
    splitAt? offset text = some (a, b) ↔ text = a ++ b ∧ byteCount a = offset := by
  induction text generalizing offset a with
  | nil =>
      rw [splitAt?]
      split
      · rename_i hzero
        rw [hzero, byteCount_eq_zero_iff]
        constructor
        · rintro ⟨⟩
          exact ⟨rfl, rfl⟩
        · rintro ⟨hsplit, rfl⟩
          rw [show b = [] from hsplit.symm]
      · rename_i hpos
        refine iff_of_false (by simp) ?_
        rintro ⟨hsplit, hcount⟩
        obtain ⟨rfl, -⟩ := List.append_eq_nil_iff.mp hsplit.symm
        exact hpos hcount.symm
  | cons c rest ih =>
      rw [splitAt?]
      split
      · rename_i hzero
        rw [hzero, byteCount_eq_zero_iff]
        constructor
        · rintro ⟨⟩
          exact ⟨rfl, rfl⟩
        · rintro ⟨hsplit, rfl⟩
          rw [hsplit]
          rfl
      · rename_i hpos
        cases a with
        | nil =>
            refine iff_of_false ?_ fun h => hpos h.2.symm
            split
            · simp
            · simp
        | cons d more =>
            rw [List.cons_append, List.cons.injEq, byteCount_cons]
            split
            · rename_i hle
              rw [Option.map_eq_some_iff]
              constructor
              · rintro ⟨⟨front, back⟩, hrest, heq⟩
                obtain ⟨⟨rfl, rfl⟩, rfl⟩ : (c = d ∧ front = more) ∧ back = b := by
                  simpa using heq
                obtain ⟨hsplit, hcount⟩ := ih.mp hrest
                exact ⟨⟨rfl, hsplit⟩, by omega⟩
              · rintro ⟨⟨rfl, hsplit⟩, hcount⟩
                exact ⟨(more, b), ih.mpr ⟨hsplit, by omega⟩, rfl⟩
            · rename_i hgt
              refine iff_of_false (by simp) ?_
              rintro ⟨⟨rfl, -⟩, hcount⟩
              omega

/-- **A range is that of a part of the text when it begins and ends where the part does.** -/
theorem slice?_eq_some_iff {range : ByteRange} :
    slice? text range = some piece ↔
      ∃ front back, text = front ++ piece ++ back ∧ byteCount front = range.start ∧
        byteCount (front ++ piece) = range.stop := by
  unfold slice?
  simp only [Option.bind_eq_bind, Option.bind_eq_some_iff, Prod.exists, splitAt?_eq_some_iff,
    Option.pure_def, Option.some.injEq]
  constructor
  · rintro ⟨_, back, ⟨rfl, hstop⟩, front, _, ⟨rfl, hstart⟩, rfl⟩
    exact ⟨front, back, rfl, hstart, hstop⟩
  · rintro ⟨front, back, rfl, hstart, hstop⟩
    exact ⟨front ++ piece, back, ⟨rfl, hstop⟩, front, piece, ⟨rfl, hstart⟩, rfl⟩

theorem isValid_iff {offset : Nat} :
    (String.Pos.Raw.mk offset).IsValid (String.ofList text) ↔
      ∃ front back, text = front ++ back ∧ byteCount front = offset := by
  rw [String.Pos.Raw.isValid_ofList]
  constructor
  · rintro ⟨i, hi⟩
    exact ⟨text.take i, text.drop i, (List.take_append_drop ..).symm, hi.symm⟩
  · rintro ⟨front, back, rfl, hcount⟩
    exact ⟨front.length, by rw [List.take_left]; exact hcount.symm⟩

/-- **A slice exists just for the ranges that are ordered, within bounds and on boundaries.** -/
theorem isSome_slice?_iff {range : ByteRange} : (slice? text range).isSome ↔ range.IsIn text := by
  rw [Option.isSome_iff_exists]
  constructor
  · rintro ⟨piece, hpiece⟩
    obtain ⟨front, back, rfl, hstart, hstop⟩ := slice?_eq_some_iff.mp hpiece
    refine ⟨?_, ?_, ?_, ?_⟩
    · rw [← hstart, ← hstop, byteCount_append]
      exact Nat.le_add_right ..
    · rw [← hstop, byteCount_append (front ++ piece)]
      exact Nat.le_add_right ..
    · exact isValid_iff.mpr ⟨front, piece ++ back, List.append_assoc .., hstart⟩
    · exact isValid_iff.mpr ⟨front ++ piece, back, rfl, hstop⟩
  · rintro ⟨hordered, -, hstarts, hstops⟩
    obtain ⟨front, rest, hfront, hstart⟩ := isValid_iff.mp hstarts
    obtain ⟨before, back, hbefore, hstop⟩ := isValid_iff.mp hstops
    have hsame := hfront.symm.trans hbefore
    rcases List.append_eq_append_iff.mp hsame with ⟨piece, rfl, rfl⟩ | ⟨excess, rfl, rfl⟩
    · exact ⟨piece, slice?_eq_some_iff.mpr ⟨front, back, hbefore, hstart, hstop⟩⟩
    · -- The part between is behind the one and before the other, so nothing is in it.
      have hempty : excess = [] := by
        rw [← byteCount_eq_zero_iff]
        rw [byteCount_append] at hstart
        omega
      subst hempty
      rw [List.append_nil] at hfront hstart
      exact ⟨[], slice?_eq_some_iff.mpr ⟨before, rest, by simpa using hfront, hstart,
        by simpa using hstop⟩⟩

/-! ### Runs that slice -/

/-- A run that slices a text as it goes: the ranges that it asks for, and what it comes to. -/
structure Slicing (α : Type) where
  ranges : List ByteRange
  result : Option α

namespace Slicing

variable {α β : Type}

instance : Monad Slicing where
  pure value := ⟨[], some value⟩
  bind run next :=
    match run.result with
    | some value => ⟨run.ranges ++ (next value).ranges, (next value).result⟩
    | none => ⟨run.ranges, none⟩

/-- The run that asks for the byte at an offset. -/
def octet (text : List Char) (offset : Nat) : Slicing Char := ⟨[], (octets text)[offset]?⟩

/-- The run that asks for the part of a text from one offset to another. -/
def slice (text : List Char) (start stop : Nat) : Slicing (List Char) :=
  ⟨[⟨start, stop⟩], slice? text ⟨start, stop⟩⟩

/-- A run on a text comes to a value, and all the ranges that it asks for are ranges of the text. -/
structure Gives (text : List Char) (run : Slicing α) (value : α) : Prop where
  result : run.result = some value
  ranges : ∀ range ∈ run.ranges, range.IsIn text

theorem Gives.pure (value : α) : Gives text (Pure.pure value) value :=
  ⟨rfl, fun _ h => absurd h List.not_mem_nil⟩

theorem Gives.bind {run : Slicing α} {next : α → Slicing β} {value : α} {value' : β}
    (h : Gives text run value) (hnext : Gives text (next value) value') :
    Gives text (run >>= next) value' := by
  obtain ⟨hresult, hranges⟩ := h
  have hbind : run >>= next = ⟨run.ranges ++ (next value).ranges, (next value).result⟩ := by
    simp only [Bind.bind, hresult]
  rw [hbind]
  refine ⟨hnext.result, fun range hrange => ?_⟩
  rcases List.mem_append.mp hrange with hfirst | hlater
  · exact hranges range hfirst
  · exact hnext.ranges range hlater

theorem gives_octet {offset : Nat} (h : (octets text)[offset]? = some c) :
    Gives text (octet text offset) c :=
  ⟨h, fun _ h => absurd h List.not_mem_nil⟩

/-- **A part of a text is sliced out between the offsets at which it begins and ends.** -/
theorem gives_slice {start stop : Nat} (split : text = a ++ piece ++ b)
    (hstart : byteCount a = start) (hstop : byteCount (a ++ piece) = stop) :
    Gives text (slice text start stop) piece := by
  have hslice : slice? text ⟨start, stop⟩ = some piece :=
    slice?_eq_some_iff.mpr ⟨a, b, split, hstart, hstop⟩
  refine ⟨hslice, fun range hrange => ?_⟩
  rw [List.mem_singleton.mp hrange, ← isSome_slice?_iff, hslice]
  rfl

end Slicing

end Text

end ShaderLink
