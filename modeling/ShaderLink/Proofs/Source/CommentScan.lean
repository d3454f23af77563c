/-
Comments found by one scan.

Stripping takes the lines one by one and passes on whether a block comment is open.  The
lines can be joined to one text as well, and the text scanned from its beginning: a line
comment is dropped up to the end of its line, and a block comment up to the end mark that
comes next, with the line breaks in it kept.  A scan stops at an end mark that it meets
outside comments.

Stripping does what the scan does (`Follows`).  The lines that it leaves are those of the
text that the scan keeps; and where the scan stops, stripping fails at the line of the
mark, with the lines before it done and the others untouched.
-/
import ShaderLink.Proofs.Source.Outline
import ShaderLink.Proofs.Text.Fields
import ShaderLink.Proofs.Unit.Tokens

namespace ShaderLink

namespace Comment

open Text (joinWith joinWith_cons_of_ne_nil exists_joinWith_cons OneLine)

/-- What a scan keeps of a text, and the text from an end mark on that stopped it, if one did. -/
structure Scan where
  kept : List Char
  stray : Option (List Char)

/-- A scan with something kept in front. -/
def Scan.after (front : List Char) (scan : Scan) : Scan := { scan with kept := front ++ scan.kept }

/-- What a block comment holds up to its end mark, and the text behind that mark; a comment without
one holds everything. -/
def untilEnd : List Char → List Char × List Char
  | '*' :: '/' :: rest => ([], rest)
  | c :: rest => (c :: (untilEnd rest).1, (untilEnd rest).2)
  | [] => ([], [])

private theorem length_untilEnd_le (text : List Char) : (untilEnd text).2.length ≤ text.length := by
  fun_induction untilEnd text with
  | case1 rest =>
      simp only [List.length_cons]
      omega
  | case2 c rest _ ih =>
      simp only [List.length_cons]
      omega
  | case3 => simp

/-- The line breaks of a text. -/
def breaks (text : List Char) : List Char := text.filter (· == '\n')

/-- The scan of a text that begins outside comments. -/
def scan : List Char → Scan
  | '/' :: '/' :: rest => scan (rest.dropWhile (· != '\n'))
  | '/' :: '*' :: rest => (scan (untilEnd rest).2).after (breaks (untilEnd rest).1)
  | '*' :: '/' :: rest => ⟨[], some ('*' :: '/' :: rest)⟩
  | c :: rest => (scan rest).after [c]
  | [] => ⟨[], none⟩
termination_by text => text.length
decreasing_by
  · have := (rest.dropWhile_sublist (· != '\n')).length_le
    simp only [List.length_cons]
    omega
  · have := length_untilEnd_le rest
    simp only [List.length_cons]
    omega
  · simp

/-- The scan of a text that begins inside a block comment or outside. -/
def scanFrom : Bool → List Char → Scan
  | true, text => (scan (untilEnd text).2).after (breaks (untilEnd text).1)
  | false, text => scan text

variable {inside after : Bool} {text kept rest more : List Char} {c : Char}
  {lines : List SourceLine}

@[simp] theorem after_nil (s : Scan) : s.after [] = s := rfl

@[simp] theorem after_after (front back : List Char) (s : Scan) :
    (s.after back).after front = s.after (front ++ back) := by
  simp [Scan.after]

/-! ### Characters that belong to no mark -/

private theorem scan_cons (h : isMark false c rest.head? = false) :
    scan (c :: rest) = (scan rest).after [c] := by
  rw [scan]
  all_goals
    rintro more rfl rfl
    exact absurd h (by simp [isMark])

private theorem scanFrom_true_cons (h : isMark true c rest.head? = false) :
    scanFrom true (c :: rest) = (scanFrom true rest).after (breaks [c]) := by
  have huntil : untilEnd (c :: rest) = (c :: (untilEnd rest).1, (untilEnd rest).2) := by
    rw [untilEnd]
    rintro more rfl rfl
    exact absurd h (by simp [isMark])
  rw [scanFrom, scanFrom, huntil, after_after, breaks, breaks, breaks, ← List.filter_append]
  rfl

private theorem scanFrom_newline (inside : Bool) (rest : List Char) :
    scanFrom inside ('\n' :: rest) = (scanFrom inside rest).after ['\n'] := by
  cases inside with
  | true => exact scanFrom_true_cons (by simp [isMark])
  | false => exact scan_cons (by simp [isMark])

/-! ### One line -/

/-- What stands behind a line is nothing or begins with a line break, which belongs to no mark. -/
private theorem isMark_append (ends : ∀ d ∈ more.head?, d = '\n') :
    isMark inside c (rest ++ more).head? = isMark inside c rest.head? := by
  cases rest with
  | cons d later => rfl
  | nil =>
      cases more with
      | nil => rfl
      | cons d later =>
          have hd : d = '\n' := ends d rfl
          rw [hd]
          simp [isMark]

/-- A character of a line that begins no mark there begins none in front of what stands behind. -/
private theorem scanFrom_cons_append (mark : isMark inside c rest.head? = false) (hc : '\n' ≠ c)
    (ends : ∀ d ∈ more.head?, d = '\n') :
    scanFrom inside (c :: (rest ++ more)) =
      (scanFrom inside (rest ++ more)).after (if inside then [] else [c]) := by
  rw [← isMark_append ends] at mark
  cases inside with
  | true =>
      have hbreaks : breaks [c] = [] := by simp [breaks, hc.symm]
      rw [scanFrom_true_cons mark, hbreaks]
      rfl
  | false => exact scan_cons mark

private theorem dropWhile_line (oneLine : '\n' ∉ rest) (ends : ∀ d ∈ more.head?, d = '\n') :
    (rest ++ more).dropWhile (· != '\n') = more := by
  have hrest : ∀ d ∈ rest, (d != '\n') = true := by
    intro d hd
    rw [bne_iff_ne]
    rintro rfl
    exact oneLine hd
  rw [List.dropWhile_append_of_pos hrest]
  cases more with
  | nil => rfl
  | cons d later =>
      have hd : d = '\n' := ends d rfl
      rw [hd]
      rfl

/-- **A line is scanned as it is stripped**, up to what stands behind it. -/
theorem scanFrom_append (h : strip inside text = some (kept, after)) (oneLine : '\n' ∉ text)
    (ends : ∀ d ∈ more.head?, d = '\n') :
    scanFrom inside (text ++ more) = (scanFrom after more).after kept := by
  fun_induction strip inside text generalizing kept after with
  | case1 rest ih =>
      rw [← ih h (by simp_all)]
      rfl
  | case2 c rest ending ih =>
      obtain ⟨hc, hrest⟩ := not_or.mp fun hmem => oneLine (List.mem_cons.mpr hmem)
      have hmark : isMark true c rest.head? = false :=
        isMark_eq_false (by simp) (by simp) ending
      rw [List.cons_append, scanFrom_cons_append hmark hc ends, ih h hrest]
      rfl
  | case3 =>
      obtain ⟨rfl, rfl⟩ := Prod.mk.inj (Option.some.inj h)
      rfl
  | case4 rest =>
      obtain ⟨rfl, rfl⟩ := Prod.mk.inj (Option.some.inj h)
      have hrest : '\n' ∉ rest := by simp_all
      show scan ('/' :: '/' :: (rest ++ more)) = _
      rw [scan, dropWhile_line hrest ends]
      rfl
  | case5 rest ih =>
      rw [← ih h (by simp_all)]
      show scan ('/' :: '*' :: (rest ++ more)) = _
      rw [scan]
      rfl
  | case6 rest => exact absurd h (by simp)
  | case7 c rest line block stray ih =>
      obtain ⟨⟨left, behind⟩, hrest, hkept⟩ := Option.map_eq_some_iff.mp h
      obtain ⟨rfl, rfl⟩ := Prod.mk.inj hkept
      obtain ⟨hc, hone⟩ := not_or.mp fun hmem => oneLine (List.mem_cons.mpr hmem)
      have hmark : isMark false c rest.head? = false :=
        isMark_eq_false (fun _ => line) (fun _ => block) stray
      rw [List.cons_append, scanFrom_cons_append hmark hc ends, ih hrest hone, after_after]
      rfl
  | case8 =>
      obtain ⟨rfl, rfl⟩ := Prod.mk.inj (Option.some.inj h)
      rfl

/-- On a line that cannot be stripped the scan comes to an end mark and stops. -/
private theorem exists_stray (h : strip inside text = none) (oneLine : '\n' ∉ text)
    (ends : ∀ d ∈ more.head?, d = '\n') :
    ∃ front tail last, text = front ++ '*' :: '/' :: tail ∧ '\n' ∉ last ∧
      scanFrom inside (text ++ more) = ⟨last, some ('*' :: '/' :: (tail ++ more))⟩ := by
  fun_induction strip inside text with
  | case1 rest ih =>
      obtain ⟨front, tail, last, rfl, hlast, hscan⟩ := ih h (by simp_all)
      exact ⟨'*' :: '/' :: front, tail, last, rfl, hlast, hscan⟩
  | case2 c rest ending ih =>
      obtain ⟨hc, hrest⟩ := not_or.mp fun hmem => oneLine (List.mem_cons.mpr hmem)
      have hmark : isMark true c rest.head? = false :=
        isMark_eq_false (by simp) (by simp) ending
      obtain ⟨front, tail, last, hfront, hlast, hscan⟩ := ih h hrest
      refine ⟨c :: front, tail, last, by rw [hfront]; rfl, hlast, ?_⟩
      rw [List.cons_append, scanFrom_cons_append hmark hc ends, hscan]
      rfl
  | case3 => exact absurd h (by simp)
  | case4 rest => exact absurd h (by simp)
  | case5 rest ih =>
      obtain ⟨front, tail, last, rfl, hlast, hscan⟩ := ih h (by simp_all)
      refine ⟨'/' :: '*' :: front, tail, last, rfl, hlast, ?_⟩
      rw [← hscan]
      show scan ('/' :: '*' :: (_ ++ more)) = _
      rw [scan]
      rfl
  | case6 rest =>
      refine ⟨[], rest, [], rfl, by simp, ?_⟩
      show scan ('*' :: '/' :: (rest ++ more)) = _
      rw [scan]
  | case7 c rest line block stray ih =>
      obtain ⟨hc, hrest⟩ := not_or.mp fun hmem => oneLine (List.mem_cons.mpr hmem)
      have hmark : isMark false c rest.head? = false :=
        isMark_eq_false (fun _ => line) (fun _ => block) stray
      obtain ⟨front, tail, last, hfront, hlast, hscan⟩ := ih (Option.map_eq_none_iff.mp h) hrest
      refine ⟨c :: front, tail, c :: last, by rw [hfront]; rfl, by simp [hc, hlast], ?_⟩
      rw [List.cons_append, scanFrom_cons_append hmark hc ends, hscan]
      rfl
  | case8 => exact absurd h (by simp)

/-! ### All lines -/

/-- The texts of lines as one text. -/
def joined (lines : List SourceLine) : List Char := joinWith '\n' (lines.map (·.text.toList))

/-- What a pass leaves of lines that does what a scan of their text does. -/
inductive Follows (lines : List SourceLine) : Scan → LinePass → Prop
  /-- The scan comes to the end, and the lines are those of the text that it keeps. -/
  | through {stripped : List SourceLine}
      (places : stripped.map SourceLine.place = lines.map SourceLine.place)
      (oneLine : ∀ line ∈ stripped, OneLine line.text) :
      Follows lines ⟨joined stripped, none⟩ ⟨stripped, none⟩
  /-- The scan stops at an end mark in a line.  The lines before are those of the text that it
  keeps, in which a part of the line with the mark is the last. -/
  | stray {before after stripped : List SourceLine} {line : SourceLine}
      {front tail last : List Char} (split : lines = before ++ line :: after)
      (marked : line.text.toList = front ++ '*' :: '/' :: tail)
      (places : stripped.map SourceLine.place = before.map SourceLine.place)
      (oneLine : ∀ line ∈ stripped, OneLine line.text) (lastLine : '\n' ∉ last) :
      Follows lines
        ⟨joinWith '\n' (stripped.map (·.text.toList) ++ [last]),
          some (joinWith '\n' (('*' :: '/' :: tail) :: after.map (·.text.toList)))⟩
        ⟨stripped ++ line :: after, some (.unmatchedCommentEnd line.file line.number)⟩

private theorem scanFrom_nil (inside : Bool) : scanFrom inside [] = ⟨[], none⟩ := by
  cases inside with
  | true => simp [scanFrom, untilEnd, breaks, scan]
  | false => simp [scanFrom, scan]

/-- A line in front of lines that are done. -/
private theorem Follows.cons {line stripped : SourceLine} {s : Scan} {pass : LinePass}
    (h : Follows lines s pass) (nonempty : lines ≠ []) (place : stripped.place = line.place)
    (oneLine : OneLine stripped.text) :
    Follows (line :: lines) (s.after (stripped.text.toList ++ ['\n'])) (pass.cons stripped) := by
  rw [← after_after]
  cases h with
  | @through others places oneLines =>
      have hothers : others.map (·.text.toList) ≠ [] := by
        intro hnil
        rw [List.map_eq_nil_iff] at hnil
        rw [hnil] at places
        exact nonempty (List.map_eq_nil_iff.mp places.symm)
      have hplaces : (stripped :: others).map SourceLine.place =
          (line :: lines).map SourceLine.place := by
        rw [List.map_cons, List.map_cons, place, places]
      have hall := Follows.through hplaces (by simpa using ⟨oneLine, oneLines⟩)
      rw [joined, List.map_cons, joinWith_cons_of_ne_nil hothers] at hall
      exact hall
  | @stray before after others other front tail last split marked places oneLines lastLine =>
      have hsplit : line :: lines = (line :: before) ++ other :: after := by
        rw [split]
        rfl
      have hplaces : (stripped :: others).map SourceLine.place =
          (line :: before).map SourceLine.place := by
        rw [List.map_cons, List.map_cons, place, places]
      have hall := Follows.stray hsplit marked hplaces (by simpa using ⟨oneLine, oneLines⟩) lastLine
      rw [List.map_cons, List.cons_append, joinWith_cons_of_ne_nil (by simp)] at hall
      exact hall

/-- **From any line on, stripping does what a scan of the lines does.** -/
theorem follows_stripFrom (inside : Bool) (oneLine : ∀ line ∈ lines, OneLine line.text) :
    Follows lines (scanFrom inside (joined lines)) (stripFrom inside lines) := by
  induction lines generalizing inside with
  | nil =>
      rw [show joined [] = [] from rfl, scanFrom_nil]
      exact .through rfl fun line hline => absurd hline List.not_mem_nil
  | cons line rest ih =>
      have hline := oneLine line (List.mem_cons_self ..)
      have hrest := fun inside => ih inside fun other hother =>
        oneLine other (List.mem_cons_of_mem _ hother)
      obtain ⟨more, ends, hmore⟩ := exists_joinWith_cons '\n' (rest.map (·.text.toList))
      rw [joined, List.map_cons, hmore]
      cases hstrip : strip inside line.text.toList with
      | none =>
          obtain ⟨front, tail, last, marked, hlast, hscan⟩ := exists_stray hstrip hline ends
          have hfollows : Follows (line :: rest) _ _ :=
            .stray rfl marked rfl (fun line hline => absurd hline List.not_mem_nil) hlast
          rw [hscan, stripFrom, stripLine, hstrip]
          rw [hmore] at hfollows
          exact hfollows
      | some found =>
          obtain ⟨kept, after⟩ := found
          have hkept : OneLine (String.ofList kept) := by
            rw [OneLine, String.toList_ofList]
            exact fun hmem => hline ((sublist_of_strip hstrip).subset hmem)
          rw [scanFrom_append hstrip hline ends, stripFrom_cons hstrip]
          cases rest with
          | nil =>
              have hnil : [] = more := hmore []
              rw [← hnil, scanFrom_nil]
              have hdone : Follows [line] _ ⟨[{ line with text := String.ofList kept }], none⟩ :=
                .through rfl (by simpa using hkept)
              rw [joined, List.map_singleton, joinWith, String.toList_ofList] at hdone
              rw [Scan.after, List.append_nil]
              exact hdone
          | cons second later =>
              have hbreak : '\n' :: joined (second :: later) = more := hmore []
              have hplace : SourceLine.place { line with text := String.ofList kept } =
                  line.place := rfl
              have hcons := (hrest after).cons (by simp) hplace hkept
              rw [String.toList_ofList] at hcons
              rw [← hbreak, scanFrom_newline, after_after]
              exact hcons

end Comment

/-- **Stripping lines does what one scan of their text does.** -/
theorem stripComments_follows {lines : List SourceLine}
    (oneLine : ∀ line ∈ lines, Text.OneLine line.text) :
    Comment.Follows lines (Comment.scan (Comment.joined lines)) (stripComments lines) :=
  Comment.follows_stripFrom false oneLine

/-- Lines with a block comment over a line break, marks inside of comments of the other kind, and a
comment that ends twice. -/
def strayed : List SourceLine :=
  SourceLine.split "a" "p /* q // r\n/*/ s // t */\nu /*/ v */*/ w\n// x */\n"

/-- The third line is not touched, and neither is the comment behind it. -/
theorem strayed_follows :
    (∀ line ∈ strayed, Text.OneLine line.text) ∧
      Comment.Follows strayed (Comment.scan (Comment.joined strayed)) (stripComments strayed) ∧
      stripComments strayed =
        ⟨[⟨"a", 1, "p "⟩, ⟨"a", 2, " s "⟩, ⟨"a", 3, "u /*/ v */*/ w"⟩, ⟨"a", 4, "// x */"⟩],
          some (.unmatchedCommentEnd "a" 3)⟩ := by
  have hlines : ∀ line ∈ strayed, Text.OneLine line.text := by
    unfold Text.OneLine
    decide +kernel
  exact ⟨hlines, stripComments_follows hlines, by decide +kernel⟩

end ShaderLink
