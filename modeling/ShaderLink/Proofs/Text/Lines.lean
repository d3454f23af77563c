/-
Functions that work on the lines of a text.

The lines of a file are what stands between its line ends: a line feed, a carriage
return, or the pair of both.  `Lined` says this without a scan, and it is the scan that
it says it of.  A function that leaves the line ends of a text where they are and goes
on afresh behind each of them is `Linewise`: it does to the whole text what it does to
the lines.
-/
import ShaderLink.Text.Lines

namespace ShaderLink
namespace Text

/-- A character that ends a line of a file. -/
def isLineEnd (c : Char) : Bool := c == '\n' || c == '\r'

/-- What ends a line in front of a text: a lone carriage return is one when no line feed follows. -/
def EndsLine (mark rest : List Char) : Prop :=
  mark = ['\n'] ∨ mark = ['\r', '\n'] ∨ (mark = ['\r'] ∧ rest.head? ≠ some '\n')

/-- A text and its lines. -/
inductive Lined : List Char → List (List Char) → Prop where
  | nil : Lined [] []
  /-- The last line need not be ended. -/
  | last {line : List Char} (free : ∀ c ∈ line, isLineEnd c = false) (full : line ≠ []) :
      Lined line [line]
  | line {line mark rest : List Char} {lines : List (List Char)}
      (free : ∀ c ∈ line, isLineEnd c = false) (ends : EndsLine mark rest)
      (more : Lined rest lines) : Lined (line ++ (mark ++ rest)) (line :: lines)

/-! ### Cutting at the first line end -/

theorem fileLines_cons {c : Char} (h : isLineEnd c = false) (rest : List Char) :
    fileLines (c :: rest) = consField c (fileLines rest) := by
  have hc : ¬(c = '\n' ∨ c = '\r') := by simpa [isLineEnd] using h
  rw [not_or] at hc
  rw [fileLines, linesBy, if_neg (by simpa using hc)]
  rintro rest' rfl
  exact absurd rfl hc.2

theorem fileLines_of_endsLine {mark rest : List Char} (h : EndsLine mark rest) :
    fileLines (mark ++ rest) = [] :: fileLines rest := by
  obtain rfl | rfl | ⟨rfl, hrest⟩ := h
  · rfl
  · rfl
  · cases rest with
    | nil => rfl
    | cons c rest =>
        have hc : c ≠ '\n' := by simpa using hrest
        show linesBy true ('\r' :: c :: rest) = _
        rw [linesBy, if_pos (by simp)]
        · rfl
        · rintro rest' - heq
          exact hc (List.cons.inj heq).1

private theorem fileLines_line {line mark rest : List Char} (free : ∀ c ∈ line, isLineEnd c = false)
    (ends : EndsLine mark rest) :
    fileLines (line ++ (mark ++ rest)) = line :: fileLines rest := by
  induction line with
  | nil => exact fileLines_of_endsLine ends
  | cons c line ih =>
      rw [List.cons_append, fileLines_cons (free c (List.mem_cons_self ..)),
        ih fun d hd => free d (List.mem_cons_of_mem _ hd)]
      rfl

theorem fileLines_last {line : List Char} (free : ∀ c ∈ line, isLineEnd c = false)
    (full : line ≠ []) : fileLines line = [line] := by
  induction line with
  | nil => exact absurd rfl full
  | cons c line ih =>
      rw [fileLines_cons (free c (List.mem_cons_self ..))]
      cases line with
      | nil => rfl
      | cons d line =>
          rw [ih (fun e he => free e (List.mem_cons_of_mem _ he)) (List.cons_ne_nil _ _)]
          rfl

theorem Lined.fileLines_eq {text : List Char} {lines : List (List Char)} (h : Lined text lines) :
    fileLines text = lines := by
  induction h with
  | nil => rfl
  | last free full => exact fileLines_last free full
  | line free ends more ih => rw [fileLines_line free ends, ih]

/-- A text has no line end, or a first one. -/
private theorem free_or_exists_lineEnd (text : List Char) :
    (∀ c ∈ text, isLineEnd c = false) ∨
      ∃ line e rest, text = line ++ e :: rest ∧ (∀ c ∈ line, isLineEnd c = false) ∧
        isLineEnd e = true := by
  induction text with
  | nil => exact .inl (by simp)
  | cons c text ih =>
      cases hc : isLineEnd c with
      | true => exact .inr ⟨[], c, text, rfl, by simp, hc⟩
      | false =>
          rcases ih with free | ⟨line, e, rest, rfl, free, he⟩
          · exact .inl (List.forall_mem_cons.mpr ⟨hc, free⟩)
          · exact .inr ⟨c :: line, e, rest, rfl, List.forall_mem_cons.mpr ⟨hc, free⟩, he⟩

/-- What a line end begins is a mark and what stands behind it. -/
private theorem exists_endsLine {e : Char} (h : isLineEnd e = true) (text : List Char) :
    ∃ mark rest, e :: text = mark ++ rest ∧ EndsLine mark rest := by
  have he : e = '\n' ∨ e = '\r' := by simpa [isLineEnd] using h
  rcases he with rfl | rfl
  · exact ⟨['\n'], text, rfl, .inl rfl⟩
  · cases text with
    | nil => exact ⟨['\r'], [], rfl, .inr (.inr ⟨rfl, by simp⟩)⟩
    | cons c rest =>
        by_cases hc : c = '\n'
        · exact ⟨['\r', '\n'], rest, by rw [hc]; rfl, .inr (.inl rfl)⟩
        · exact ⟨['\r'], c :: rest, rfl, .inr (.inr ⟨rfl, by simpa using hc⟩)⟩

/-- The lines that the scan finds are the lines of the text. -/
theorem lined_fileLines (text : List Char) : Lined text (fileLines text) := by
  suffices h : ∃ lines, Lined text lines by
    obtain ⟨lines, h⟩ := h
    rwa [h.fileLines_eq]
  induction hn : text.length using Nat.strongRecOn generalizing text with
  | ind n ih =>
      rcases free_or_exists_lineEnd text with free | ⟨line, e, rest, rfl, free, he⟩
      · by_cases hnil : text = []
        · exact ⟨[], hnil ▸ .nil⟩
        · exact ⟨[text], .last free hnil⟩
      · obtain ⟨mark, after, hafter, ends⟩ := exists_endsLine he rest
        have hlength : after.length < n := by
          have := congrArg List.length hafter
          have : mark ≠ [] := by rintro rfl; simp [EndsLine] at ends
          have := List.length_pos_iff.mpr this
          simp only [List.length_append, List.length_cons] at *
          omega
        obtain ⟨lines, hlines⟩ := ih _ hlength after rfl
        rw [hafter]
        exact ⟨_, .line free ends hlines⟩

theorem Lined.free {text : List Char} {lines : List (List Char)} (h : Lined text lines) :
    ∀ line ∈ lines, ∀ c ∈ line, isLineEnd c = false := by
  induction h with
  | nil => simp
  | last free full => simpa using free
  | line free ends more ih => exact List.forall_mem_cons.mpr ⟨free, ih⟩

theorem EndsLine.append {mark rest : List Char} (h : EndsLine mark rest) {more : List Char}
    (hmore : more.head? ≠ some '\n') : EndsLine mark (rest ++ more) := by
  refine h.imp id (.imp id (.imp id fun hrest => ?_))
  cases rest with
  | nil => exact hmore
  | cons c rest => exact hrest

/-- Characters within a line stand in one line of the text, behind the lines that end in front of them
and in front of those that begin behind them. -/
theorem exists_fileLines_append (front : List Char) {word : List Char} (full : word ≠ [])
    (free : ∀ c ∈ word, isLineEnd c = false) (behind : List Char) :
    ∃ earlier left right later, fileLines (front ++ word) = earlier ++ [left ++ word] ∧
      fileLines (front ++ (word ++ behind)) = earlier ++ (left ++ (word ++ right)) :: later := by
  -- the line of the word when no line ends in front of it
  have hline : ∀ line : List Char, (∀ c ∈ line, isLineEnd c = false) →
      ∃ right later, fileLines (line ++ word) = [line ++ word] ∧
        fileLines (line ++ (word ++ behind)) = (line ++ (word ++ right)) :: later := by
    intro line hfree
    have hfull (right : List Char) : line ++ (word ++ right) ≠ [] := by simp [full]
    have hall : ∀ c ∈ line ++ word, isLineEnd c = false :=
      List.forall_mem_append.mpr ⟨hfree, free⟩
    have hfirst := fileLines_last hall (by simpa using hfull [])
    rcases free_or_exists_lineEnd behind with hbehind | ⟨right, e, rest, rfl, hright, he⟩
    · refine ⟨behind, [], hfirst, ?_⟩
      rw [← List.append_assoc]
      exact fileLines_last (List.forall_mem_append.mpr ⟨hall, hbehind⟩) (by simp [full])
    · obtain ⟨mark, after, hmark, ends⟩ := exists_endsLine he rest
      refine ⟨right, fileLines after, hfirst, ?_⟩
      have hcut := fileLines_line (List.forall_mem_append.mpr ⟨hall, hright⟩) ends
      rw [hmark]
      simpa using hcut
  have hhead (more : List Char) : (word ++ more).head? ≠ some '\n' := by
    obtain ⟨c, word, rfl⟩ := List.exists_cons_of_ne_nil full
    rintro heq
    have hc := free c (List.mem_cons_self ..)
    rw [Option.some.inj heq] at hc
    exact absurd hc (by decide)
  obtain ⟨lines, hlines⟩ : ∃ lines, Lined front lines := ⟨_, lined_fileLines front⟩
  induction hlines with
  | nil =>
      obtain ⟨right, later, hfirst, hall⟩ := hline [] (by simp)
      exact ⟨[], [], right, later, hfirst, hall⟩
  | @last line hfree _ =>
      obtain ⟨right, later, hfirst, hall⟩ := hline line hfree
      exact ⟨[], line, right, later, hfirst, hall⟩
  | @line line mark rest _ hfree ends _ ih =>
      obtain ⟨earlier, left, right, later, hfirst, hall⟩ := ih
      refine ⟨line :: earlier, left, right, later, ?_, ?_⟩
      · have hend := ends.append (by simpa using hhead [])
        rw [List.append_assoc, List.append_assoc, fileLines_line hfree hend, hfirst]
        rfl
      · rw [List.append_assoc, List.append_assoc, fileLines_line hfree (ends.append (hhead behind)),
          hall]
        rfl

/-! ### Functions on lines -/

/-- A function that leaves the line ends of a text where they are and goes on afresh behind each. -/
structure Linewise (f : List Char → List Char) : Prop where
  nil : f [] = []
  full : ∀ {text}, text ≠ [] → f text ≠ []
  free : ∀ {text}, (∀ c ∈ text, isLineEnd c = false) → ∀ c ∈ f text, isLineEnd c = false
  across : ∀ text {e} rest, isLineEnd e = true → f (text ++ e :: rest) = f text ++ e :: f rest

namespace Linewise

variable {f g : List Char → List Char}

theorem comp (hg : Linewise g) (hf : Linewise f) : Linewise fun text => g (f text) where
  nil := by rw [hf.nil, hg.nil]
  full h := hg.full (hf.full h)
  free h := hg.free (hf.free h)
  across text e rest h := by rw [hf.across text rest h, hg.across _ _ h]

/-- A line end at the front of what comes out stood at the front before. -/
private theorem head? (hf : Linewise f) {text : List Char} {e : Char} (he : isLineEnd e = true)
    (h : (f text).head? = some e) : text.head? = some e := by
  have hnot : ∀ line : List Char, (∀ c ∈ line, isLineEnd c = false) → line.head? ≠ some e := by
    intro line hfree hhead
    have := hfree e (List.mem_of_head? hhead)
    rw [he] at this
    exact absurd this (by simp)
  rcases free_or_exists_lineEnd text with free | ⟨line, e', rest, rfl, free, he'⟩
  · exact absurd h (hnot _ (hf.free free))
  · rw [hf.across line rest he'] at h
    by_cases hline : line = []
    · rw [hline, hf.nil] at h
      rw [hline]
      exact h
    · obtain ⟨d, more, hd⟩ := List.exists_cons_of_ne_nil (hf.full hline)
      rw [hd] at h
      have hhead : (f line).head? = some e := by rw [hd]; exact h
      exact absurd hhead (hnot _ (hf.free free))

private theorem endsLine (hf : Linewise f) {mark rest : List Char} (h : EndsLine mark rest) :
    EndsLine mark (f rest) := by
  refine h.imp id (.imp id (.imp id fun hhead hf' => ?_))
  exact hhead (hf.head? (by decide) hf')

private theorem across_mark (hf : Linewise f) (line : List Char) {mark rest : List Char}
    (h : EndsLine mark rest) : f (line ++ (mark ++ rest)) = f line ++ (mark ++ f rest) := by
  obtain rfl | rfl | ⟨rfl, -⟩ := h
  · exact hf.across line rest (by decide)
  · show f (line ++ '\r' :: ([] ++ '\n' :: rest)) = _
    rw [hf.across line _ (by decide), hf.across [] rest (by decide), hf.nil]
    rfl
  · exact hf.across line rest (by decide)

theorem lined (hf : Linewise f) {text : List Char} {lines : List (List Char)}
    (h : Lined text lines) : Lined (f text) (lines.map f) := by
  induction h with
  | nil =>
      rw [hf.nil]
      exact .nil
  | last free full => exact .last (hf.free free) (hf.full full)
  | line free ends more ih =>
      rw [hf.across_mark _ ends]
      exact .line (hf.free free) (hf.endsLine ends) ih

/-- **The lines of what comes out are what comes out of the lines.** -/
theorem fileLines_eq (hf : Linewise f) (text : List Char) :
    fileLines (f text) = (fileLines text).map f :=
  (hf.lined (lined_fileLines text)).fileLines_eq

end Linewise

end Text
end ShaderLink
