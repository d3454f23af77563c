/-
Characters that are read together, and the blanks between them.

Word characters and dots side by side make up one name or number, two minus signs or two
plus signs make up one operator, and a slash with a slash or an asterisk behind it begins
a comment.  The clumps of a text are its maximal runs of characters that are read
together so.

A text that is put together from its words has lost its blanks.  It has the clumps of the
words one after another exactly when no word joins the next (`clumps_flatten_iff`), and
this is told by the text alone: no blanks stand between two characters that join
(`blanksIdle_iff`).
-/
import Mathlib.Data.List.SplitBy
import ShaderLink.Proofs.Text.Fields
import ShaderLink.Proofs.Text.Words
import ShaderLink.Text.WordChar

namespace ShaderLink

namespace Text

/-- A character of names and numbers. -/
def isSticky (c : Char) : Bool := isWordChar c || c == '.'

/-- Two characters side by side are read together. -/
def joins (c d : Char) : Bool :=
  (isSticky c && isSticky d) || (c == '-' && d == '-') || (c == '+' && d == '+') ||
    (c == '/' && (d == '/' || d == '*'))

/-- The maximal runs of characters that are read together. -/
def clumps (text : List Char) : List (List Char) := text.splitBy joins

/-- The last character of a text and the first of another are not read together. -/
def Parted (text next : List Char) : Prop :=
  ∀ c ∈ text.getLast?, ∀ d ∈ next.head?, joins c d = false

instance : DecidableRel Parted := fun text next =>
  decidable_of_iff ((text.getLast?.all fun c => next.head?.all fun d => !joins c d) = true)
    (by simp [Parted, Option.all_eq_true])

/-- No text joins the next of them. -/
def Apart (texts : List (List Char)) : Prop := texts.IsChain Parted

instance (texts : List (List Char)) : Decidable (Apart texts) :=
  inferInstanceAs (Decidable (texts.IsChain Parted))

/-- No blanks stand between two characters that would be read together without them. -/
def BlanksIdle (text : List Char) : Prop :=
  ∀ c gap d, c :: (gap ++ [d]) <:+: text → gap ≠ [] → (∀ b ∈ gap, isBlank b = true) →
    isBlank c = false → isBlank d = false → joins c d = false

/-! ### Texts put together -/

private theorem parted_iff_clumps {text next : List Char} :
    Parted text next ↔ ∀ x ∈ (clumps text).getLast?, ∀ y ∈ (clumps next).head?,
      ∃ hx hy, joins (x.getLast hx) (y.head hy) = false := by
  rcases eq_or_ne text [] with rfl | htext
  · simp [Parted, clumps]
  rcases eq_or_ne next [] with rfl | hnext
  · simp [Parted, clumps]
  have hrun : clumps text ≠ [] := List.splitBy_ne_nil.mpr htext
  have hrun' : clumps next ≠ [] := List.splitBy_ne_nil.mpr hnext
  have hx : (clumps text).getLast hrun ≠ [] := List.ne_nil_of_mem_splitBy (List.getLast_mem hrun)
  have hy : (clumps next).head hrun' ≠ [] := List.ne_nil_of_mem_splitBy (List.head_mem hrun')
  have hlast : ((clumps text).getLast hrun).getLast hx = text.getLast htext :=
    List.getLast_getLast_splitBy joins htext
  have hfirst : ((clumps next).head hrun').head hy = next.head hnext :=
    List.head_head_splitBy joins hnext
  simp only [Parted, List.getLast?_eq_some_getLast htext, List.head?_eq_some_head hnext,
    List.getLast?_eq_some_getLast hrun, List.head?_eq_some_head hrun', Option.mem_def,
    Option.some.injEq, forall_eq', hlast, hfirst]
  exact ⟨fun h => ⟨hx, hy, h⟩, fun h => h.2.2⟩

/-- Parts of texts make up a chain exactly when no text joins the next, provided that those of each
text do and that texts are parted where their parts are. -/
private theorem isChain_flatMap_iff {α : Type} {r : α → α → Prop} {parts : List Char → List α}
    {texts : List (List Char)} (full : ∀ text ∈ texts, parts text ≠ [])
    (inner : ∀ text, (parts text).IsChain r)
    (parted : ∀ text next, Parted text next ↔
      ∀ x ∈ (parts text).getLast?, ∀ y ∈ (parts next).head?, r x y) :
    (texts.flatMap parts).IsChain r ↔ Apart texts := by
  have hfull : [] ∉ texts.map parts := by
    intro hnil
    obtain ⟨text, htext, hempty⟩ := List.mem_map.mp hnil
    exact full text htext hempty
  rw [List.flatMap_def, List.isChain_flatten hfull, List.isChain_map]
  simp only [← parted]
  refine and_iff_right ?_
  intro l hl
  obtain ⟨text, -, rfl⟩ := List.mem_map.mp hl
  exact inner text

private theorem flatten_flatMap_clumps (texts : List (List Char)) :
    (texts.flatMap clumps).flatten = texts.flatten := by
  induction texts with
  | nil => rfl
  | cons text more ih =>
      rw [List.flatMap_cons, List.flatten_append, List.flatten_cons, ih, clumps,
        List.flatten_splitBy]

/-- **Texts put together have their clumps exactly when no text joins the next.** -/
theorem clumps_flatten_iff {texts : List (List Char)} (full : ∀ text ∈ texts, text ≠ []) :
    clumps texts.flatten = texts.flatMap clumps ↔ Apart texts := by
  have hchain : (texts.flatMap clumps).IsChain
      (fun x y => ∃ hx hy, joins (x.getLast hx) (y.head hy) = false) ↔ Apart texts :=
    isChain_flatMap_iff (fun text htext => List.splitBy_ne_nil.mpr (full text htext))
      (List.isChain_getLast_head_splitBy joins) fun _ _ => parted_iff_clumps
  rw [clumps, List.splitBy_eq_iff, flatten_flatMap_clumps, ← hchain]
  refine ⟨fun h => h.2.2.2, fun h => ⟨rfl, ?_, ?_, h⟩⟩
  · intro hnil
    obtain ⟨text, -, hmem⟩ := List.mem_flatMap.mp hnil
    exact List.nil_notMem_splitBy joins text hmem
  · intro clump hclump
    obtain ⟨text, -, hmem⟩ := List.mem_flatMap.mp hclump
    exact List.isChain_of_mem_splitBy hmem

/-! ### Blanks between characters -/

/-- A character with whether a word begins with it does not join the one in front of it when it is
the first of its word. -/
def Severed (p q : Char × Bool) : Prop := q.2 = true → joins p.1 q.1 = false

private theorem isChain_marked (fresh : Bool) (field : List Char) :
    (marked fresh field).IsChain Severed := by
  cases field with
  | nil => exact List.isChain_nil
  | cons c rest =>
      have hlater : ∀ q ∈ rest.map fun d => (d, false), q.2 = false := by
        intro q hq
        obtain ⟨d, -, rfl⟩ := List.mem_map.mp hq
        rfl
      refine List.Pairwise.isChain (List.pairwise_cons.mpr ⟨?_, ?_⟩)
      · intro q hq hbegins
        exact absurd hbegins (by simp [hlater q hq])
      · refine List.pairwise_map.mpr (List.pairwise_iff_forall_sublist.mpr ?_)
        intro a b _ hbegins
        exact absurd hbegins (by simp)

private theorem parted_iff_marked {text next : List Char} :
    Parted text next ↔ ∀ p ∈ (marked true text).getLast?, ∀ q ∈ (marked true next).head?,
      Severed p q := by
  have hlast : text.getLast? = (marked true text).getLast?.map Prod.fst := by
    rw [← List.getLast?_map]
    cases text with
    | nil => rfl
    | cons c rest => simp [marked, Function.comp_def]
  have hfirst : (marked true next).head? = next.head?.map fun d => (d, true) := by
    cases next <;> rfl
  rw [Parted, hlast, hfirst]
  cases (marked true text).getLast? with
  | none => simp
  | some p => simp [Severed]

/-- Behind separators a field begins. -/
private theorem starts_append_of_separates {separates : Char → Bool} {gap : List Char}
    (blank : ∀ b ∈ gap, separates b = true) (full : gap ≠ []) (fresh : Bool) (rest : List Char) :
    starts separates fresh (gap ++ rest) = starts separates true rest := by
  induction gap generalizing fresh with
  | nil => exact absurd rfl full
  | cons b gap ih =>
      rw [List.cons_append, starts_of_separates (blank b (List.mem_cons_self ..))]
      rcases eq_or_ne gap [] with rfl | hgap
      · rfl
      · exact ih (fun d hd => blank d (List.mem_cons_of_mem _ hd)) hgap true

/-- The first character beside separators has only separators in front of it, and none of them when
it is marked as the text is read with. -/
private theorem exists_of_mem_head?_starts {separates : Char → Bool} {fresh : Bool}
    {text : List Char} {q : Char × Bool} (h : q ∈ (starts separates fresh text).head?) :
    ∃ gap more, text = gap ++ q.1 :: more ∧ (∀ b ∈ gap, separates b = true) ∧
      separates q.1 = false ∧ (gap = [] → q.2 = fresh) := by
  induction text generalizing fresh with
  | nil => exact absurd h (by simp [starts])
  | cons c rest ih =>
      cases hc : separates c with
      | true =>
          rw [starts_of_separates hc] at h
          obtain ⟨gap, more, rfl, hgap, hq, -⟩ := ih h
          exact ⟨c :: gap, more, rfl, List.forall_mem_cons.mpr ⟨hc, hgap⟩, hq, by simp⟩
      | false =>
          rw [starts_of_not_separates hc] at h
          obtain rfl : (c, fresh) = q := by simpa using h
          exact ⟨[], rest, rfl, by simp, hc, fun _ => rfl⟩

private theorem forall_severed_head?_iff {c : Char} {fresh : Bool} {rest : List Char} :
    (∀ q ∈ (starts isBlank false rest).head?, Severed (c, fresh) q) ↔
      ∀ gap d, gap ++ [d] <+: rest → gap ≠ [] → (∀ b ∈ gap, isBlank b = true) →
        isBlank d = false → joins c d = false := by
  constructor
  · rintro h gap d ⟨more, rfl⟩ full blank hd
    rw [List.append_assoc, starts_append_of_separates blank full, List.cons_append,
      starts_of_not_separates hd] at h
    exact h (d, true) rfl rfl
  · intro h q hq hbegins
    obtain ⟨gap, more, rfl, blank, hd, hmark⟩ := exists_of_mem_head?_starts hq
    refine h gap q.1 ⟨more, by simp⟩ ?_ blank hd
    rintro rfl
    exact absurd (hmark rfl) (by simp [hbegins])

private theorem blanksIdle_cons_of_blank {c : Char} (h : isBlank c = true) {rest : List Char} :
    BlanksIdle (c :: rest) ↔ BlanksIdle rest := by
  refine ⟨fun idle e gap d hinfix => idle e gap d (List.infix_cons hinfix), ?_⟩
  intro idle e gap d hinfix full blank he hd
  rcases List.infix_cons_iff.mp hinfix with hprefix | hinfix
  · obtain rfl : e = c := (List.cons_prefix_cons.mp hprefix).1
    exact absurd he (by simp [h])
  · exact idle e gap d hinfix full blank he hd

private theorem blanksIdle_cons_of_not_blank {c : Char} (h : isBlank c = false) {rest : List Char} :
    BlanksIdle (c :: rest) ↔
      (∀ gap d, gap ++ [d] <+: rest → gap ≠ [] → (∀ b ∈ gap, isBlank b = true) →
        isBlank d = false → joins c d = false) ∧ BlanksIdle rest := by
  constructor
  · intro idle
    refine ⟨fun gap d hprefix full blank hd => ?_, fun e gap d hinfix => ?_⟩
    · exact idle c gap d (List.cons_prefix_cons.mpr ⟨rfl, hprefix⟩).isInfix full blank h hd
    · exact idle e gap d (List.infix_cons hinfix)
  · rintro ⟨hfirst, idle⟩ e gap d hinfix full blank he hd
    rcases List.infix_cons_iff.mp hinfix with hprefix | hinfix
    · obtain ⟨rfl, hbehind⟩ := List.cons_prefix_cons.mp hprefix
      exact hfirst gap d hbehind full blank hd
    · exact idle e gap d hinfix full blank he hd

private theorem isChain_starts_iff (fresh : Bool) (text : List Char) :
    (starts isBlank fresh text).IsChain Severed ↔ BlanksIdle text := by
  induction text generalizing fresh with
  | nil => simp [starts, BlanksIdle]
  | cons c rest ih =>
      cases hc : isBlank c with
      | true => rw [starts_of_separates hc, ih, blanksIdle_cons_of_blank hc]
      | false =>
          rw [starts_of_not_separates hc, List.isChain_cons, forall_severed_head?_iff, ih,
            blanksIdle_cons_of_not_blank hc]

/-- **No word of a text joins the next exactly when no blanks of it stand between characters that
join.** -/
theorem blanksIdle_iff {text : List Char} : BlanksIdle text ↔ Apart (fullFields isBlank text) := by
  rw [← isChain_starts_iff true, starts_eq_flatMap_fullFields]
  refine isChain_flatMap_iff ?_ (isChain_marked true) fun _ _ => parted_iff_marked
  intro field hfield
  have hfull : field ≠ [] := by simpa using (List.mem_filter.mp hfield).2
  cases field with
  | nil => exact absurd rfl hfull
  | cons c rest => simp [marked]

/-! ### Cutting a text between its words -/

section Cutting

variable {separates : Char → Bool}

theorem fullFields_of_separates {gap : List Char} (blank : ∀ b ∈ gap, separates b = true)
    (rest : List Char) : fullFields separates (gap ++ rest) = fullFields separates rest := by
  induction gap with
  | nil => rfl
  | cons b gap ih =>
      have hb := fullFields_append_separator (blank b (List.mem_cons_self ..)) [] (gap ++ rest)
      rw [List.cons_append, ← List.nil_append (b :: (gap ++ rest)), hb,
        ih fun d hd => blank d (List.mem_cons_of_mem _ hd)]
      rfl

/-- The first field of a text ends where a separator stands, or with the text. -/
theorem fullFields_cons {gap field rest : List Char} (blank : ∀ b ∈ gap, separates b = true)
    (full : field ≠ []) (free : ∀ c ∈ field, separates c = false)
    (ends : ∀ e ∈ rest.head?, separates e = true) :
    fullFields separates (gap ++ (field ++ rest)) = field :: fullFields separates rest := by
  have hfield : fullFields separates field = [field] := by
    rw [fullFields, fields_of_free free, List.filter_cons_of_pos (by simpa using full)]
    rfl
  rw [fullFields_of_separates blank]
  cases rest with
  | nil => rw [List.append_nil, hfield]; rfl
  | cons e rest =>
      have he : separates e = true := ends e rfl
      rw [fullFields_append_separator he, hfield, ← List.nil_append (e :: rest),
        fullFields_append_separator he]
      rfl

/-- A text is separators, a field, and what stands behind it. -/
theorem exists_first_field (separates : Char → Bool) (text : List Char) :
    ∃ gap field rest, text = gap ++ (field ++ rest) ∧ (∀ b ∈ gap, separates b = true) ∧
      (∀ c ∈ field, separates c = false) ∧ (∀ e ∈ rest.head?, separates e = true) ∧
        (field = [] → rest = []) := by
  induction text with
  | nil => exact ⟨[], [], [], rfl, by simp, by simp, by simp, fun _ => rfl⟩
  | cons c text ih =>
      obtain ⟨gap, field, rest, rfl, blank, free, ends, hempty⟩ := ih
      cases hc : separates c with
      | true =>
          exact ⟨c :: gap, field, rest, rfl, List.forall_mem_cons.mpr ⟨hc, blank⟩, free, ends, hempty⟩
      | false =>
          cases gap with
          | nil =>
              exact ⟨[], c :: field, rest, rfl, by simp, List.forall_mem_cons.mpr ⟨hc, free⟩, ends,
                fun h => absurd h (List.cons_ne_nil _ _)⟩
          | cons b gap =>
              have hb : separates b = true := blank b (List.mem_cons_self ..)
              exact ⟨[], [c], b :: (gap ++ (field ++ rest)), rfl, by simp, by simpa using hc,
                by simpa using hb, fun h => absurd h (List.cons_ne_nil _ _)⟩

private theorem exists_of_fullFields_cons {text field : List Char} {more : List (List Char)}
    (h : fullFields separates text = field :: more) :
    ∃ gap rest, text = gap ++ (field ++ rest) ∧ (∀ b ∈ gap, separates b = true) ∧ field ≠ [] ∧
      (∀ c ∈ field, separates c = false) ∧ (∀ e ∈ rest.head?, separates e = true) ∧
        fullFields separates rest = more := by
  obtain ⟨gap, first, rest, rfl, blank, free, ends, hempty⟩ := exists_first_field separates text
  have hfull : first ≠ [] := by
    intro hnil
    rw [fullFields_of_separates blank, hnil, hempty hnil] at h
    exact absurd h (by simp [fullFields, fields])
  rw [fullFields_cons blank hfull free ends] at h
  obtain ⟨rfl, hmore⟩ := List.cons.inj h
  exact ⟨gap, rest, rfl, blank, hfull, free, ends, hmore⟩

/-- **A text is cut wherever its fields are.** -/
theorem exists_append_of_fullFields {text : List Char} {front behind : List (List Char)}
    (h : fullFields separates text = front ++ behind) :
    ∃ left right, text = left ++ right ∧ fullFields separates left = front ∧
      fullFields separates right = behind := by
  induction front generalizing text with
  | nil => exact ⟨[], text, rfl, rfl, h⟩
  | cons field front ih =>
      obtain ⟨gap, rest, rfl, blank, full, free, ends, hrest⟩ := exists_of_fullFields_cons h
      obtain ⟨left, right, rfl, rfl, hright⟩ := ih hrest
      refine ⟨gap ++ (field ++ left), right, by simp, fullFields_cons blank full free ?_, hright⟩
      intro e he
      exact ends e (by rw [List.head?_append, Option.mem_def.mp he]; rfl)

/-- Texts joined by a separator have their own fields one after another. -/
theorem fullFields_joinWith {separator : Char} (h : separates separator = true)
    (texts : List (List Char)) :
    fullFields separates (joinWith separator texts) = texts.flatMap (fullFields separates) := by
  induction texts with
  | nil => rfl
  | cons text more ih =>
      cases more with
      | nil => simp [joinWith]
      | cons next later =>
          rw [joinWith_cons_of_ne_nil (by simp), fullFields_append_separator h, ih]
          exact (List.flatMap_cons ..).symm

end Cutting

end Text

end ShaderLink
