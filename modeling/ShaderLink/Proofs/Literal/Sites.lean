/-
Where the literals of code stand.

The pieces of code tell its literals and what is between them.  A site is one of these
literals together with the pieces to its left, so its place in the code is known, counted
in bytes of the text.

The sites are those of the longest numbers that stand isolated, with no identifier
character and no point on either side.  One kind of place is left out: a number passed
over takes its exponent with it, so what stands behind the sign there is not looked at,
isolated or not.
-/
import ShaderLink.Proofs.Literal.Longest
import ShaderLink.Proofs.Text.Octets

namespace ShaderLink

namespace Literal

open Text (IsExponent)

/-- A literal among the pieces of code, with those to its left. -/
structure Site where
  before : List Piece
  kind : ConstKind
  text : List Char

namespace Site

/-- The code to the left of a literal. -/
def left (site : Site) : List Char := site.before.flatMap Piece.text

/-- The offset at which a literal begins. -/
def start (site : Site) : Nat := Text.byteCount site.left

/-- The offset behind its last character. -/
def stop (site : Site) : Nat := site.start + Text.byteCount site.text

end Site

/-- The literals among pieces that stand behind others. -/
def sites (before : List Piece) : List Piece → List Site
  | [] => []
  | .verbatim c :: rest => sites (before ++ [.verbatim c]) rest
  | .literal kind text :: rest =>
    ⟨before, kind, text⟩ :: sites (before ++ [.literal kind text]) rest

/-- The literals of code. -/
def literals (code : List Char) : List Site := sites [] (pieces none 0 code)

variable {before ps : List Piece} {site : Site} {kind : ConstKind} {touching : Bool}
  {left word right text tail front : List Char}

theorem flatMap_text_verbatim (word : List Char) :
    (word.map Piece.verbatim).flatMap Piece.text = word := by
  induction word with
  | nil => rfl
  | cons c rest ih => rw [List.map_cons, List.flatMap_cons, ih]; rfl

theorem sites_append (before front back : List Piece) :
    sites before (front ++ back) = sites before front ++ sites (before ++ front) back := by
  induction front generalizing before with
  | nil => rw [List.append_nil]; rfl
  | cons piece rest ih =>
      have hrest := ih (before ++ [piece])
      rw [List.append_assoc, List.singleton_append] at hrest
      cases piece with
      | verbatim c => exact hrest
      | literal kind text => exact congrArg _ hrest

theorem sites_verbatim (before : List Piece) (word : List Char) (ps : List Piece) :
    sites before (word.map .verbatim ++ ps) = sites (before ++ word.map .verbatim) ps := by
  induction word generalizing before with
  | nil => rw [List.map_nil, List.append_nil]; rfl
  | cons c rest ih =>
      rw [List.map_cons, List.cons_append, sites, ih, List.append_assoc]
      rfl

theorem mem_sites (before front : List Piece) (kind : ConstKind) (text : List Char)
    (back : List Piece) :
    ⟨before ++ front, kind, text⟩ ∈ sites before (front ++ .literal kind text :: back) := by
  rw [sites_append, sites]
  exact List.mem_append_right _ (List.mem_cons_self ..)

private theorem exists_of_mem_sites (h : site ∈ sites before ps) :
    ∃ front back, ps = front ++ .literal site.kind site.text :: back ∧
      site.before = before ++ front := by
  induction ps generalizing before with
  | nil => exact absurd h List.not_mem_nil
  | cons piece rest ih =>
      have hlater (hmem : site ∈ sites (before ++ [piece]) rest) :
          ∃ front back, piece :: rest = front ++ .literal site.kind site.text :: back ∧
            site.before = before ++ front := by
        obtain ⟨front, back, rfl, hbefore⟩ := ih hmem
        exact ⟨piece :: front, back, rfl, by rw [hbefore, List.append_assoc]; rfl⟩
      cases piece with
      | verbatim c => exact hlater h
      | literal kind text =>
          rcases List.mem_cons.mp h with rfl | hmem
          · exact ⟨[], rest, rfl, (List.append_nil _).symm⟩
          · exact hlater hmem

theorem mem_pieces_of_mem_literals {code : List Char} (h : site ∈ literals code) :
    .literal site.kind site.text ∈ pieces none 0 code := by
  obtain ⟨front, back, hsplit, -⟩ := exists_of_mem_sites h
  rw [hsplit]
  exact List.mem_append_right _ (List.mem_cons_self ..)

/-- No literal begins before the one to its left has ended. -/
theorem pairwise_sites (before ps : List Piece) :
    (sites before ps).Pairwise fun a b => a.stop ≤ b.start := by
  induction ps generalizing before with
  | nil => exact .nil
  | cons piece rest ih =>
      cases piece with
      | verbatim c => exact ih _
      | literal kind text =>
          refine List.pairwise_cons.mpr ⟨fun site hsite => ?_, ih _⟩
          obtain ⟨front, back, -, hbefore⟩ := exists_of_mem_sites hsite
          show Text.byteCount (before.flatMap Piece.text) + Text.byteCount text ≤
            Text.byteCount (site.before.flatMap Piece.text)
          rw [hbefore, List.flatMap_append, List.flatMap_append, List.flatMap_singleton, Piece.text,
            Text.byteCount_append, Text.byteCount_append]
          exact Nat.le_add_right ..

/-! ### Isolated numbers -/

/-- A word between two parts of code that is the longest number where it begins and touches no
identifier character and no point. -/
structure Isolated (left word right : List Char) : Prop where
  longest : Longest word (word ++ right)
  free : attaches left.getLast? = false
  ends : attaches right.head? = false

/-- What goes on at this place stands behind the sign in the exponent of the longest number at an
earlier place, which no identifier character and no point is in front of. -/
def BehindSign (left rest : List Char) : Prop :=
  ∃ earlier mantissa letter sign digits, left = earlier ++ (mantissa ++ [letter, sign]) ∧
    attaches earlier.getLast? = false ∧ (sign = '+' ∨ sign = '-') ∧
    IsExponent (letter :: sign :: digits) ∧
    Longest (mantissa ++ letter :: sign :: digits) (mantissa ++ letter :: sign :: rest)

theorem Longest.unique (h : Longest word text) (h' : Longest right text) : word = right :=
  (longest_iff.mp h).2.trans (longest_iff.mp h').2.symm

theorem Longest.ne_nil (h : Longest word text) : word ≠ [] := by
  rintro rfl
  exact absurd (startsLexeme_of_isNumber h.number []) (by simp [startsLexeme])

/-- A number inside a longer one that begins to the left of it stands behind its sign. -/
private theorem behindSign_of_inside (longest : Longest (front ++ tail) (front ++ text))
    (nonempty : front ≠ []) (outside : attaches left.getLast? = false)
    (free : attaches (left ++ front).getLast? = false) : BehindSign (left ++ front) text := by
  rw [List.getLast?_append_of_ne_nil _ nonempty] at free
  obtain ⟨mantissa, letter, sign, rfl, hsign, hexponent⟩ := longest.number.exists_sign nonempty free
  refine ⟨left, mantissa, letter, sign, tail, rfl, outside, hsign, hexponent, ?_⟩
  simpa using longest

/-- A word that stands behind others is cut out as a literal, or it stands behind a sign. -/
def Located (left front word right : List Char) (ps : List Piece) : Prop :=
  (∃ before kind back, ps = before ++ .literal kind word :: back ∧
    before.flatMap Piece.text = front) ∨ BehindSign (left ++ front) (word ++ right)

/-- It is located among more pieces when it is behind them. -/
private theorem Located.behind {lead : List Piece} {led : List Char}
    (hled : lead.flatMap Piece.text = led) (h : Located (left ++ led) front word right ps) :
    Located left (led ++ front) word right (lead ++ ps) := by
  rcases h with ⟨before, kind, back, rfl, rfl⟩ | hsign
  · refine .inl ⟨lead ++ before, kind, back, (List.append_assoc ..).symm, ?_⟩
    rw [List.flatMap_append, hled]
  · rw [List.append_assoc] at hsign
    exact .inr hsign

/-- An isolated number is a lexeme, stands inside it, or begins behind it. -/
private theorem Isolated.cases_of_spans {lexeme : List Char}
    (isolated : Isolated (left ++ front) word right) (spans : Spans kind lexeme tail)
    (outside : attaches left.getLast? = false)
    (split : lexeme ++ tail = front ++ (word ++ right)) :
    (front = [] ∧ word = lexeme ∧ right = tail) ∨ BehindSign (left ++ front) (word ++ right) ∨
      ∃ between, front = lexeme ++ between ∧ tail = between ++ (word ++ right) := by
  have hlongest := (spans_iff.mp spans).1
  rcases List.append_eq_append_iff.mp split with ⟨between, hfront, htail⟩ | ⟨inside, hlexeme, hword⟩
  · exact .inr (.inr ⟨between, hfront, htail⟩)
  · by_cases hfront : front = []
    · rw [hfront, List.nil_append] at split
      rw [split] at hlongest
      have hsame := isolated.longest.unique hlongest
      rw [hsame, List.append_cancel_left_eq] at split
      exact .inl ⟨hfront, hsame, split.symm⟩
    · rw [split, hlexeme] at hlongest
      exact .inr (.inl (behindSign_of_inside hlongest hfront outside isolated.free))

namespace Cut

private theorem split_map_verbatim {ps front back : List Piece} {text : List Char}
    (split : word.map .verbatim ++ ps = front ++ .literal kind text :: back) :
    ∃ more, front = word.map .verbatim ++ more ∧ ps = more ++ .literal kind text :: back := by
  induction word generalizing front with
  | nil => exact ⟨front, rfl, split⟩
  | cons c rest ih =>
      cases front with
      | nil => exact absurd (List.cons.inj split).1 (by simp)
      | cons piece front =>
          obtain ⟨rfl, hrest⟩ := List.cons.inj split
          obtain ⟨more, rfl, hps⟩ := ih hrest
          exact ⟨more, rfl, hps⟩

/-- A lexeme leaves a place behind it where no literal begins. -/
theorem attaches_behind (left : List Char) (spans : Spans kind word tail) :
    attaches (left ++ word).getLast? = true := by
  rw [List.getLast?_append_of_ne_nil _ spans.ne_nil]
  exact spans.attaches_getLast?

/-- **What is cut out as a literal stands isolated.** -/
theorem isolated (cut : Cut touching text ps) (hleft : attaches left.getLast? = touching)
    {front back : List Piece} (split : ps = front ++ .literal kind word :: back) :
    ∃ right, text = front.flatMap Piece.text ++ (word ++ right) ∧ Spans kind word right ∧
      attaches (left ++ front.flatMap Piece.text).getLast? = false ∧
      attaches right.head? = false := by
  induction cut generalizing left front with
  | nil touching => exact absurd split (by simp)
  | verbatim starts more ih =>
      cases front with
      | nil => exact absurd (List.cons.inj split).1 (by simp)
      | cons piece front =>
          obtain ⟨rfl, hrest⟩ := List.cons.inj split
          rename_i c rest qs
          have hc : attaches (left ++ [c]).getLast? = attaches (some c) := by simp
          obtain ⟨right, rfl, hspans, hfree, hends⟩ := ih hc hrest
          refine ⟨right, rfl, hspans, ?_, hends⟩
          rw [List.append_assoc] at hfree
          exact hfree
  | literal spans free more ih =>
      cases front with
      | nil =>
          obtain ⟨hpiece, -⟩ := List.cons.inj split
          obtain ⟨rfl, rfl⟩ := Piece.literal.inj hpiece
          refine ⟨_, rfl, spans, ?_, free⟩
          rw [List.flatMap_nil, List.append_nil]
          exact hleft
      | cons piece front =>
          obtain ⟨rfl, hrest⟩ := List.cons.inj split
          obtain ⟨right, rfl, hspans, hfree, hends⟩ := ih (attaches_behind left spans) hrest
          rw [List.append_assoc] at hfree
          exact ⟨right, (List.append_assoc ..).symm, hspans, hfree, hends⟩
  | attached spans touched more ih =>
      obtain ⟨front, rfl, hrest⟩ := split_map_verbatim split
      obtain ⟨right, rfl, hspans, hfree, hends⟩ := ih (attaches_behind left spans) hrest
      rw [List.append_assoc] at hfree
      rw [List.flatMap_append, flatMap_text_verbatim]
      exact ⟨right, (List.append_assoc ..).symm, hspans, hfree, hends⟩

/-- **An isolated number is cut out as a literal, or it stands behind a sign.** -/
theorem located (cut : Cut touching text ps) (hleft : attaches left.getLast? = touching)
    (split : text = front ++ (word ++ right)) (isolated : Isolated (left ++ front) word right) :
    Located left front word right ps := by
  induction cut generalizing left front with
  | nil touching =>
      have hword := (List.append_eq_nil_iff.mp (List.append_eq_nil_iff.mp split.symm).2).1
      exact absurd hword isolated.longest.ne_nil
  | verbatim starts more ih =>
      rename_i touching c rest qs
      cases front with
      | nil =>
          -- A lexeme would begin here, and only an attached place is passed over.
          have hstarts := (longest_iff.mp isolated.longest).1
          rw [← List.nil_append (word ++ right), ← split] at hstarts
          have hfree := isolated.free
          rw [List.append_nil, hleft, starts hstarts] at hfree
          exact absurd hfree (by simp)
      | cons d front =>
          obtain ⟨rfl, hrest⟩ := List.cons.inj split
          have hc : attaches (left ++ [c]).getLast? = attaches (some c) := by simp
          rw [List.append_cons] at isolated
          have hlead : [Piece.verbatim c].flatMap Piece.text = [c] := rfl
          exact (ih hc hrest isolated).behind hlead
  | literal spans free more ih =>
      rename_i kind lexeme tail qs
      rcases isolated.cases_of_spans spans hleft split with
        ⟨rfl, rfl, rfl⟩ | hsign | ⟨between, rfl, hbetween⟩
      · exact .inl ⟨[], kind, qs, rfl, rfl⟩
      · exact .inr hsign
      · rw [← List.append_assoc] at isolated
        have hlead : [Piece.literal kind lexeme].flatMap Piece.text = lexeme :=
          List.flatMap_singleton ..
        exact (ih (attaches_behind left spans) hbetween isolated).behind hlead
  | attached spans touched more ih =>
      rename_i kind lexeme tail qs
      rcases isolated.cases_of_spans spans hleft split with
        ⟨rfl, rfl, rfl⟩ | hsign | ⟨between, rfl, hbetween⟩
      · rw [isolated.ends] at touched
        exact absurd touched (by simp)
      · exact .inr hsign
      · rw [← List.append_assoc] at isolated
        have hlead := flatMap_text_verbatim lexeme
        exact (ih (attaches_behind left spans) hbetween isolated).behind hlead

end Cut

/-- **The literals of code are its isolated numbers, but for some that stand behind a sign.** -/
theorem literals_isolated (code : List Char) :
    (literals code).Pairwise (fun a b => a.stop ≤ b.start) ∧
    (∀ site ∈ literals code, site.start < site.stop ∧
      (site.kind = .float ↔ '.' ∈ site.text ∨ 'e' ∈ site.text ∨ 'E' ∈ site.text) ∧
      ∃ right, code = site.left ++ (site.text ++ right) ∧ Isolated site.left site.text right) ∧
    ∀ left word right, code = left ++ (word ++ right) → Isolated left word right →
      (∃ site ∈ literals code, site.left = left ∧ site.text = word) ∨
        BehindSign left (word ++ right) := by
  have cut : Cut false code (pieces none 0 code) := cut_pieces none code
  have hstart : attaches ([] : List Char).getLast? = false := rfl
  refine ⟨pairwise_sites _ _, ?_, ?_⟩
  · intro site hsite
    obtain ⟨front, back, hsplit, hbefore⟩ := exists_of_mem_sites hsite
    rw [List.nil_append] at hbefore
    obtain ⟨right, hcode, hspans, hfree, hends⟩ := cut.isolated hstart hsplit
    rw [← hbefore] at hcode hfree
    refine ⟨?_, hspans.kind_iff, right, hcode, (spans_iff.mp hspans).1, hfree, hends⟩
    exact Nat.lt_add_of_pos_right (Text.byteCount_pos hspans.ne_nil)
  · intro left word right hcode isolated
    rcases cut.located hstart hcode isolated with
      ⟨before, kind, back, hsplit, hbefore⟩ | hsign
    · refine .inl ⟨⟨before, kind, word⟩, ?_, hbefore, rfl⟩
      rw [literals, hsplit]
      exact mem_sites [] before kind word back
    · exact .inr hsign

/-- The 2 behind the first sign is passed over with the number to its left, and so is the exponent
of `2e+3`; the 3 is a literal, as that number is none that was looked at. -/
example : (literals "1e+2e+3 = π * x1.5 + .5E1".toList).map
    (fun site => (site.start, site.stop, site.kind)) = [(6, 7, .int), (22, 26, .float)] := by
  decide +kernel

end Literal

end ShaderLink
