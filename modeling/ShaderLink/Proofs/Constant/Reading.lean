/-
Reading a value back from its text.

An integer is printed in digits behind a sign, which spell it again.  The text of a finite
number has a point or an exponent, so it is no integer, and is read as the number.  An
expression is printed as it stands.  So the text of a value, as the initializer of a
constant of its kind, gives the value, whichever way the constant came to it.
-/
import ShaderLink.Proofs.Number.ReadBack
import ShaderLink.Proofs.Source.Declarations
import ShaderLink.Proofs.Unit.Constants

namespace ShaderLink

namespace Text

/-! ### Integers -/

private theorem int64?_toString (i : Int64) : int64? (toString i.toInt) = some i := by
  have hrange : -0x8000000000000000 ≤ i.toInt ∧ i.toInt < 0x8000000000000000 :=
    ⟨i.le_toInt, i.toInt_lt⟩
  rw [int64?, signed?_toString, Option.bind_some, int64OfInt?, if_pos hrange, Int64.ofInt_toInt]

private theorem isDigit_of_natural? {digits : List Char} {n : Nat} (h : natural? digits = some n) :
    ∀ c ∈ digits, c.isDigit = true := by
  unfold natural? at h
  split at h
  · rename_i hdigits
    exact List.all_eq_true.mp hdigits.2
  · exact absurd h (by simp)

/-- An integer is spelled with digits and a sign. -/
private theorem isDigit_of_signed? {text : List Char} {i : Int} (h : signed? text = some i) :
    ∀ c ∈ text, c.isDigit = true ∨ c = '+' ∨ c = '-' := by
  have hsigned {sign : Char} {digits : List Char} {n : Nat} (hsign : sign = '+' ∨ sign = '-')
      (hn : natural? digits = some n) :
      ∀ c ∈ sign :: digits, c.isDigit = true ∨ c = '+' ∨ c = '-' :=
    List.forall_mem_cons.mpr ⟨.inr hsign, fun c hc => .inl (isDigit_of_natural? hn c hc)⟩
  unfold signed? at h
  split at h
  · obtain ⟨j, hj, -⟩ := Option.map_eq_some_iff.mp h
    obtain ⟨n, hn, -⟩ := Option.bind_eq_some_iff.mp hj
    exact hsigned (.inr rfl) hn
  · obtain ⟨n, hn, -⟩ := Option.map_eq_some_iff.mp h
    unfold unsigned? at hn
    split at hn
    · exact hsigned (.inl rfl) hn
    · exact fun c hc => .inl (isDigit_of_natural? hn c hc)

private theorem int64?_toText {x : Binary32} (finite : x.isFinite = true) :
    int64? x.toText = none := by
  obtain ⟨whole, mark, rest, htext, -, hmark, -⟩ := Binary32.exists_toText finite
  rw [int64?, Option.bind_eq_none_iff]
  intro i hi
  have hdigit := isDigit_of_signed? hi mark (by simp [htext])
  rcases hmark with rfl | rfl
  all_goals exact absurd hdigit (by decide)

/-! ### Characters of numbers -/

private theorem not_isBlank_of_isNumeralChar {c : Char} (h : isNumeralChar c = true) :
    isBlank c = false := by
  simp only [isNumeralChar, Bool.or_eq_true, beq_iff_eq] at h
  rcases h with ((hdigit | rfl) | rfl) | rfl
  · have hbounds := Char.isDigit_iff_toNat.mp hdigit
    have hzero : '0'.toNat = 48 := rfl
    have hnine : '9'.toNat = 57 := rfl
    rw [Bool.eq_false_iff]
    intro hblank
    simp only [isBlank, Bool.or_eq_true, Bool.and_eq_true, decide_eq_true_eq, beq_iff_eq] at hblank
    omega
  all_goals decide

end Text

namespace ConstValue

variable {kind : ConstKind} {value : ConstValue}

/-- The value that an initializer gives a constant of a kind. -/
def initial (kind : ConstKind) (text : String) : ConstValue :=
  ((read text).coerce? kind).getD (.expr text)

private theorem initial_text_of_kind? (h : value.kind? = some kind)
    (finite : ∀ x, value = .float x → x.isFinite = true) : initial kind value.text = value := by
  cases value with
  | int i =>
      have hread : read (toString i.toInt) = .int i := by rw [read, Text.int64?_toString]
      rw [← Option.some.inj h, initial, text, hread]
      rfl
  | float x =>
      have hfinite := finite x rfl
      have hread : read x.toText = .float x := by
        have hnumber : Binary32.readFinite? x.toText = some x := by
          rw [Binary32.readFinite?, Binary32.read?_toText hfinite]
          simp [hfinite]
        rw [read, Text.int64?_toText hfinite, hnumber]
      rw [← Option.some.inj h, initial, text, hread]
      rfl
  | expr text => exact absurd h (by simp [kind?])

/-- The text of a number is a word of the characters that numbers are spelled with. -/
theorem isWord_text_of_kind? (h : value.kind? = some kind)
    (finite : ∀ x, value = .float x → x.isFinite = true) :
    Text.isWord value.text = true ∧ ∀ c ∈ value.text.toList, Text.isNumeralChar c = true := by
  have hchars : ∀ c ∈ value.text.toList, Text.isNumeralChar c = true := by
    intro c hc
    cases value with
    | int i => exact Text.isNumeralChar_of_mem_int hc
    | float x => exact Binary32.isNumeralChar_of_mem_toText (finite x rfl) hc
    | expr text => exact absurd h (by simp [kind?])
  refine ⟨Text.isWord_iff.mpr ⟨?_, fun c hc => Text.not_isBlank_of_isNumeralChar (hchars c hc)⟩,
    hchars⟩
  cases value with
  | int i =>
      intro hnil
      have hread := Text.signed?_toString i.toInt
      rw [show (toString i.toInt).toList = [] from hnil] at hread
      exact absurd hread (by simp [Text.signed?, Text.unsigned?, Text.natural?])
  | float x =>
      obtain ⟨whole, mark, rest, htext, -⟩ := Binary32.exists_toText (finite x rfl)
      rw [text, htext]
      simp
  | expr text => exact absurd h (by simp [kind?])

end ConstValue

namespace Statement

variable {settings : Settings} {path : String} {kind : ConstKind} {keyword name : Token}
  {initializer : String} {c : Constant}

/-- A declared constant is a number of its kind, or the expression of its initializer because this
gives no number. -/
theorem value_cases_of_declaredConstant
    (h : declaredConstant settings path kind keyword name initializer = .ok c) :
    c.value.kind? = some c.kind ∨
      c.value = .expr initializer ∧ ConstValue.initial c.kind initializer = c.value := by
  rcases declaredConstant_eq_ok_iff.mp h with ⟨number, value, hset, hcoerce, rfl⟩ | ⟨-, rfl⟩
  · rcases ConstValue.coerce?_cases hcoerce with ⟨text, rfl, -⟩ | ⟨-, hkind⟩
    · obtain ⟨found, hfound⟩ := Settings.kind?_of_number? hset
      exact absurd hfound (by simp [ConstValue.kind?])
    · exact .inl hkind
  · rcases ConstValue.initial_cases kind initializer with hexpr | hkind
    · exact .inr ⟨hexpr, rfl⟩
    · exact .inl hkind

/-- **The text of a declared value, read for the constant's kind, is the value.** -/
theorem initial_of_declaredConstant
    (h : declaredConstant settings path kind keyword name initializer = .ok c)
    (finite : ∀ x, c.value = .float x → x.isFinite = true) :
    ConstValue.initial c.kind c.value.text = c.value := by
  rcases value_cases_of_declaredConstant h with hkind | ⟨hexpr, hinitial⟩
  · exact ConstValue.initial_text_of_kind? hkind finite
  · have htext : c.value.text = initializer := by rw [hexpr]; rfl
    rw [htext]
    exact hinitial

end Statement

end ShaderLink
