/-
Fields and the separators between them.

A field holds no separator, and fields without separators that are joined by one
come back when the text is cut again.  So a text of lines can be taken apart and
put together without a line being lost, and no word of a text holds a blank.
-/
import ShaderLink.Text.Blank

namespace ShaderLink

namespace Text

variable {separates : Char → Bool}

/-! ### What a field holds -/

private theorem separates_of_mem_fields {text field : List Char}
    (hfield : field ∈ fields separates text) : ∀ c ∈ field, separates c = false := by
  induction text generalizing field with
  | nil =>
      rw [fields, List.mem_singleton] at hfield
      simp [hfield]
  | cons c rest ih =>
      unfold fields at hfield
      split at hfield
      · rcases List.mem_cons.mp hfield with rfl | hrest
        · simp
        · exact ih hrest
      · rename_i hc
        cases hfields : fields separates rest with
        | nil => exact absurd hfields (fields_ne_nil _ _)
        | cons first more =>
            rw [hfields] at hfield ih
            rcases List.mem_cons.mp hfield with rfl | hmore
            · intro d hd
              rcases List.mem_cons.mp hd with rfl | hd
              · simpa using hc
              · exact ih (List.mem_cons_self ..) d hd
            · exact ih (List.mem_cons_of_mem _ hmore)

/-- No word holds a blank. -/
theorem isBlank_of_mem_words {text word : String} (hword : word ∈ words text) :
    ∀ c ∈ word.toList, isBlank c = false := by
  obtain ⟨field, hfield, rfl⟩ := List.mem_map.mp hword
  rw [String.toList_ofList]
  exact separates_of_mem_fields (List.mem_filter.mp hfield).1

/-- Fields stand in the text as they are, the first of them at its front. -/
private theorem isInfix_of_fields {text first : List Char} {more : List (List Char)}
    (h : fields separates text = first :: more) :
    first <+: text ∧ ∀ field ∈ more, field <:+: text := by
  induction text generalizing first more with
  | nil =>
      obtain ⟨rfl, rfl⟩ := List.cons.inj h
      exact ⟨List.prefix_refl [], by simp⟩
  | cons c rest ih =>
      obtain ⟨next, later, hrest⟩ := List.exists_cons_of_ne_nil (fields_ne_nil separates rest)
      obtain ⟨hnext, hlater⟩ := ih hrest
      have hinner : ∀ field ∈ later, field <:+: c :: rest :=
        fun field hfield => List.infix_cons (hlater field hfield)
      unfold fields at h
      rw [hrest] at h
      split at h
      · obtain ⟨rfl, rfl⟩ := List.cons.inj h
        exact ⟨List.nil_prefix, List.forall_mem_cons.mpr ⟨List.infix_cons hnext.isInfix, hinner⟩⟩
      · obtain ⟨rfl, rfl⟩ := List.cons.inj h
        exact ⟨List.cons_prefix_cons.mpr ⟨rfl, hnext⟩, hinner⟩

/-- A word stands in its text. -/
theorem isInfix_of_mem_words {text word : String} (hword : word ∈ words text) :
    word.toList <:+: text.toList := by
  obtain ⟨field, hfield, rfl⟩ := List.mem_map.mp hword
  rw [String.toList_ofList]
  obtain ⟨first, more, hfields⟩ :=
    List.exists_cons_of_ne_nil (fields_ne_nil isBlank text.toList)
  obtain ⟨hfirst, hmore⟩ := isInfix_of_fields hfields
  have hmem := (List.mem_filter.mp hfield).1
  rw [hfields] at hmem
  rcases List.mem_cons.mp hmem with rfl | hmem
  · exact hfirst.isInfix
  · exact hmore field hmem

/-! ### Cutting what was joined -/

theorem fields_of_free {field : List Char} (free : ∀ c ∈ field, separates c = false) :
    fields separates field = [field] := by
  induction field with
  | nil => rfl
  | cons c rest ih =>
      have hc : separates c = false := free c (List.mem_cons_self ..)
      rw [fields, if_neg (by simp [hc]), ih fun d hd => free d (List.mem_cons_of_mem _ hd)]
      rfl

/-- The first separator ends the first field. -/
theorem fields_append_cons {field : List Char} {s : Char} (rest : List Char)
    (free : ∀ c ∈ field, separates c = false) (hs : separates s = true) :
    fields separates (field ++ s :: rest) = field :: fields separates rest := by
  induction field with
  | nil => rw [List.nil_append, fields, if_pos hs]
  | cons c more ih =>
      have hc : separates c = false := free c (List.mem_cons_self ..)
      rw [List.cons_append, fields, if_neg (by simp [hc]),
        ih fun d hd => free d (List.mem_cons_of_mem _ hd)]
      rfl

/-- **Texts that hold no separator are the fields of what joins them.** -/
theorem fields_joinWith {separator : Char} {texts : List (List Char)} (nonempty : texts ≠ [])
    (free : ∀ text ∈ texts, separator ∉ text) :
    fields (· == separator) (joinWith separator texts) = texts := by
  have hfree : ∀ text ∈ texts, ∀ c ∈ text, (c == separator) = false := by
    intro text htext c hc
    simp only [beq_eq_false_iff_ne, ne_eq]
    intro heq
    exact free text htext (heq ▸ hc)
  clear free
  induction texts with
  | nil => exact absurd rfl nonempty
  | cons first more ih =>
      have hfirst := hfree first (List.mem_cons_self ..)
      cases more with
      | nil => exact fields_of_free hfirst
      | cons second later =>
          show fields _ (first ++ separator :: joinWith separator (second :: later)) = _
          rw [fields_append_cons _ hfirst (by simp),
            ih (by simp) fun text htext => hfree text (List.mem_cons_of_mem _ htext)]

/-! ### Texts in front of others -/

theorem joinWith_cons_of_ne_nil {texts : List (List Char)} (nonempty : texts ≠ [])
    (separator : Char) (first : List Char) :
    joinWith separator (first :: texts) = first ++ separator :: joinWith separator texts := by
  obtain ⟨second, later, rfl⟩ := List.exists_cons_of_ne_nil nonempty
  rfl

/-- What joins a text to those behind it is the same for every text, and begins with a separator. -/
theorem exists_joinWith_cons (separator : Char) (texts : List (List Char)) :
    ∃ more, (∀ d ∈ more.head?, d = separator) ∧
      ∀ first, joinWith separator (first :: texts) = first ++ more := by
  cases texts with
  | nil => exact ⟨[], by simp, fun first => (List.append_nil first).symm⟩
  | cons second later =>
      refine ⟨separator :: joinWith separator (second :: later), by simp, fun first => ?_⟩
      exact joinWith_cons_of_ne_nil (by simp) separator first

/-! ### Texts on one line -/

/-- A text without a line break. -/
def OneLine (text : String) : Prop := '\n' ∉ text.toList

namespace OneLine

theorem of_word {word : String} (h : ∀ c ∈ word.toList, isBlank c = false) : OneLine word :=
  fun hc => absurd (h _ hc) (by decide)

theorem append {text more : String} (h : OneLine text) (hmore : OneLine more) :
    OneLine (text ++ more) := by
  unfold OneLine
  rw [String.toList_append, List.mem_append, not_or]
  exact ⟨h, hmore⟩

theorem join {texts : List String} (h : ∀ text ∈ texts, OneLine text) :
    OneLine (String.join texts) := by
  unfold OneLine
  rw [String.toList_join, List.mem_flatMap]
  intro hmem
  obtain ⟨text, htext, hc⟩ := hmem
  exact h text htext hc

end OneLine

end Text

end ShaderLink
