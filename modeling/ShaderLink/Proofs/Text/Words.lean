/-
Words as marked characters.

Two texts have the same words when they hold the same characters beside blanks and the
words begin at the same ones.  So it is enough to go through the texts from left to
right: `starts` lists the characters that are no separators, each with whether a field
begins with it, and `fullFields_eq_iff` says that this list tells the fields.
-/
import ShaderLink.Text.Blank

namespace ShaderLink
namespace Text

variable {separates : Char → Bool}

/-- The characters of a text that are no separators, each with whether a field begins with it;
`fresh` says so of the first of them when no separator stands before it. -/
def starts (separates : Char → Bool) (fresh : Bool) : List Char → List (Char × Bool)
  | [] => []
  | c :: rest =>
    if separates c then starts separates true rest
    else (c, fresh) :: starts separates false rest

/-- The characters of a field, with the mark of the first. -/
def marked (fresh : Bool) : List Char → List (Char × Bool)
  | [] => []
  | c :: rest => (c, fresh) :: rest.map fun d => (d, false)

theorem starts_of_separates {c : Char} (h : separates c = true) (fresh : Bool) (rest : List Char) :
    starts separates fresh (c :: rest) = starts separates true rest := by
  rw [starts, if_pos h]

theorem starts_of_not_separates {c : Char} (h : separates c = false) (fresh : Bool)
    (rest : List Char) :
    starts separates fresh (c :: rest) = (c, fresh) :: starts separates false rest := by
  rw [starts, if_neg (by simp [h])]

/-- Marked or not, they are the characters that separate nothing. -/
private theorem map_fst_starts (fresh : Bool) (text : List Char) :
    (starts separates fresh text).map Prod.fst = text.filter (!separates ·) := by
  induction text generalizing fresh with
  | nil => rfl
  | cons c rest ih =>
      cases hc : separates c with
      | true => rw [starts_of_separates hc, ih, List.filter_cons_of_neg (by simp [hc])]
      | false =>
          rw [starts_of_not_separates hc, List.map_cons, ih, List.filter_cons_of_pos (by simp [hc])]

/-- The first field takes the mark that the text is read with, and every later one begins. -/
private theorem starts_eq_flatMap (fresh : Bool) {text first : List Char} {more : List (List Char)}
    (h : fields separates text = first :: more) :
    starts separates fresh text = marked fresh first ++ more.flatMap (marked true) := by
  induction text generalizing fresh first more with
  | nil =>
      obtain ⟨rfl, rfl⟩ := List.cons.inj h
      rfl
  | cons c rest ih =>
      cases hrest : fields separates rest with
      | nil => exact absurd hrest (fields_ne_nil _ _)
      | cons next later =>
          unfold fields at h
          rw [hrest] at h
          cases hc : separates c with
          | true =>
              rw [hc, if_pos rfl] at h
              obtain ⟨rfl, rfl⟩ := List.cons.inj h
              rw [starts_of_separates hc, ih true hrest, List.flatMap_cons]
              rfl
          | false =>
              rw [hc, if_neg (by simp)] at h
              obtain ⟨rfl, rfl⟩ := List.cons.inj h
              rw [starts_of_not_separates hc, ih false hrest]
              cases next with
              | nil => rfl
              | cons d field => rfl

theorem starts_eq_flatMap_fullFields (text : List Char) :
    starts separates true text = (fullFields separates text).flatMap (marked true) := by
  cases h : fields separates text with
  | nil => exact absurd h (fields_ne_nil _ _)
  | cons first more =>
      rw [starts_eq_flatMap true h, ← List.flatMap_cons, ← h, fullFields]
      induction fields separates text with
      | nil => rfl
      | cons field fields ih => cases field <;> simp [marked, ih]

/-! ### The marks tell the fields -/

/-- What is marked begins: no unmarked character stands at the front of whole fields. -/
private theorem takeWhile_flatMap_marked {texts : List (List Char)}
    (full : ∀ text ∈ texts, text ≠ []) : (texts.flatMap (marked true)).takeWhile (!·.2) = [] := by
  cases texts with
  | nil => rfl
  | cons text more =>
      cases text with
      | nil => exact absurd rfl (full [] (List.mem_cons_self ..))
      | cons c rest => rfl

private theorem flatMap_marked_injective {texts others : List (List Char)}
    (full : ∀ text ∈ texts, text ≠ []) (full' : ∀ text ∈ others, text ≠ [])
    (h : texts.flatMap (marked true) = others.flatMap (marked true)) : texts = others := by
  induction texts generalizing others with
  | nil =>
      rcases others with _ | ⟨_ | ⟨c, rest⟩, more⟩
      · rfl
      · exact absurd rfl (full' [] (List.mem_cons_self ..))
      · exact absurd h.symm (List.cons_ne_nil _ _)
  | cons text more ih =>
      have hfull := fun field hfield => full field (List.mem_cons_of_mem _ hfield)
      rcases text with _ | ⟨c, rest⟩
      · exact absurd rfl (full [] (List.mem_cons_self ..))
      rcases others with _ | ⟨_ | ⟨d, rest'⟩, more'⟩
      · exact absurd h (List.cons_ne_nil _ _)
      · exact absurd rfl (full' [] (List.mem_cons_self ..))
      have hfull' := fun field hfield => full' field (List.mem_cons_of_mem _ hfield)
      rw [List.flatMap_cons, List.flatMap_cons] at h
      obtain ⟨hhead, htail⟩ := List.cons.inj h
      rw [List.append_eq, List.append_eq] at htail
      have hplain : ∀ field : List Char, ∀ p ∈ field.map fun e => (e, false), (!p.2) = true := by
        intro field p hp
        obtain ⟨e, -, rfl⟩ := List.mem_map.mp hp
        rfl
      -- the unmarked characters up to the next mark are the rest of the first field
      have hrest := congrArg (List.takeWhile (!·.2)) htail
      rw [List.takeWhile_append_of_pos (hplain rest), List.takeWhile_append_of_pos (hplain rest'),
        takeWhile_flatMap_marked hfull, takeWhile_flatMap_marked hfull', List.append_nil,
        List.append_nil] at hrest
      rw [hrest, List.append_cancel_left_eq] at htail
      have heq : rest = rest' := (List.map_inj_right fun a b hab => (Prod.mk.inj hab).1).mp hrest
      rw [(Prod.mk.inj hhead).1, heq, ih hfull hfull' htail]

/-- **Texts have the same fields when the same characters of them begin a field.** -/
theorem fullFields_eq_iff {text other : List Char} :
    fullFields separates text = fullFields separates other ↔
      starts separates true text = starts separates true other := by
  rw [starts_eq_flatMap_fullFields, starts_eq_flatMap_fullFields]
  constructor
  · intro h
    rw [h]
  · refine flatMap_marked_injective ?_ ?_
    all_goals
      intro field hfield
      simpa using (List.mem_filter.mp hfield).2

/-! ### Texts side by side -/

/-- A separator ends a field and begins another. -/
private theorem fields_append_separator {s : Char} (hs : separates s = true)
    (text rest : List Char) :
    fields separates (text ++ s :: rest) = fields separates text ++ fields separates rest := by
  induction text with
  | nil =>
      show fields separates (s :: rest) = [] :: fields separates rest
      rw [fields, if_pos hs]
  | cons c text ih =>
      obtain ⟨field, more, hfields⟩ := List.exists_cons_of_ne_nil (fields_ne_nil separates text)
      rw [List.cons_append, fields, fields, ih, hfields]
      split <;> rfl

theorem fullFields_append_separator {s : Char} (hs : separates s = true) (text rest : List Char) :
    fullFields separates (text ++ s :: rest) =
      fullFields separates text ++ fullFields separates rest := by
  rw [fullFields, fields_append_separator hs, List.filter_append]
  rfl

/-- The fields that hold something make up what separates nothing. -/
theorem flatten_fullFields (text : List Char) :
    (fullFields separates text).flatten = text.filter (!separates ·) := by
  have hmarked (field : List Char) : (marked true field).map Prod.fst = field := by
    cases field with
    | nil => rfl
    | cons c field => simp [marked, Function.comp_def]
  rw [← map_fst_starts true text, starts_eq_flatMap_fullFields, List.map_flatMap]
  simp only [hmarked, List.flatMap_id']

/-- The characters of a text beside its blanks. -/
def inked (text : List Char) : List Char := text.filter (!isBlank ·)

theorem inked_append (text more : List Char) : inked (text ++ more) = inked text ++ inked more :=
  List.filter_append ..

theorem words_eq_iff {text other : String} :
    words text = words other ↔
      starts isBlank true text.toList = starts isBlank true other.toList := by
  rw [← fullFields_eq_iff, words, words]
  exact List.map_inj_right fun a b hab => String.ofList_injective hab

theorem inked_eq_of_starts_eq {text other : List Char}
    (h : starts isBlank true text = starts isBlank true other) : inked text = inked other := by
  have hmap := congrArg (List.map Prod.fst) h
  rwa [map_fst_starts, map_fst_starts] at hmap

end Text
end ShaderLink
