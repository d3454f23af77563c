/-
Lists that are cut, scanned and looked up in.

A file is often spoken of as the lines before one of its lines, that line, and the lines
behind it, and a text as what stands before a mark, the mark, and the rest.  Two such cuts
of one list are the same cut unless one of them cuts a part of the other, so they are the
same where neither element stands in front of the other.

A scan that remembers what it saw last begins with something that stood before the list.

Where the entries of a list have distinct keys, an entry is found under its key wherever
it stands.
-/
import Mathlib.Data.List.Nodup

namespace ShaderLink

/-! ### Cuts before an element -/

section Cuts

variable {α : Type} {front back front' back' : List α} {x y : α}

/-- Two cuts of a list before an element are the same cut, or one of them cuts a part of the
other. -/
theorem cuts_cases (h : front ++ x :: back = front' ++ y :: back') :
    (front = front' ∧ x = y ∧ back = back') ∨
      (∃ between, front' = front ++ x :: between ∧ back = between ++ y :: back') ∨
        ∃ between, front = front' ++ y :: between ∧ back' = between ++ x :: back := by
  rcases List.append_eq_append_iff.mp h with ⟨part, rfl, hpart⟩ | ⟨part, rfl, hpart⟩
  · rcases List.cons_eq_append_iff.mp hpart with ⟨rfl, hsame⟩ | ⟨between, rfl, hbetween⟩
    · obtain ⟨rfl, rfl⟩ := List.cons.inj hsame
      simp
    · exact .inr (.inl ⟨between, rfl, hbetween⟩)
  · rcases List.cons_eq_append_iff.mp hpart with ⟨rfl, hsame⟩ | ⟨between, rfl, hbetween⟩
    · obtain ⟨rfl, rfl⟩ := List.cons.inj hsame
      simp
    · exact .inr (.inr ⟨between, rfl, hbetween⟩)

/-- Two cuts of a list are the same when the element of neither stands in front of the other's. -/
theorem cut_unique (hfront : y ∉ front) (hfront' : x ∉ front')
    (h : front ++ x :: back = front' ++ y :: back') : front = front' ∧ x = y ∧ back = back' := by
  rcases cuts_cases h with hsame | ⟨between, rfl, -⟩ | ⟨between, rfl, -⟩
  · exact hsame
  · exact absurd (by simp) hfront'
  · exact absurd (by simp) hfront

end Cuts

/-- The last of a list, or else what stands before it, when the first of the list has been seen. -/
theorem getLast?_cons_or {α : Type} (x : α) (rest : List α) (before : Option α) :
    (x :: rest).getLast?.or before = rest.getLast?.or (some x) := by
  rw [List.getLast?_cons]
  cases rest.getLast? <;> rfl

/-! ### Entries of distinct keys -/

section Keyed

variable {α β : Type} {key : α → String}

/-- Where the keys are distinct, a look-up finds the entry with the key. -/
theorem find?_eq_some_iff_of_nodup {entries : List α} (distinct : (entries.map key).Nodup)
    {name : String} {x : α} :
    entries.find? (key · == name) = some x ↔ x ∈ entries ∧ key x = name := by
  constructor
  · intro hfind
    exact ⟨List.mem_of_find?_eq_some hfind, by simpa using List.find?_some hfind⟩
  · rintro ⟨hx, rfl⟩
    cases hfind : entries.find? (key · == key x) with
    | none => exact absurd (List.find?_eq_none.mp hfind x hx) (by simp)
    | some y =>
        have hkey : key y = key x := by simpa using List.find?_some hfind
        rw [List.inj_on_of_nodup_map distinct (List.mem_of_find?_eq_some hfind) hx hkey]

/-- So the last entry of a key is the first. -/
theorem find?_reverse {entries : List α} (distinct : (entries.map key).Nodup) (name : String) :
    entries.reverse.find? (key · == name) = entries.find? (key · == name) := by
  have hreversed : (entries.reverse.map key).Nodup := by
    rw [List.map_reverse]
    exact List.nodup_reverse.mpr distinct
  refine Option.ext fun x => ?_
  rw [find?_eq_some_iff_of_nodup hreversed, find?_eq_some_iff_of_nodup distinct, List.mem_reverse]

theorem lookup_eq_find? (entries : List (String × β)) (name : String) :
    entries.lookup name = (entries.find? (·.1 == name)).map (·.2) := by
  induction entries with
  | nil => rfl
  | cons entry rest ih =>
      rw [List.lookup_cons, List.find?_cons, ih, Bool.beq_comm]
      cases entry.1 == name <;> rfl

/-- In a list of pairs with distinct names, a value is found under its name. -/
theorem lookup_eq_some_iff_of_nodup {entries : List (String × β)}
    (distinct : (entries.map Prod.fst).Nodup) {name : String} {value : β} :
    entries.lookup name = some value ↔ (name, value) ∈ entries := by
  rw [lookup_eq_find?, Option.map_eq_some_iff]
  constructor
  · rintro ⟨entry, hfind, rfl⟩
    obtain ⟨hentry, rfl⟩ := (find?_eq_some_iff_of_nodup distinct).mp hfind
    exact hentry
  · intro hentry
    exact ⟨_, (find?_eq_some_iff_of_nodup distinct).mpr ⟨hentry, rfl⟩, rfl⟩

end Keyed

end ShaderLink
