/-
Results that may be failures.

A step of a build either fails or returns something, and steps are joined so that
the first failure ends them.  These lemmas take such joined steps apart: a joined
result comes from a result of each step, and a failure from a failure of one behind
results of those before it.
-/
namespace ShaderLink

variable {ε α β : Type}

/-- Two joined steps return what the second makes of the result of the first. -/
theorem bind_eq_ok_iff {x : Except ε α} {f : α → Except ε β} {b : β} :
    (x >>= f) = .ok b ↔ ∃ a, x = .ok a ∧ f a = .ok b := by
  cases x with
  | error e =>
      constructor
      · intro h
        exact absurd h (by simp [bind, Except.bind])
      · intro h
        obtain ⟨a, ha, -⟩ := h
        exact absurd ha (by simp)
  | ok a =>
      constructor
      · intro h
        exact ⟨a, rfl, h⟩
      · intro h
        obtain ⟨a', ha, h⟩ := h
        rw [Except.ok.inj ha]
        exact h

/-- Two joined steps fail as the first does, or as the second does after the first. -/
theorem bind_eq_error_iff {x : Except ε α} {f : α → Except ε β} {e : ε} :
    (x >>= f) = .error e ↔ x = .error e ∨ ∃ a, x = .ok a ∧ f a = .error e := by
  cases x with
  | error e' => simp [bind, Except.bind]
  | ok a => simp [bind, Except.bind]

/-- What follows a step matters only for what the step returns. -/
theorem bind_congr_of_ok {x : Except ε α} {f g : α → Except ε β}
    (h : ∀ a, x = .ok a → f a = g a) : (x >>= f) = (x >>= g) := by
  cases x with
  | error e => rfl
  | ok a => exact h a rfl

theorem foldlM_cons_eq_ok_iff {f : β → α → Except ε β} {x : α} {rest : List α} {start result : β} :
    (x :: rest).foldlM f start = .ok result ↔
      ∃ next, f start x = .ok next ∧ rest.foldlM f next = .ok result := by
  rw [List.foldlM_cons, bind_eq_ok_iff]

theorem foldlM_cons_eq_error_iff {f : β → α → Except ε β} {x : α} {rest : List α} {start : β}
    {e : ε} :
    (x :: rest).foldlM f start = .error e ↔
      f start x = .error e ∨ ∃ next, f start x = .ok next ∧ rest.foldlM f next = .error e := by
  rw [List.foldlM_cons, bind_eq_error_iff]

/-- What steps return, each comes from one of them. -/
theorem exists_of_mem_mapM {f : α → Except ε β} {xs : List α} {results : List β}
    (h : xs.mapM f = .ok results) {b : β} (hb : b ∈ results) : ∃ a ∈ xs, f a = .ok b := by
  induction xs generalizing results with
  | nil =>
      rw [← Except.ok.inj h] at hb
      exact absurd hb List.not_mem_nil
  | cons x rest ih =>
      rw [List.mapM_cons] at h
      obtain ⟨first, hfirst, hrest⟩ := bind_eq_ok_iff.mp h
      obtain ⟨more, hmore, hresult⟩ := bind_eq_ok_iff.mp hrest
      rw [← Except.ok.inj hresult] at hb
      rcases List.mem_cons.mp hb with rfl | hb
      · exact ⟨x, List.mem_cons_self .., hfirst⟩
      · obtain ⟨a, ha, hab⟩ := ih hmore hb
        exact ⟨a, List.mem_cons_of_mem _ ha, hab⟩

/-- Steps that each return something or fail return what all of them return. -/
theorem mapM_eq_ok_iff {f : α → Except ε β} {g : α → Option β}
    (returns : ∀ x y, f x = .ok y ↔ g x = some y) {xs : List α} {ys : List β} :
    xs.mapM f = .ok ys ↔ xs.map g = ys.map some := by
  induction xs generalizing ys with
  | nil =>
      cases ys with
      | nil => exact iff_of_true rfl rfl
      | cons y rest => exact iff_of_false (by simp [pure, Except.pure]) (by simp)
  | cons x xs ih =>
      rw [List.mapM_cons, bind_eq_ok_iff, List.map_cons]
      constructor
      · rintro ⟨y, hy, hrest⟩
        obtain ⟨rest, hmore, hys⟩ := bind_eq_ok_iff.mp hrest
        rw [← Except.ok.inj hys, List.map_cons, (returns x y).mp hy, ih.mp hmore]
      · intro hmap
        cases ys with
        | nil => exact absurd hmap (by simp)
        | cons y rest =>
            obtain ⟨hx, hxs⟩ := List.cons.inj hmap
            refine ⟨y, (returns x y).mpr hx, bind_eq_ok_iff.mpr ⟨rest, ih.mpr hxs, rfl⟩⟩

/-- What is seen to succeed has a result. -/
theorem exists_eq_ok_of_toBool {x : Except ε α} (h : x.toBool = true) : ∃ a, x = .ok a := by
  cases x with
  | error e => exact absurd h (by simp [Except.toBool])
  | ok a => exact ⟨a, rfl⟩

theorem exists_of_map_eq_ok {x : Except ε α} {f : α → β} {b : β} (h : x.map f = .ok b) :
    ∃ a, x = .ok a ∧ f a = b := by
  cases x with
  | error e => exact absurd h (by simp [Except.map])
  | ok a => exact ⟨a, rfl, Except.ok.inj h⟩

end ShaderLink
