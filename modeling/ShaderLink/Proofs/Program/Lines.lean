/-
The lines that a body is made of.

Tokens in the order of their lines make one output line for each line that they stand
on: its record names the line, and its text is that of all the tokens there, joined by
single spaces.  The lines of a file come in ascending order, so none comes twice.
-/
import ShaderLink.Program.Body
import ShaderLink.Proofs.Unit.Tokens

namespace ShaderLink

namespace Body

def spacedText (tokens : List Token) : String := " ".intercalate (tokens.map (·.text))

/-- The output line that a line of a file makes with those of the tokens that stand on it. -/
def lineOf (path : String) (tokens : List Token) (number : Nat) : OutputLine :=
  ⟨⟨path, some number⟩, spacedText (tokens.filter (·.line == number))⟩

/-- The lines that tokens stand on, in ascending order. -/
structure LineNumbers (tokens : List Token) (numbers : List Nat) : Prop where
  ascending : numbers.Pairwise (· < ·)
  mem_iff : ∀ number, number ∈ numbers ↔ ∃ token ∈ tokens, token.line = number

variable {path : String} {tokens : List Token}

theorem append_spacedText {seen : List Token} (hseen : seen ≠ []) (path : String) (number : Nat)
    (token : Token) :
    OutputLine.append ⟨⟨path, some number⟩, spacedText seen⟩ token =
      ⟨⟨path, some number⟩, spacedText (seen ++ [token])⟩ := by
  have hmap : seen.map (·.text) ≠ [] := by simpa using hseen
  have htext : spacedText (seen ++ [token]) = spacedText seen ++ " " ++ token.text := by
    unfold spacedText
    rw [List.map_append, String.intercalate_append_of_ne_nil hmap (by simp)]
    simp
  rw [htext]
  rfl

section Groups

/-! ### Tokens of one line before tokens of later ones -/

variable {seen : List Token} {number : Nat} {numbers : List Nat}

private theorem LineNumbers.nil : LineNumbers [] [] := ⟨List.Pairwise.nil, by simp⟩

private theorem LineNumbers.append (hseen : seen ≠ []) (hline : ∀ token ∈ seen, token.line = number)
    (hlater : ∀ token ∈ tokens, number < token.line) (h : LineNumbers tokens numbers) :
    LineNumbers (seen ++ tokens) (number :: numbers) := by
  obtain ⟨first, more, rfl⟩ := List.exists_cons_of_ne_nil hseen
  refine ⟨List.pairwise_cons.mpr ⟨?_, h.ascending⟩, ?_⟩
  · intro n hn
    obtain ⟨token, htoken, rfl⟩ := (h.mem_iff n).mp hn
    exact hlater token htoken
  · intro n
    rw [List.mem_cons, h.mem_iff]
    constructor
    · intro hn
      rcases hn with rfl | ⟨token, htoken, rfl⟩
      · exact ⟨first, by simp, hline first (by simp)⟩
      · exact ⟨token, List.mem_append_right _ htoken, rfl⟩
    · intro hn
      obtain ⟨token, htoken, rfl⟩ := hn
      rcases List.mem_append.mp htoken with hold | hnew
      · exact Or.inl (hline token hold)
      · exact Or.inr ⟨token, hnew, rfl⟩

private theorem map_lineOf_append (hline : ∀ token ∈ seen, token.line = number)
    (hlater : ∀ token ∈ tokens, number < token.line) (h : LineNumbers tokens numbers) :
    (number :: numbers).map (lineOf path (seen ++ tokens)) =
      ⟨⟨path, some number⟩, spacedText seen⟩ :: numbers.map (lineOf path tokens) := by
  have hself : seen.filter (·.line == number) = seen := by
    rw [List.filter_eq_self]
    intro token htoken
    simp [hline token htoken]
  have hnone : tokens.filter (·.line == number) = [] := by
    rw [List.filter_eq_nil_iff]
    intro token htoken
    have := hlater token htoken
    simp
    omega
  rw [List.map_cons, lineOf, List.filter_append, hself, hnone, List.append_nil]
  refine congrArg _ (List.map_congr_left ?_)
  intro n hn
  have hseen : seen.filter (·.line == n) = [] := by
    rw [List.filter_eq_nil_iff]
    intro token htoken
    obtain ⟨other, hother, rfl⟩ := (h.mem_iff n).mp hn
    have := hlater other hother
    have := hline token htoken
    simp
    omega
  rw [lineOf, List.filter_append, hseen, List.nil_append]
  rfl

end Groups

/-! ### The lines of a file -/

theorem ofToken_eq {token : Token} (hfile : token.file = path) :
    OutputLine.ofToken token = ⟨⟨path, some token.line⟩, spacedText [token]⟩ := by
  unfold OutputLine.ofToken spacedText
  simp [hfile]

/-- A line begun with tokens of one source line is ended by a token of a later one, which begins
the next. -/
private theorem exists_linesFrom {seen : List Token} {number : Nat} (hseen : seen ≠ [])
    (hline : ∀ token ∈ seen, token.line = number) (hlater : ∀ token ∈ tokens, number ≤ token.line)
    (h : FileTokens path tokens) :
    ∃ numbers, LineNumbers (seen ++ tokens) numbers ∧
      linesFrom ⟨⟨path, some number⟩, spacedText seen⟩ number tokens =
        numbers.map (lineOf path (seen ++ tokens)) := by
  induction tokens generalizing seen number with
  | nil =>
      refine ⟨[number], LineNumbers.nil.append hseen hline (by simp), ?_⟩
      rw [map_lineOf_append hline (by simp) .nil]
      rfl
  | cons token rest ih =>
      have hrest := h.sublist (List.sublist_cons_self token rest)
      have hnext : ∀ other ∈ rest, token.line ≤ other.line := (List.pairwise_cons.mp h.ordered).1
      by_cases hle : token.line ≤ number
      · -- The token stands on the line of those seen.
        have heq : token.line = number := Nat.le_antisymm hle (hlater token (by simp))
        have hline' : ∀ other ∈ seen ++ [token], other.line = number := by
          intro other hother
          rcases List.mem_append.mp hother with hold | hnew
          · exact hline other hold
          · rw [List.mem_singleton.mp hnew]
            exact heq
        obtain ⟨numbers, hnumbers, hlines⟩ :=
          ih (by simp) hline' (fun other hother => heq ▸ hnext other hother) hrest
        rw [List.append_assoc] at hnumbers hlines
        refine ⟨numbers, hnumbers, ?_⟩
        rw [linesFrom, if_pos hle, append_spacedText hseen]
        exact hlines
      · -- It begins a line of its own.
        obtain ⟨numbers, hnumbers, hlines⟩ := ih (List.cons_ne_nil token []) (by simp) hnext hrest
        rw [List.singleton_append] at hnumbers hlines
        have hgreater : ∀ other ∈ token :: rest, number < other.line := by
          intro other hother
          rcases List.mem_cons.mp hother with rfl | hother
          · omega
          · have := hnext other hother
            omega
        refine ⟨number :: numbers, hnumbers.append hseen hline hgreater, ?_⟩
        rw [linesFrom, if_neg hle, ofToken_eq (h.file token (by simp)), hlines,
          map_lineOf_append hline hgreater hnumbers]

/-- **The tokens of a file make one line for each line that they stand on.** -/
theorem exists_fileLines (h : FileTokens path tokens) :
    ∃ numbers, LineNumbers tokens numbers ∧
      fileLines tokens = numbers.map (lineOf path tokens) := by
  cases tokens with
  | nil => exact ⟨[], .nil, rfl⟩
  | cons token rest =>
      have hnext : ∀ other ∈ rest, token.line ≤ other.line := (List.pairwise_cons.mp h.ordered).1
      have hrest := h.sublist (List.sublist_cons_self token rest)
      rw [fileLines, ofToken_eq (h.file token (by simp))]
      exact exists_linesFrom (List.cons_ne_nil token []) (by simp) hnext hrest

theorem oneLine_lineOf (h : FileTokens path tokens) (number : Nat) :
    Text.OneLine (lineOf path tokens number).text := by
  have htexts : ∀ text ∈ (tokens.filter (·.line == number)).map (·.text), Text.OneLine text := by
    intro text htext
    obtain ⟨token, htoken, rfl⟩ := List.mem_map.mp htext
    exact .of_word (h.word token (List.mem_filter.mp htoken).1)
  show Text.OneLine (" ".intercalate ((tokens.filter (·.line == number)).map (·.text)))
  generalize (tokens.filter (·.line == number)).map (·.text) = texts at htexts
  induction texts with
  | nil => simp [Text.OneLine]
  | cons first more ih =>
      have hmore := ih fun text htext => htexts text (List.mem_cons_of_mem _ htext)
      have hfirst := htexts first (List.mem_cons_self ..)
      by_cases hnil : more = []
      · subst hnil
        simpa using hfirst
      · rw [String.intercalate_cons_of_ne_nil hnil]
        exact (hfirst.append (by simp [Text.OneLine])).append hmore

end Body

end ShaderLink
