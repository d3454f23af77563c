/-
The spans that a file's tokens are read in.

Each step of a reading takes the tokens of one statement, at least one, from the front of
those that are left (`ReadIn`).  So a reading that comes to the end of its file has cut the
tokens into spans that stand one behind the other without a gap, and there are no more of
them than tokens.

What the body keeps is told by the spans alone: those that no keyword opens, and the
precisions of other types than float.  The body is these spans, whole and in their order,
and so its tokens come in the order of the file's lines.
-/
import ShaderLink.Proofs.Unit.Script

namespace ShaderLink

/-- Whether the body keeps a span of tokens: no keyword opens it, or it is a precision whose third
token is another type than float. -/
def inBody : List Token → Bool
  | [] => false
  | first :: more =>
    !Statement.keywords.contains first.text ||
      (first.text == "precision" && more[1]?.any (·.text != "float"))

/-- What a statement leaves to the body is its whole span, or nothing of it. -/
private theorem Statement.bodyTokens_eq {s : Statement} {after : List Token}
    (h : s.ReadBefore after) : s.bodyTokens = if inBody s.tokens then s.tokens else [] := by
  have hkeyword {first : Token} {word : String} (more : List Token) (opens : first.text = word)
      (listed : keywords.contains word = true) (other : (word == "precision") = false) :
      inBody (first :: more) = false := by
    rw [inBody, opens, listed, other]
    rfl
  cases s with
  | constant kind keyword name sign first more stop =>
      have hspan : inBody (Statement.constant kind keyword name sign first more stop).tokens =
          false := by
        cases kind with
        | int => exact hkeyword _ h.1 (by decide) (by decide)
        | float => exact hkeyword _ h.1 (by decide) (by decide)
      rw [hspan]
      rfl
  | precision keyword qualifier type stop =>
      have hopens : keyword.text = "precision" := h
      show (if type.text = "float" then [] else [keyword, qualifier, type, stop]) =
        if inBody [keyword, qualifier, type, stop] = true then _ else []
      by_cases htype : type.text = "float"
      · have hspan : inBody [keyword, qualifier, type, stop] = false := by
          simp [inBody, hopens, keywords, htype]
        simp [htype, hspan]
      · have hspan : inBody [keyword, qualifier, type, stop] = true := by
          simp [inBody, hopens, htype]
        simp [htype, hspan, tokens]
  | inclusion keyword path =>
      rw [tokens, hkeyword _ h (by decide) (by decide)]
      rfl
  | version keyword number profile =>
      rw [tokens, hkeyword _ h.1 (by decide) (by decide)]
      rfl
  | stage keyword label found =>
      rw [tokens, hkeyword _ h.1 (by decide) (by decide)]
      rfl
  | code first more =>
      have hopens : keywords.contains first.text = false := by simpa using h.1
      have hspan : inBody (first :: more) = true := by
        rw [inBody, hopens]
        rfl
      rw [tokens, hspan]
      rfl

/-- The spans that tokens are read in, one at each step, up to the last token. -/
inductive ReadIn (path : String) : List Token → List (List Token) → Prop
  | done : ReadIn path [] []
  | step {keyword : Token} {rest after : List Token} {s : Statement} {spans : List (List Token)}
      (read : Statement.read path keyword rest = .ok (s, after)) (onward : ReadIn path after spans) :
      ReadIn path (keyword :: rest) (s.tokens :: spans)

namespace ReadIn

variable {path : String} {tokens : List Token} {spans : List (List Token)}

theorem flatten (h : ReadIn path tokens spans) : spans.flatten = tokens := by
  induction h with
  | done => rfl
  | step read onward ih =>
      rw [List.flatten_cons, ih]
      exact Statement.tokens_read read

/-- A step takes a token at least. -/
private theorem ne_nil (h : ReadIn path tokens spans) : ∀ span ∈ spans, span ≠ [] := by
  induction h with
  | done => simp
  | @step keyword rest after s spans read onward ih =>
      intro span hspan
      rcases List.mem_cons.mp hspan with rfl | hrest
      · exact s.tokens_ne_nil
      · exact ih span hrest

/-- So there are no more steps than tokens. -/
private theorem length_le (h : ReadIn path tokens spans) : spans.length ≤ tokens.length := by
  induction h with
  | done => exact Nat.le_refl _
  | step read onward ih =>
      have hshorter := Statement.length_of_read read
      rw [List.length_cons]
      omega

/-- **A reading that comes to the end of its file has cut it into spans, and leaves to the body those
that the body keeps.** -/
theorem of_ofTokens (h : (Reading.ofTokens path tokens).failure = none) :
    ∃ spans, ReadIn path tokens spans ∧
      (Reading.ofTokens path tokens).statements.flatMap Statement.bodyTokens =
        (spans.filter inBody).flatten := by
  induction tokens using Reading.ofTokens.induct path with
  | case1 =>
      rw [Reading.ofTokens]
      exact ⟨[], .done, rfl⟩
  | case2 keyword rest s after hread ih =>
      rw [Reading.ofTokens_of_ok hread] at h ⊢
      obtain ⟨spans, hspans, hbody⟩ := ih h
      refine ⟨s.tokens :: spans, .step hread hspans, ?_⟩
      show s.bodyTokens ++ (Reading.ofTokens path after).statements.flatMap Statement.bodyTokens = _
      rw [hbody, Statement.bodyTokens_eq (Statement.read_eq_ok_iff.mp hread).2, List.filter_cons]
      by_cases hkept : inBody s.tokens = true
      · rw [if_pos hkept, if_pos hkept]
        rfl
      · rw [if_neg hkept, if_neg hkept]
        rfl
  | case3 keyword rest error hread =>
      rw [Reading.ofTokens_of_error hread] at h
      exact absurd h (by simp)

end ReadIn

namespace ShaderUnit

variable {settings : Settings} {path : String} {tokens : List Token} {file : ShaderUnit}

/--
**The tokens of a unit are cut into spans, and its body is the spans that the body keeps.**  The
reading takes one span at a step, none of them empty, and all of them together are the tokens; and
when the tokens are those of lines that stand where the lines of a text do, the body's lines never
decrease.
-/
theorem spans_of_ofTokens (read : ofTokens settings path tokens = .ok file) :
    ∃ spans, ReadIn path tokens spans ∧ spans.flatten = tokens ∧ (∀ span ∈ spans, span ≠ []) ∧
      spans.length ≤ tokens.length ∧ file.body = (spans.filter inBody).flatten ∧
      ∀ (name text : String) (lines : List SourceLine),
        lines.map SourceLine.place = (SourceLine.read name text).map SourceLine.place →
          tokens = tokenize lines → file.body.Pairwise fun a b => a.line ≤ b.line := by
  obtain ⟨hcomplete, constants, -, rfl⟩ := ofReading_eq_ok_iff.mp read
  obtain ⟨spans, hspans, hbody⟩ := ReadIn.of_ofTokens hcomplete
  refine ⟨spans, hspans, hspans.flatten, hspans.ne_nil, hspans.length_le, hbody, ?_⟩
  intro name text lines places htokens
  have hordered : FileTokens name tokens := by
    rw [htokens]
    exact .of_places places
  have hpart : ((Reading.ofTokens path tokens).statements.flatMap Statement.bodyTokens).Sublist
      tokens := by
    have hsub := Statement.flatMap_bodyTokens_sublist (Reading.ofTokens path tokens).statements
    rwa [Reading.tokens_ofTokens hcomplete] at hsub
  exact (hordered.sublist hpart).ordered

/-- A file with all six forms of statements, a precision of another type, and code that a directive
cuts off before its semicolon. -/
def assorted : String :=
  "#version 300 es\n#type VERTEX\nprecision highp float;\nprecision lowp int;\n" ++
    "#include a\nconst int N = 1;\nconst float X = 2.5;\nint f()\n\x7b\n#include b\nreturn N; \x7d\n"

theorem assorted_spans :
    ∃ file, ofTokens .empty "main" (tokenize (SourceLine.read "main" assorted)) = .ok file ∧
      file.body.map (fun token => (token.line, token.text)) =
        [(4, "precision"), (4, "lowp"), (4, "int"), (4, ";"), (8, "int"), (8, "f"), (8, "("),
          (8, ")"), (9, "\x7b"), (11, "return"), (11, "N"), (11, ";"), (11, "\x7d")] ∧
      ∃ spans, ReadIn "main" (tokenize (SourceLine.read "main" assorted)) spans ∧
        spans.flatten = tokenize (SourceLine.read "main" assorted) ∧ (∀ span ∈ spans, span ≠ []) ∧
        spans.length ≤ (tokenize (SourceLine.read "main" assorted)).length ∧
        file.body = (spans.filter inBody).flatten ∧
        ∀ (name text : String) (lines : List SourceLine),
          lines.map SourceLine.place = (SourceLine.read name text).map SourceLine.place →
            tokenize (SourceLine.read "main" assorted) = tokenize lines →
              file.body.Pairwise fun a b => a.line ≤ b.line := by
  have hbody : (ofTokens .empty "main" (tokenize (SourceLine.read "main" assorted))).map
      (·.body.map fun token => (token.line, token.text)) =
        .ok [(4, "precision"), (4, "lowp"), (4, "int"), (4, ";"), (8, "int"), (8, "f"), (8, "("),
          (8, ")"), (9, "\x7b"), (11, "return"), (11, "N"), (11, ";"), (11, "\x7d")] := by
    decide +kernel
  obtain ⟨file, hread, hfile⟩ := exists_of_map_eq_ok hbody
  exact ⟨file, hread, hfile, spans_of_ofTokens hread⟩

end ShaderUnit

end ShaderLink
