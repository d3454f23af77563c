/-
The forms of statements, and the scripts that keep them.

A constant is documented as `const int NAME = VALUE... ;` and a precision as `precision
QUALIFIER TYPE ;`, each ending at its first semicolon.  A reader takes the name, the
equals sign and the end of a precision by their position alone, so a keyword in front of
other tokens, as in a parameter or a declaration without a value, begins a statement
that is not of its form and reaches into what stands behind it.

`ReadBefore` is what a reader does make sure of, and `read_eq_ok_iff` that it is all: a
statement is read exactly when this holds of it.  A `Script` is a token list made of
pieces of the documented forms.  The statements of a file are all of their forms exactly
when its tokens are a script.
-/
import ShaderLink.Proofs.Unit.Constants
import ShaderLink.Source.Spacing

namespace ShaderLink
namespace Statement

variable {file : String} {keyword : Token} {rest after : List Token} {s : Statement}

theorem constant?_eq_some_iff {kind : ConstKind} :
    constant? kind keyword rest = some (s, after) ↔
      ∃ name sign first more stop, s = .constant kind keyword name sign first more stop ∧
        rest = name :: sign :: first :: (more ++ stop :: after) ∧ stop.text = ";" ∧
          ∀ token ∈ more, token.text ≠ ";" := by
  constructor
  · intro h
    unfold constant? at h
    split at h
    · rename_i name sign first rest
      split at h
      · rename_i stop tail hdrop
        cases h
        refine ⟨name, sign, first, _, stop, rfl, ?_, ?_, ?_⟩
        · rw [← hdrop, List.takeWhile_append_dropWhile]
        · have hstop := List.head?_dropWhile_not (!isStop ·) rest
          rw [hdrop] at hstop
          simpa [isStop] using hstop
        · intro token htoken
          simpa [isStop] using List.all_eq_true.mp List.all_takeWhile token htoken
      · exact absurd h (by simp)
    · exact absurd h (by simp)
  · rintro ⟨name, sign, first, more, stop, rfl, rfl, hstop, hmore⟩
    have hnone : ∀ token ∈ more, (!isStop token) = true := by
      intro token htoken
      simpa [isStop] using hmore token htoken
    have hends : (!isStop stop) = false := by simp [isStop, hstop]
    simp [constant?, List.dropWhile_append_of_pos hnone, List.takeWhile_append_of_pos hnone, hends]

theorem read_cases :
    read file keyword rest = .ok (s, after) ↔
      (keyword.text = "const_int" ∧ constant? .int keyword rest = some (s, after)) ∨
      (keyword.text = "const_float" ∧ constant? .float keyword rest = some (s, after)) ∨
      (keyword.text = "precision" ∧ precision? keyword rest = some (s, after)) ∨
      (keyword.text = "#include" ∧ inclusion? keyword rest = some (s, after)) ∨
      (keyword.text = "#version" ∧ ∃ number more, rest = number :: more ∧
        (Text.count32? number.text).isSome ∧ versionOf keyword number more = (s, after)) ∨
      (keyword.text = "#type" ∧ ∃ label stage, rest = label :: after ∧
        Stage.ofName? label.text = some stage ∧ s = .stage keyword label stage) ∨
      (keyword.text ∉ keywords ∧ ∃ more, restOfCode keyword rest = (more, after) ∧
        s = .code keyword more) := by
  unfold read
  dsimp only
  split
  case h_1 | h_2 | h_3 | h_4 =>
    rename_i hkeyword
    simp only [hkeyword]
    split <;> simp_all [keywords]
  · rename_i hkeyword
    cases rest with
    | nil => simp [hkeyword, keywords]
    | cons number more =>
        by_cases hcount : (Text.count32? number.text).isSome
        · simp [hkeyword, keywords, hcount]
        · simp [hkeyword, keywords, hcount]
  · rename_i hkeyword
    cases rest with
    | nil => simp [hkeyword, keywords]
    | cons label more =>
        cases hstage : Stage.ofName? label.text with
        | none => simp [hkeyword, keywords, hstage]
        | some stage =>
            have hswap : Statement.stage keyword label stage = s ∧ more = after ↔
                more = after ∧ s = .stage keyword label stage :=
              ⟨fun h => ⟨h.2, h.1.symm⟩, fun h => ⟨h.2.symm, h.1⟩⟩
            simpa [hkeyword, keywords, hstage] using hswap
  · rename_i h1 h2 h3 h4 h5 h6
    simp only [show keyword.text ≠ "const_int" from h1, show keyword.text ≠ "const_float" from h2,
      show keyword.text ≠ "precision" from h3, show keyword.text ≠ "#include" from h4,
      show keyword.text ≠ "#version" from h5, show keyword.text ≠ "#type" from h6, keywords,
      List.mem_cons, List.not_mem_nil, or_false, false_and, false_or, not_false_eq_true, true_and]
    rw [Except.ok.injEq, Prod.mk.injEq]
    constructor
    · rintro ⟨rfl, rfl⟩
      exact ⟨_, rfl, rfl⟩
    · rintro ⟨more, hmore, rfl⟩
      rw [hmore]
      exact ⟨rfl, rfl⟩

theorem versionOf_eq_iff {number : Token} {more : List Token} :
    versionOf keyword number more = (s, after) ↔
      ∃ profile, s = .version keyword number profile ∧ more = profile.toList ++ after ∧
        (∀ token ∈ profile, token.line = number.line) ∧
        (profile = none → ∀ next ∈ after.head?, next.line ≠ number.line) := by
  cases more with
  | nil =>
      rw [versionOf, Prod.mk.injEq]
      constructor
      · rintro ⟨rfl, rfl⟩
        exact ⟨none, rfl, rfl, by simp, by simp⟩
      · rintro ⟨profile, rfl, hmore, -, -⟩
        cases profile with
        | none => exact ⟨rfl, hmore⟩
        | some token => exact absurd hmore (by simp)
  | cons next more =>
      rw [versionOf]
      split
      · rename_i hline
        rw [Prod.mk.injEq]
        constructor
        · rintro ⟨rfl, rfl⟩
          exact ⟨some next, rfl, rfl, by simpa using hline, by simp⟩
        · rintro ⟨profile, rfl, hmore, -, hoff⟩
          cases profile with
          | none =>
              rw [Option.toList_none, List.nil_append] at hmore
              exact absurd hline (hoff rfl next (by rw [← hmore]; rfl))
          | some token =>
              obtain ⟨rfl, rfl⟩ := List.cons.inj hmore
              exact ⟨rfl, rfl⟩
      · rename_i hline
        rw [Prod.mk.injEq]
        constructor
        · rintro ⟨rfl, rfl⟩
          exact ⟨none, rfl, rfl, by simp, by simpa using hline⟩
        · rintro ⟨profile, rfl, hmore, hon, -⟩
          cases profile with
          | none => exact ⟨rfl, hmore⟩
          | some token =>
              obtain ⟨rfl, rfl⟩ := List.cons.inj hmore
              exact absurd (hon next rfl) hline

/-- Code runs to its first semicolon, to the token before a keyword, or to the end. -/
def CodeEnds (after piece : List Token) : Prop :=
  (∀ token ∈ piece.tail, token.text ∉ keywords) ∧ (∀ token ∈ piece.dropLast, token.text ≠ ";") ∧
    ((∃ last ∈ piece.getLast?, last.text = ";") ∨ ∀ next ∈ after.head?, next.text ∈ keywords)

private theorem codeEnds_cons {first next : Token} {more : List Token} :
    CodeEnds after (first :: next :: more) ↔
      (first.text ≠ ";" ∧ next.text ∉ keywords) ∧ CodeEnds after (next :: more) := by
  simp only [CodeEnds, List.tail_cons, List.forall_mem_cons, List.dropLast_cons_cons,
    List.getLast?_cons_cons]
  constructor
  · rintro ⟨⟨hnext, hmore⟩, ⟨hfirst, hinner⟩, hends⟩
    exact ⟨⟨hfirst, hnext⟩, hmore, hinner, hends⟩
  · rintro ⟨⟨hfirst, hnext⟩, hmore, hinner, hends⟩
    exact ⟨⟨hnext, hmore⟩, ⟨hfirst, hinner⟩, hends⟩

theorem restOfCode_eq_iff {first : Token} {more : List Token} :
    restOfCode first rest = (more, after) ↔
      more ++ after = rest ∧ CodeEnds after (first :: more) := by
  induction rest generalizing first more with
  | nil =>
      rw [restOfCode, Prod.mk.injEq]
      constructor
      · rintro ⟨rfl, rfl⟩
        exact ⟨rfl, by simp [CodeEnds]⟩
      · rintro ⟨hrest, -⟩
        obtain ⟨rfl, rfl⟩ := List.append_eq_nil_iff.mp hrest
        exact ⟨rfl, rfl⟩
  | cons next rest ih =>
      -- The code goes on with the next token unless it ends here or that is a keyword.
      have hgoes : (isStop first || keywords.contains next.text) = true ↔
          ¬ (first.text ≠ ";" ∧ next.text ∉ keywords) := by
        simp only [isStop, Bool.or_eq_true, beq_iff_eq, List.contains_iff_mem]
        tauto
      rw [restOfCode]
      split
      · rename_i hends
        rw [Prod.mk.injEq]
        constructor
        · rintro ⟨rfl, rfl⟩
          refine ⟨rfl, ?_⟩
          simpa [CodeEnds, isStop] using hends
        · rintro ⟨hrest, hcode⟩
          cases more with
          | nil => exact ⟨rfl, hrest.symm⟩
          | cons second more =>
              obtain ⟨rfl, -⟩ := List.cons.inj hrest
              exact absurd (codeEnds_cons.mp hcode).1 (hgoes.mp hends)
      · rename_i hends
        have hon := not_not.mp (mt hgoes.mpr hends)
        generalize hinner : restOfCode next rest = inner
        obtain ⟨inner, behind⟩ := inner
        rw [Prod.mk.injEq]
        constructor
        · rintro ⟨rfl, rfl⟩
          obtain ⟨hrest, hcode⟩ := ih.mp hinner
          exact ⟨by rw [← hrest]; rfl, codeEnds_cons.mpr ⟨hon, hcode⟩⟩
        · rintro ⟨hrest, hcode⟩
          cases more with
          | nil =>
              rw [List.nil_append] at hrest
              rw [hrest] at hcode
              simp [CodeEnds] at hcode
              tauto
          | cons second more =>
              obtain ⟨rfl, hmore⟩ := List.cons.inj hrest
              have hsame := ih.mpr ⟨hmore, (codeEnds_cons.mp hcode).2⟩
              rw [hinner, Prod.mk.injEq] at hsame
              exact ⟨by rw [hsame.1], hsame.2⟩

/-- A statement as it is read in front of other tokens. -/
def ReadBefore (after : List Token) : Statement → Prop
  | .constant kind keyword _ _ _ more stop =>
    keyword.text = Spacing.joined kind ∧ stop.text = ";" ∧ ∀ token ∈ more, token.text ≠ ";"
  | .precision keyword _ _ _ => keyword.text = "precision"
  | .inclusion keyword _ => keyword.text = "#include"
  | .version keyword number profile =>
    keyword.text = "#version" ∧ (Text.count32? number.text).isSome ∧
      (∀ token ∈ profile, token.line = number.line) ∧
      (profile = none → ∀ next ∈ after.head?, next.line ≠ number.line)
  | .stage keyword label found => keyword.text = "#type" ∧ Stage.ofName? label.text = some found
  | .code first more => first.text ∉ keywords ∧ CodeEnds after (first :: more)

/-- **A statement is read from tokens exactly when they begin with its own and it is as statements
are read.** -/
theorem read_eq_ok_iff :
    read file keyword rest = .ok (s, after) ↔
      s.tokens ++ after = keyword :: rest ∧ s.ReadBefore after := by
  rw [read_cases]
  constructor
  · rintro (⟨hkeyword, h⟩ | ⟨hkeyword, h⟩ | ⟨hkeyword, h⟩ | ⟨hkeyword, h⟩ | ⟨hkeyword, h⟩ |
      ⟨hkeyword, h⟩ | ⟨hkeyword, h⟩)
    · obtain ⟨name, sign, first, more, stop, rfl, rfl, hstop, hmore⟩ := constant?_eq_some_iff.mp h
      exact ⟨by simp [tokens], hkeyword, hstop, hmore⟩
    · obtain ⟨name, sign, first, more, stop, rfl, rfl, hstop, hmore⟩ := constant?_eq_some_iff.mp h
      exact ⟨by simp [tokens], hkeyword, hstop, hmore⟩
    · unfold precision? at h
      split at h
      · cases h
        exact ⟨rfl, hkeyword⟩
      · exact absurd h (by simp)
    · unfold inclusion? at h
      split at h
      · cases h
        exact ⟨rfl, hkeyword⟩
      · exact absurd h (by simp)
    · obtain ⟨number, more, rfl, hcount, hversion⟩ := h
      obtain ⟨profile, rfl, rfl, hon, hoff⟩ := versionOf_eq_iff.mp hversion
      exact ⟨rfl, hkeyword, hcount, hon, hoff⟩
    · obtain ⟨label, found, rfl, hstage, rfl⟩ := h
      exact ⟨rfl, hkeyword, hstage⟩
    · obtain ⟨more, hmore, rfl⟩ := h
      obtain ⟨rfl, hends⟩ := restOfCode_eq_iff.mp hmore
      exact ⟨rfl, hkeyword, hends⟩
  · rintro ⟨htokens, hread⟩
    cases s with
    | constant kind opening name sign first more stop =>
        obtain ⟨hkeyword, hstop, hmore⟩ := hread
        obtain ⟨rfl, rfl⟩ := List.cons.inj htokens
        have hconstant : constant? kind opening ([name, sign, first] ++ (more ++ [stop]) ++ after) =
            some (.constant kind opening name sign first more stop, after) :=
          constant?_eq_some_iff.mpr ⟨_, _, _, _, _, rfl, by simp, hstop, hmore⟩
        cases kind with
        | int => exact .inl ⟨hkeyword, hconstant⟩
        | float => exact .inr (.inl ⟨hkeyword, hconstant⟩)
    | precision opening qualifier type stop =>
        obtain ⟨rfl, rfl⟩ := List.cons.inj htokens
        exact .inr (.inr (.inl ⟨hread, rfl⟩))
    | inclusion opening path =>
        obtain ⟨rfl, rfl⟩ := List.cons.inj htokens
        exact .inr (.inr (.inr (.inl ⟨hread, rfl⟩)))
    | version opening number profile =>
        obtain ⟨hkeyword, hcount, hon, hoff⟩ := hread
        obtain ⟨rfl, rfl⟩ := List.cons.inj htokens
        exact .inr (.inr (.inr (.inr (.inl ⟨hkeyword, number, _, rfl, hcount,
          versionOf_eq_iff.mpr ⟨profile, rfl, rfl, hon, hoff⟩⟩))))
    | stage opening label found =>
        obtain ⟨hkeyword, hstage⟩ := hread
        obtain ⟨rfl, rfl⟩ := List.cons.inj htokens
        exact .inr (.inr (.inr (.inr (.inr (.inl ⟨hkeyword, label, found, rfl, hstage, rfl⟩)))))
    | code first more =>
        obtain ⟨hkeyword, hends⟩ := hread
        obtain ⟨rfl, rfl⟩ := List.cons.inj htokens
        exact .inr (.inr (.inr (.inr (.inr (.inr ⟨hkeyword, more,
          restOfCode_eq_iff.mpr ⟨rfl, hends⟩, rfl⟩)))))

/-! ### The documented forms -/

/-- A constant is `const int NAME = VALUE... ;`, and a precision ends with a semicolon. -/
def HasForm : Statement → Prop
  | .constant kind keyword _ sign _ _ stop =>
    keyword.text = Spacing.joined kind ∧ sign.text = "=" ∧ stop.text = ";"
  | .precision keyword _ _ stop => keyword.text = "precision" ∧ stop.text = ";"
  | _ => True

/-- A statement of its documented form, in which nothing stands behind a semicolon. -/
structure WellShaped (s : Statement) : Prop where
  form : s.HasForm
  confined : ∀ token ∈ s.tokens.dropLast, token.text ≠ ";"

end Statement

open Statement (CodeEnds keywords)

/-- Tokens that are pieces of the documented forms, one after another. -/
inductive Script : List Token → Prop
  | done : Script []
  | constant {kind : ConstKind} {keyword name sign first stop : Token} {more rest : List Token}
      (opens : keyword.text = Spacing.joined kind) (equals : sign.text = "=")
      (closes : stop.text = ";") (inner : ∀ token ∈ name :: first :: more, token.text ≠ ";")
      (onward : Script rest) : Script (keyword :: name :: sign :: first :: (more ++ stop :: rest))
  | precision {keyword qualifier type stop : Token} {rest : List Token}
      (opens : keyword.text = "precision") (closes : stop.text = ";")
      (inner : ∀ token ∈ [qualifier, type], token.text ≠ ";") (onward : Script rest) :
      Script (keyword :: qualifier :: type :: stop :: rest)
  | inclusion {keyword path : Token} {rest : List Token} (opens : keyword.text = "#include")
      (onward : Script rest) : Script (keyword :: path :: rest)
  /-- The profile is the token behind the number when it stands on the number's line. -/
  | version {keyword number : Token} {profile : Option Token} {rest : List Token}
      (opens : keyword.text = "#version") (counts : (Text.count32? number.text).isSome)
      (beside : ∀ token ∈ profile, token.line = number.line)
      (alone : profile = none → ∀ next ∈ rest.head?, next.line ≠ number.line)
      (onward : Script rest) : Script (keyword :: number :: (profile.toList ++ rest))
  | stage {keyword label : Token} {found : Stage} {rest : List Token}
      (opens : keyword.text = "#type") (names : Stage.ofName? label.text = some found)
      (onward : Script rest) : Script (keyword :: label :: rest)
  | code {first : Token} {more rest : List Token} (opens : first.text ∉ keywords)
      (ends : CodeEnds rest (first :: more)) (onward : Script rest) :
      Script (first :: (more ++ rest))

namespace Script

variable {path : String} {tokens after : List Token} {s : Statement}

/-- A statement of its form, read in front of a script, begins a script. -/
private theorem append (shaped : s.WellShaped) (read : s.ReadBefore after) (h : Script after) :
    Script (s.tokens ++ after) := by
  obtain ⟨hform, hconfined⟩ := shaped
  cases s with
  | constant kind keyword name sign first more stop =>
      obtain ⟨hkeyword, hequals, hstop⟩ := hform
      have hinner : ∀ token ∈ name :: first :: more, token.text ≠ ";" := by
        intro token htoken
        refine hconfined token ?_
        have hsplit : Statement.tokens (.constant kind keyword name sign first more stop) =
            (keyword :: name :: sign :: first :: more) ++ [stop] := rfl
        rw [hsplit, List.dropLast_concat]
        rcases List.mem_cons.mp htoken with rfl | hrest
        · simp
        · exact List.mem_cons_of_mem _ (List.mem_cons_of_mem _ (List.mem_cons_of_mem _ hrest))
      have hscript := Script.constant hkeyword hequals hstop hinner h
      simpa [Statement.tokens] using hscript
  | precision keyword qualifier type stop =>
      refine .precision hform.1 hform.2 ?_ h
      intro token htoken
      exact hconfined token (List.mem_cons_of_mem _ htoken)
  | inclusion keyword included => exact .inclusion read h
  | version keyword number profile =>
      obtain ⟨hkeyword, hcount, hon, hoff⟩ := read
      exact .version hkeyword hcount hon hoff h
  | stage keyword label found => exact .stage read.1 read.2 h
  | code first more => exact .code read.1 read.2 h

/-- Statements of their forms come from a script. -/
private theorem of_wellShaped (complete : (Reading.ofTokens path tokens).failure = none)
    (shaped : ∀ s ∈ (Reading.ofTokens path tokens).statements, s.WellShaped) : Script tokens := by
  induction tokens using Reading.ofTokens.induct path with
  | case1 => exact .done
  | case2 keyword rest s after hread ih =>
      rw [Reading.ofTokens_of_ok hread] at complete shaped
      obtain ⟨htokens, hbefore⟩ := Statement.read_eq_ok_iff.mp hread
      rw [← htokens]
      exact .append (shaped s (List.mem_cons_self ..)) hbefore
        (ih complete fun other hother => shaped other (List.mem_cons_of_mem _ hother))
  | case3 keyword rest error hread =>
      rw [Reading.ofTokens_of_error hread] at complete
      exact absurd complete (by simp)

/-- What is read in front of tokens is the first statement of both. -/
theorem ofTokens_append (read : s.ReadBefore after) :
    Reading.ofTokens path (s.tokens ++ after) = (Reading.ofTokens path after).cons s := by
  obtain ⟨keyword, rest, hsplit⟩ := List.exists_cons_of_ne_nil s.tokens_ne_nil
  have hall : s.tokens ++ after = keyword :: (rest ++ after) := by rw [hsplit]; rfl
  rw [hall]
  exact Reading.ofTokens_of_ok (Statement.read_eq_ok_iff.mpr ⟨hall, read⟩)

/-- The tokens of a statement stand together among those that it is read from. -/
theorem exists_append_readBefore (h : s ∈ (Reading.ofTokens path tokens).statements) :
    ∃ before after, tokens = before ++ (s.tokens ++ after) ∧ s.ReadBefore after := by
  induction tokens using Reading.ofTokens.induct path with
  | case1 =>
      rw [Reading.ofTokens] at h
      exact absurd h List.not_mem_nil
  | case2 keyword rest first after hread ih =>
      obtain ⟨hsplit, hbefore⟩ := Statement.read_eq_ok_iff.mp hread
      rw [Reading.ofTokens_of_ok hread] at h
      rcases List.mem_cons.mp h with rfl | h
      · exact ⟨[], after, hsplit.symm, hbefore⟩
      · obtain ⟨before, behind, hafter, hreads⟩ := ih h
        refine ⟨first.tokens ++ before, behind, ?_, hreads⟩
        rw [← hsplit, List.append_assoc, ← hafter]
  | case3 keyword rest error hread =>
      rw [Reading.ofTokens_of_error hread] at h
      exact absurd h List.not_mem_nil

/-- A reading that comes to the end of its file over statements of their forms. -/
structure Regular (reading : Reading) : Prop where
  complete : reading.failure = none
  shaped : ∀ s ∈ reading.statements, s.WellShaped

private theorem regular_append (read : s.ReadBefore after) (form : s.HasForm)
    (confined : ∀ token ∈ s.tokens.dropLast, token.text ≠ ";")
    (h : Regular (Reading.ofTokens path after)) :
    Regular (Reading.ofTokens path (s.tokens ++ after)) := by
  rw [ofTokens_append read]
  refine ⟨h.complete, ?_⟩
  intro other hother
  rcases List.mem_cons.mp hother with rfl | hrest
  · exact ⟨form, confined⟩
  · exact h.shaped other hrest

private theorem keyword_ne_stop {keyword : Token} {word : String} (opens : keyword.text = word)
    (h : word ≠ ";") : keyword.text ≠ ";" := by
  rw [opens]
  exact h

/-- **A script is read to its end, statement by statement of its form.** -/
theorem regular (h : Script tokens) : Regular (Reading.ofTokens path tokens) := by
  induction h with
  | done =>
      rw [Reading.ofTokens]
      exact ⟨rfl, by simp⟩
  | @constant kind keyword name sign first stop more rest opens equals closes inner onward ih =>
      have hsplit : keyword :: name :: sign :: first :: (more ++ stop :: rest) =
          (Statement.constant kind keyword name sign first more stop).tokens ++ rest := by
        simp [Statement.tokens]
      have hmore : ∀ token ∈ more, token.text ≠ ";" := fun token htoken =>
        inner token (List.mem_cons_of_mem _ (List.mem_cons_of_mem _ htoken))
      rw [hsplit]
      refine regular_append ⟨opens, closes, hmore⟩ ⟨opens, equals, closes⟩ ?_ ih
      have hfront : (Statement.constant kind keyword name sign first more stop).tokens =
          (keyword :: name :: sign :: first :: more) ++ [stop] := rfl
      rw [hfront, List.dropLast_concat]
      have hkeyword : keyword.text ≠ ";" := by
        cases kind with
        | int => exact keyword_ne_stop opens (by decide)
        | float => exact keyword_ne_stop opens (by decide)
      obtain ⟨hname, hvalue⟩ := List.forall_mem_cons.mp inner
      simp only [List.forall_mem_cons]
      exact ⟨hkeyword, hname, keyword_ne_stop equals (by decide), List.forall_mem_cons.mp hvalue⟩
  | @precision keyword qualifier type stop rest opens closes inner onward ih =>
      refine regular_append (s := .precision keyword qualifier type stop) opens ⟨opens, closes⟩ ?_ ih
      exact List.forall_mem_cons.mpr ⟨keyword_ne_stop opens (by decide), inner⟩
  | @inclusion keyword included rest opens onward ih =>
      refine regular_append (s := .inclusion keyword included) opens trivial ?_ ih
      exact List.forall_mem_singleton.mpr (keyword_ne_stop opens (by decide))
  | @version keyword number profile rest opens counts beside alone onward ih =>
      refine regular_append (s := .version keyword number profile)
        ⟨opens, counts, beside, alone⟩ trivial ?_ ih
      have hnumber : number.text ≠ ";" := by
        intro hstop
        rw [hstop] at counts
        exact absurd counts (by decide)
      have hkeyword : keyword.text ≠ ";" := keyword_ne_stop opens (by decide)
      intro token htoken
      have hmem : token ∈ [keyword, number] := by
        cases profile with
        | none => exact List.mem_cons.mpr (.inl (List.mem_singleton.mp htoken))
        | some profile => exact htoken
      rcases List.mem_cons.mp hmem with rfl | hlast
      · exact hkeyword
      · rw [List.mem_singleton.mp hlast]
        exact hnumber
  | @stage keyword label found rest opens names onward ih =>
      refine regular_append (s := .stage keyword label found) ⟨opens, names⟩ trivial ?_ ih
      exact List.forall_mem_singleton.mpr (keyword_ne_stop opens (by decide))
  | @code first more rest opens ends onward ih =>
      exact regular_append (s := .code first more) ⟨opens, ends⟩ trivial ends.2.1 ih

end Script

namespace ShaderUnit

variable {settings : Settings} {path : String} {tokens : List Token} {file : ShaderUnit}

/-- **Every constant of a unit comes from a statement, whose tokens stand together among those of
the file; and the statements of the file are all of their documented forms exactly when its tokens
are a script.** -/
theorem wellShaped_iff_script (read : ofTokens settings path tokens = .ok file) :
    ∃ statements, Reading.ofTokens path tokens = ⟨statements, none⟩ ∧
      statements.flatMap Statement.tokens = tokens ∧
      (∀ c ∈ file.constants.entries, ∃ s ∈ statements, s.Declares settings path c) ∧
      ((∀ s ∈ statements, s.WellShaped) ↔ Script tokens) := by
  obtain ⟨hcomplete, constants, hconstants, rfl⟩ := ofReading_eq_ok_iff.mp read
  refine ⟨(Reading.ofTokens path tokens).statements, ?_, Reading.tokens_ofTokens hcomplete, ?_,
    Script.of_wellShaped hcomplete, fun script => script.regular.shaped⟩
  · rw [← hcomplete]
  · intro c hc
    obtain ⟨before, s, after, hsplit, hdeclares, -⟩ := (mem_constantsOf hconstants).mp hc
    exact ⟨s, by rw [hsplit]; simp, hdeclares⟩

/-- A token of the first line of a main file. -/
def mainToken (text : String) : Token := ⟨"main", 1, text⟩

/-- The tokens of a function with a parameter that does not change. -/
def constantParameter : List Token :=
  ["int", "f", "(", "const_int", "n", ")", "\x7b", "return", "n", ";", "\x7d"].map mainToken

theorem constantParameter_wellShaped_iff :
    ∃ file, ofTokens .empty "main" constantParameter = .ok file ∧
      ∃ statements, Reading.ofTokens "main" constantParameter = ⟨statements, none⟩ ∧
        statements.flatMap Statement.tokens = constantParameter ∧
        (∀ c ∈ file.constants.entries, ∃ s ∈ statements, s.Declares .empty "main" c) ∧
        ((∀ s ∈ statements, s.WellShaped) ↔ Script constantParameter) := by
  obtain ⟨file, hread⟩ := exists_eq_ok_of_toBool
    (x := ofTokens .empty "main" constantParameter) (by decide +kernel)
  exact ⟨file, hread, wellShaped_iff_script hread⟩

/-- **The parameter is read as a constant**, of which the head of the function's body is the value:
its statement goes on to the end of the next one. -/
theorem constantParameter_misread :
    tokensOfText .empty "main" "int f(const int n) \x7b return n; \x7d" = .ok constantParameter ∧
      ∃ file statements, ofTokens .empty "main" constantParameter = .ok file ∧
        file.constants.entries = [⟨"n", .int, .expr "\x7breturnn", "main", some 1⟩] ∧
        Reading.ofTokens "main" constantParameter = ⟨statements, none⟩ ∧
        ¬ ∀ s ∈ statements, s.WellShaped := by
  have hconstants : (ofTokens .empty "main" constantParameter).map (·.constants.entries) =
      .ok [⟨"n", .int, .expr "\x7breturnn", "main", some 1⟩] := by decide +kernel
  obtain ⟨file, hread⟩ := exists_eq_ok_of_toBool
    (x := ofTokens .empty "main" constantParameter) (by decide +kernel)
  rw [hread] at hconstants
  have hstatements : Reading.ofTokens "main" constantParameter =
      ⟨[.code (mainToken "int") (["f", "("].map mainToken),
        .constant .int (mainToken "const_int") (mainToken "n") (mainToken ")") (mainToken "\x7b")
          (["return", "n"].map mainToken) (mainToken ";"),
        .code (mainToken "\x7d") []], none⟩ := by decide +kernel
  refine ⟨by decide +kernel, file, _, hread, Except.ok.inj hconstants, hstatements, ?_⟩
  intro hshaped
  have hform := (hshaped _ (List.mem_cons_of_mem _ (List.mem_cons_self ..))).form
  exact absurd hform.2.1 (by decide)

end ShaderUnit

end ShaderLink
