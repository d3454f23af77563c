/-
The tokens of a file.

The passes over a file change the texts of lines and never their places, and a token
is a word of a line.  So the tokens of a text all name the file, come in the order of
their lines, and hold no blank; and what a unit keeps of them are its body, in the
same order, and the parts of its statements.
-/
import ShaderLink.Proofs.Text.Fields
import ShaderLink.Proofs.Unit.Loading

namespace ShaderLink

/-! ### Places of lines -/

/-- The file and the number of a line. -/
def SourceLine.place (line : SourceLine) : String × Nat := (line.file, line.number)

/-- Stripping comments leaves every line where it is. -/
theorem Comment.places_stripFrom (inside : Bool) (lines : List SourceLine) :
    (stripFrom inside lines).lines.map SourceLine.place = lines.map SourceLine.place := by
  induction lines generalizing inside with
  | nil => rfl
  | cons line rest ih =>
      unfold stripFrom
      cases hline : stripLine inside line with
      | error e => rfl
      | ok result =>
          have hplace : result.1.place = line.place := by
            unfold stripLine at hline
            split at hline
            · rw [← Except.ok.inj hline]
              rfl
            · exact absurd hline (by simp)
          show (LinePass.cons result.1 (stripFrom result.2 rest)).lines.map _ = _
          rw [LinePass.lines_cons, List.map_cons, List.map_cons, hplace, ih]

/-- Deciding conditions leaves every line where it is. -/
theorem Condition.places_evaluateFrom (file : String) (state : State) (lines : List SourceLine) :
    (evaluateFrom file state lines).lines.map SourceLine.place = lines.map SourceLine.place := by
  induction lines generalizing state with
  | nil =>
      unfold evaluateFrom
      split <;> rfl
  | cons line rest ih =>
      unfold evaluateFrom
      cases step state line with
      | error e => rfl
      | ok result =>
          have hplace : (if result.2 then line else line.blanked).place = line.place := by
            split <;> rfl
          show (LinePass.cons _ (evaluateFrom file result.1 rest)).lines.map _ = _
          rw [LinePass.lines_cons, List.map_cons, List.map_cons, hplace, ih]

theorem LinePass.toExcept_eq_ok_iff {pass : LinePass} {lines : List SourceLine} :
    pass.toExcept = .ok lines ↔ pass.failure = none ∧ pass.lines = lines := by
  unfold toExcept
  cases pass.failure with
  | some error => simp
  | none => simp

theorem LinePass.toExcept_eq_ok {pass : LinePass} {lines : List SourceLine}
    (h : pass.toExcept = .ok lines) : pass.lines = lines :=
  (toExcept_eq_ok_iff.mp h).2

theorem LinePass.toExcept_eq_error_iff {pass : LinePass} {error : BuildError} :
    pass.toExcept = .error error ↔ pass.failure = some error := by
  unfold toExcept
  cases pass.failure with
  | some found => simp
  | none => simp

/-! ### Tokens of lines -/

/-- Tokens of one file in the order of its lines. -/
structure FileTokens (path : String) (tokens : List Token) : Prop where
  file : ∀ token ∈ tokens, token.file = path
  /-- No token stands on an earlier line than one before it. -/
  ordered : tokens.Pairwise fun a b => a.line ≤ b.line
  /-- They hold no blank. -/
  word : ∀ token ∈ tokens, ∀ c ∈ token.text.toList, Text.isBlank c = false

namespace FileTokens

variable {path : String} {tokens : List Token}

theorem sublist {part : List Token} (h : FileTokens path tokens) (hsub : part.Sublist tokens) :
    FileTokens path part :=
  ⟨fun token htoken => h.file token (hsub.subset htoken), h.ordered.sublist hsub,
    fun token htoken => h.word token (hsub.subset htoken)⟩

theorem tokenize {lines : List SourceLine} (file : ∀ line ∈ lines, line.file = path)
    (ordered : lines.Pairwise fun a b => a.number ≤ b.number) :
    FileTokens path (ShaderLink.tokenize lines) := by
  have hplace : ∀ line ∈ lines, ∀ token ∈ line.tokens,
      token.file = path ∧ token.line = line.number ∧
        ∀ c ∈ token.text.toList, Text.isBlank c = false := by
    intro line hline token htoken
    obtain ⟨word, hword, rfl⟩ := List.mem_map.mp htoken
    exact ⟨file line hline, rfl, Text.isBlank_of_mem_words hword⟩
  refine ⟨?_, ?_, ?_⟩
  · intro token htoken
    obtain ⟨line, hline, hmem⟩ := List.mem_flatMap.mp htoken
    exact (hplace line hline token hmem).1
  · refine List.pairwise_flatMap.mpr ⟨?_, ?_⟩
    · intro line hline
      rw [List.pairwise_iff_forall_sublist]
      intro a b hab
      have ha := (hplace line hline a (hab.subset (by simp))).2.1
      have hb := (hplace line hline b (hab.subset (by simp))).2.1
      omega
    · refine ordered.imp_of_mem ?_
      intro first second hfirst hsecond hle a ha b hb
      rw [(hplace first hfirst a ha).2.1, (hplace second hsecond b hb).2.1]
      exact hle
  · intro token htoken
    obtain ⟨line, hline, hmem⟩ := List.mem_flatMap.mp htoken
    exact (hplace line hline token hmem).2.2

end FileTokens

theorem SourceLine.places_split (path text : String) :
    (split path text).map place =
      (List.range' 1 (Text.fileLines text.toList).length).map fun number => (path, number) := by
  have hzip := List.zipIdx_map_snd 1 (Text.fileLines text.toList)
  rw [← hzip, split, List.map_map, List.map_map]
  rfl

/-- Lines that stand where those of a text do stand in its file. -/
theorem SourceLine.file_of_places {path text : String} {lines : List SourceLine}
    (h : lines.map place = (split path text).map place) : ∀ line ∈ lines, line.file = path := by
  intro line hline
  have hmem := List.mem_map_of_mem (f := place) hline
  rw [h, places_split] at hmem
  obtain ⟨number, -, heq⟩ := List.mem_map.mp hmem
  exact (congrArg Prod.fst heq).symm

/-- Lines that stand where those of a text do have the tokens of a file. -/
theorem FileTokens.of_places {path text : String} {lines : List SourceLine}
    (h : lines.map SourceLine.place = (SourceLine.split path text).map SourceLine.place) :
    FileTokens path (ShaderLink.tokenize lines) := by
  refine .tokenize (SourceLine.file_of_places h) ?_
  have hsorted : (lines.map SourceLine.place).Pairwise fun a b => a.2 ≤ b.2 := by
    rw [h, SourceLine.places_split, List.pairwise_map]
    exact List.pairwise_le_range' 1
  rwa [List.pairwise_map] at hsorted

theorem line_of_mem_tokenize {lines : List SourceLine} {token : Token}
    (h : token ∈ tokenize lines) : ∃ line ∈ lines, token.line = line.number := by
  obtain ⟨line, hline, hmem⟩ := List.mem_flatMap.mp h
  obtain ⟨word, -, rfl⟩ := List.mem_map.mp hmem
  exact ⟨line, hline, rfl⟩

/-- Lines that stand where those of a text do are numbered from one to the last of them. -/
theorem SourceLine.number_bounds_of_places {path text : String} {lines : List SourceLine}
    (h : lines.map place = (split path text).map place) {token : Token}
    (htoken : token ∈ tokenize lines) :
    1 ≤ token.line ∧ token.line ≤ (Text.fileLines text.toList).length := by
  obtain ⟨line, hline, hnumber⟩ := line_of_mem_tokenize htoken
  have hplace := List.mem_map_of_mem (f := place) hline
  rw [h, places_split] at hplace
  obtain ⟨number, hrange, heq⟩ := List.mem_map.mp hplace
  have hbounds := List.mem_range'_1.mp hrange
  have hsame : number = line.number := congrArg Prod.snd heq
  omega

/-- A line that is emptied has no tokens, so conditions add none. -/
private theorem Condition.mem_tokenize_of_evaluateFrom {file : String} {state : State}
    {lines : List SourceLine} {token : Token}
    (h : token ∈ tokenize (evaluateFrom file state lines).lines) : token ∈ tokenize lines := by
  induction lines generalizing state with
  | nil =>
      unfold evaluateFrom at h
      split at h <;> exact h
  | cons line rest ih =>
      unfold evaluateFrom at h
      cases hstep : step state line with
      | error e =>
          rw [hstep] at h
          exact h
      | ok result =>
          rw [hstep] at h
          rcases List.mem_append.mp (show token ∈ _ ++ tokenize _ from h) with hline | hrest
          · split at hline
            · exact List.mem_append_left (tokenize rest) hline
            · exact absurd hline List.not_mem_nil
          · exact List.mem_append_right line.tokens (ih hrest)

/-- The comments of a text with tokens strip, and what they leave holds the tokens. -/
theorem ShaderUnit.tokenize_of_tokensOfText {settings : Settings} {path text : String}
    {tokens : List Token} (h : tokensOfText settings path text = .ok tokens) :
    (stripComments (SourceLine.read path text)).failure = none ∧
      ∀ token ∈ tokens, token ∈ tokenize (stripComments (SourceLine.read path text)).lines := by
  unfold tokensOfText at h
  obtain ⟨stripped, hstripped, h⟩ := bind_eq_ok_iff.mp h
  obtain ⟨lines, hlines, h⟩ := bind_eq_ok_iff.mp h
  obtain ⟨hfailure, hleft⟩ := LinePass.toExcept_eq_ok_iff.mp hstripped
  have htokens : tokenize lines = tokens := Except.ok.inj h
  refine ⟨hfailure, ?_⟩
  intro token htoken
  rw [← htokens, ← LinePass.toExcept_eq_ok hlines] at htoken
  rw [hleft]
  exact Condition.mem_tokenize_of_evaluateFrom htoken

/-- **The tokens of a text are tokens of its file in the order of its lines.** -/
theorem ShaderUnit.fileTokens_of_tokensOfText {settings : Settings} {path text : String}
    {tokens : List Token} (h : tokensOfText settings path text = .ok tokens) :
    FileTokens path tokens := by
  unfold tokensOfText at h
  obtain ⟨stripped, hstripped, h⟩ := bind_eq_ok_iff.mp h
  obtain ⟨lines, hlines, h⟩ := bind_eq_ok_iff.mp h
  have hplaces : lines.map SourceLine.place =
      (SourceLine.split path (spaced text)).map SourceLine.place := by
    rw [← LinePass.toExcept_eq_ok hlines]
    unfold evaluateConditions
    rw [Condition.places_evaluateFrom, ← LinePass.toExcept_eq_ok hstripped]
    exact Comment.places_stripFrom false _
  rw [← Except.ok.inj h]
  exact .of_places hplaces

/-! ### Tokens of statements -/

namespace Reading

variable {path : String} {keyword : Token} {rest : List Token}

theorem ofTokens_of_ok {s : Statement} {after : List Token}
    (h : Statement.read path keyword rest = .ok (s, after)) :
    ofTokens path (keyword :: rest) = (ofTokens path after).cons s := by
  rw [ofTokens]
  split
  · rename_i hread
    rw [h, Except.ok.injEq, Prod.mk.injEq] at hread
    obtain ⟨rfl, rfl⟩ := hread
    rfl
  · rename_i hread
    rw [h] at hread
    exact absurd hread (by simp)

theorem ofTokens_of_error {error : BuildError} (h : Statement.read path keyword rest = .error error) :
    ofTokens path (keyword :: rest) = ⟨[], some error⟩ := by
  rw [ofTokens]
  split
  · rename_i hread
    rw [h] at hread
    exact absurd hread (by simp)
  · rename_i hread
    rw [h] at hread
    rw [Except.error.inj hread]

/-- Reading that comes to the end of a file loses no token. -/
theorem tokens_ofTokens {tokens : List Token} (h : (ofTokens path tokens).failure = none) :
    (ofTokens path tokens).statements.flatMap Statement.tokens = tokens := by
  induction tokens using ofTokens.induct path with
  | case1 =>
      rw [ofTokens]
      rfl
  | case2 keyword rest s after hread ih =>
      rw [ofTokens_of_ok hread] at h ⊢
      show s.tokens ++ (ofTokens path after).statements.flatMap Statement.tokens = _
      rw [ih h]
      exact Statement.tokens_read hread
  | case3 keyword rest error hread =>
      rw [ofTokens_of_error hread] at h
      exact absurd h (by simp)

end Reading

namespace Statement

/-- What stays of a statement in the body are tokens of it, in their order. -/
theorem bodyTokens_sublist (s : Statement) : s.bodyTokens.Sublist s.tokens := by
  cases s with
  | precision keyword qualifier type stop =>
      show (if type.text = "float" then [] else [keyword, qualifier, type, stop]).Sublist _
      split
      · exact List.nil_sublist _
      · exact List.Sublist.refl _
  | code first more => exact List.Sublist.refl _
  | constant kind keyword name sign first more stop => exact List.nil_sublist _
  | inclusion keyword path => exact List.nil_sublist _
  | version keyword number profile => exact List.nil_sublist _
  | stage keyword label stage => exact List.nil_sublist _

theorem flatMap_bodyTokens_sublist (statements : List Statement) :
    (statements.flatMap bodyTokens).Sublist (statements.flatMap tokens) := by
  induction statements with
  | nil => exact .slnil
  | cons s rest ih => exact s.bodyTokens_sublist.append ih

end Statement

namespace ShaderUnit

variable {settings : Settings} {path text : String} {file : ShaderUnit}

theorem Cuts.tokensOfText {statements : List Statement}
    (h : Cuts settings path text statements) :
    ShaderUnit.tokensOfText settings path text = .ok (statements.flatMap Statement.tokens) := by
  obtain ⟨tokens, htokens, hcuts⟩ := h
  have hall : (Reading.ofTokens path tokens).statements.flatMap Statement.tokens = tokens :=
    Reading.tokens_ofTokens (by rw [hcuts])
  rw [hcuts] at hall
  rw [htokens, hall]

theorem Cuts.oneLine {statements : List Statement} (h : Cuts settings path text statements) :
    ∀ s ∈ statements, ∀ token ∈ s.tokens, Text.OneLine token.text := by
  intro s hs token htoken
  refine .of_word ((fileTokens_of_tokensOfText h.tokensOfText).word token ?_)
  exact List.mem_flatMap.mpr ⟨s, hs, htoken⟩

theorem body_sublist (h : ofText settings path text = .ok file) :
    ∃ tokens, tokensOfText settings path text = .ok tokens ∧ file.body.Sublist tokens := by
  obtain ⟨statements, constants, hcuts, -, rfl⟩ := ofText_eq_ok_iff.mp h
  exact ⟨_, hcuts.tokensOfText, Statement.flatMap_bodyTokens_sublist statements⟩

/-- **The body of a unit keeps the order of its file's lines.** -/
theorem fileTokens_body (h : ofText settings path text = .ok file) :
    FileTokens path file.body := by
  obtain ⟨tokens, htokens, hsub⟩ := body_sublist h
  exact (fileTokens_of_tokensOfText htokens).sublist hsub

end ShaderUnit

end ShaderLink
