/-
How the reading of a file can fail.

Every failure inside a file tells the path of that file, a setting that does not fit
its constant aside, which tells the constant.  So nothing that goes wrong in one file
is ever told as a failure of linking: of versions, of cycles, or of names that two
files declare.
-/
import ShaderLink.Proofs.Unit.Tokens

namespace ShaderLink

/-- The failures inside a file of a path. -/
def BuildError.ArisesIn (path : String) : BuildError → Prop
  | .exhausted file _ _ | .unmatchedCommentEnd file _ | .unmatchedElse file _
  | .unmatchedEndif file _ | .unclosedIf file _ | .undefinedCondition file _ _
  | .illegalStage file _ _ | .malformedVersion file _ _ => file = path
  | .unfitSetting _ _ _ => True
  | .unreadable _ _ | .versionViolation _ _ _ _ | .includeCycle _ | .duplicateConstant _ _
  | .missingMetadata _ _ | .invalidSetting _ | .malformedSettings _ | .compile _ _ _ => False

/-- The failures of putting files in order. -/
def BuildError.OfOrder : BuildError → Prop
  | .includeCycle _ | .versionViolation _ _ _ _ => True
  | _ => False

/-- Nothing that goes wrong inside a file is a failure of the order of files. -/
theorem BuildError.ArisesIn.not_ofOrder {path : String} {error : BuildError}
    (h : error.ArisesIn path) : ¬ error.OfOrder := by
  intro hofOrder
  cases error with
  | includeCycle | versionViolation => exact h
  | _ => exact hofOrder

variable {path : String} {error : BuildError}

/-! ### Passes -/

theorem Comment.arisesIn_of_stripFrom {inside : Bool} {lines : List SourceLine}
    (file : ∀ line ∈ lines, line.file = path) (h : (stripFrom inside lines).failure = some error) :
    error.ArisesIn path := by
  induction lines generalizing inside with
  | nil => exact absurd h (by simp [stripFrom])
  | cons line rest ih =>
      unfold stripFrom at h
      cases hline : stripLine inside line with
      | ok result =>
          rw [hline] at h
          exact ih (fun other hother => file other (List.mem_cons_of_mem _ hother)) h
      | error e =>
          rw [hline] at h
          have he : e = error := Option.some.inj h
          unfold stripLine at hline
          split at hline
          · exact absurd hline (by simp)
          · rw [← he, ← Except.error.inj hline]
            exact file line (List.mem_cons_self ..)

namespace Condition

theorem arisesIn_of_step {state : State} {line : SourceLine} (file : line.file = path)
    (h : step state line = .error error) : error.ArisesIn path := by
  unfold step at h
  split at h
  · exact absurd h (by simp)
  · split at h
    · exact absurd h (by simp)
    · rw [← Except.error.inj h]
      exact file
  · rcases bind_eq_error_iff.mp h with hflip | ⟨nesting, -, hnone⟩
    · unfold Nesting.flip at hflip
      split at hflip
      · rw [← Except.error.inj hflip]
        exact file
      · exact absurd hflip (by simp)
    · exact absurd hnone (by simp)
  · rcases bind_eq_error_iff.mp h with hleave | ⟨nesting, -, hnone⟩
    · unfold Nesting.leave at hleave
      split at hleave
      · rw [← Except.error.inj hleave]
        exact file
      · exact absurd hleave (by simp)
    · exact absurd hnone (by simp)
  · exact absurd h (by simp)

theorem arisesIn_of_evaluateFrom {state : State} {lines : List SourceLine}
    (file : ∀ line ∈ lines, line.file = path)
    (h : (evaluateFrom path state lines).failure = some error) : error.ArisesIn path := by
  induction lines generalizing state with
  | nil =>
      unfold evaluateFrom Nesting.finish at h
      split at h
      · exact absurd h (by simp)
      · rename_i e hfinish
        split at hfinish
        · exact absurd hfinish (by simp)
        · rw [← Option.some.inj h, ← Except.error.inj hfinish]
          rfl
  | cons line rest ih =>
      unfold evaluateFrom at h
      cases hstep : step state line with
      | ok result =>
          rw [hstep] at h
          exact ih (fun other hother => file other (List.mem_cons_of_mem _ hother)) h
      | error e =>
          rw [hstep] at h
          have he : e = error := Option.some.inj h
          rw [← he]
          exact arisesIn_of_step (file line (List.mem_cons_self ..)) hstep

theorem arisesIn_of_evaluateConditions {overrides : List (String × Bool)} {lines : List SourceLine}
    (file : ∀ line ∈ lines, line.file = path)
    (h : (evaluateConditions overrides lines).failure = some error) : error.ArisesIn path := by
  cases lines with
  | nil =>
      exact absurd h
        (by simp [evaluateConditions, evaluateFrom, Nesting.finish, Nesting.outermost])
  | cons line rest =>
      have hname : ((line :: rest).head?.map (·.file)).getD "" = path :=
        file line (List.mem_cons_self ..)
      unfold evaluateConditions at h
      rw [hname] at h
      exact arisesIn_of_evaluateFrom file h

end Condition

/-! ### Statements -/

private theorem Statement.arisesIn_exhausted (path : String) (tokens : List Token) :
    (exhausted path tokens).ArisesIn path := by
  unfold exhausted
  split
  · rfl
  · rfl

theorem Statement.arisesIn_of_read {keyword : Token} {rest : List Token}
    (h : read path keyword rest = .error error) : error.ArisesIn path := by
  have hexhausted (h : exhausted path (keyword :: rest) = error) : error.ArisesIn path := by
    rw [← h]
    exact arisesIn_exhausted path _
  unfold read at h
  dsimp only at h
  split at h
  case h_1 | h_2 | h_3 | h_4 =>
    split at h
    · exact absurd h (by simp)
    · exact hexhausted (Except.error.inj h)
  · split at h
    · exact hexhausted (Except.error.inj h)
    · split at h
      · exact absurd h (by simp)
      · rw [← Except.error.inj h]
        rfl
  · split at h
    · exact hexhausted (Except.error.inj h)
    · split at h
      · exact absurd h (by simp)
      · rw [← Except.error.inj h]
        rfl
  · exact absurd h (by simp)

theorem Reading.arisesIn_of_ofTokens {tokens : List Token}
    (h : (ofTokens path tokens).failure = some error) : error.ArisesIn path := by
  induction tokens using ofTokens.induct path with
  | case1 =>
      rw [ofTokens] at h
      exact absurd h (by simp)
  | case2 keyword rest s after hread ih =>
      rw [ofTokens_of_ok hread] at h
      exact ih h
  | case3 keyword rest e hread =>
      rw [ofTokens_of_error hread] at h
      rw [← Option.some.inj h]
      exact Statement.arisesIn_of_read hread

theorem Statement.arisesIn_of_addConstant {settings : Settings} {table : ConstantTable}
    {s : Statement} (h : addConstant settings path table s = .error error) :
    error.ArisesIn path := by
  unfold addConstant at h
  split at h
  · rcases bind_eq_error_iff.mp h with hdeclared | ⟨c, -, hnone⟩
    · unfold declaredConstant at hdeclared
      split at hdeclared
      · split at hdeclared
        · exact absurd hdeclared (by simp)
        · rw [← Except.error.inj hdeclared]
          trivial
      · exact absurd hdeclared (by simp)
    · exact absurd hnone (by simp)
  · exact absurd h (by simp)

namespace ShaderUnit

variable {settings : Settings} {text : String}

theorem arisesIn_of_constantsOf {statements : List Statement}
    (h : constantsOf settings path statements = .error error) : error.ArisesIn path := by
  unfold constantsOf at h
  generalize Table.empty = table at h
  induction statements generalizing table with
  | nil => exact absurd h (by simp [pure, Except.pure])
  | cons s rest ih =>
      rcases foldlM_cons_eq_error_iff.mp h with hstep | ⟨next, -, hrest⟩
      · exact Statement.arisesIn_of_addConstant hstep
      · exact ih next hrest

/-- **A text that gives no unit fails inside its file.** -/
theorem arisesIn_of_ofText (h : ofText settings path text = .error error) :
    error.ArisesIn path := by
  unfold ofText at h
  rcases bind_eq_error_iff.mp h with htokens | ⟨tokens, -, hreading⟩
  · unfold tokensOfText stripComments at htokens
    rcases bind_eq_error_iff.mp htokens with hstrip | ⟨stripped, hstripped, hlines⟩
    · have hread : ∀ line ∈ SourceLine.read path text, line.file = path :=
        @SourceLine.file_of_places path (spaced text) _ rfl
      exact Comment.arisesIn_of_stripFrom hread (LinePass.toExcept_eq_error_iff.mp hstrip)
    · rcases bind_eq_error_iff.mp hlines with hconditions | ⟨lines, -, hnone⟩
      · have hplaces : stripped.map SourceLine.place =
            (SourceLine.split path (spaced text)).map SourceLine.place := by
          rw [← LinePass.toExcept_eq_ok hstripped]
          exact Comment.places_stripFrom false _
        exact Condition.arisesIn_of_evaluateConditions (SourceLine.file_of_places hplaces)
          (LinePass.toExcept_eq_error_iff.mp hconditions)
      · exact absurd hnone (by simp)
  · unfold ofTokens ofReading at hreading
    rcases bind_eq_error_iff.mp hreading with hconstants | ⟨constants, -, hfailure⟩
    · exact arisesIn_of_constantsOf hconstants
    · cases hend : (Reading.ofTokens path tokens).failure with
      | some e =>
          rw [hend] at hfailure
          rw [← Except.error.inj hfailure]
          exact Reading.arisesIn_of_ofTokens hend
      | none =>
          rw [hend] at hfailure
          exact absurd hfailure (by simp)

end ShaderUnit

/-! ### Files of a project -/

namespace Project

variable {project : Project} {settings : Settings}

/-- **A file that cannot be loaded has no text, or fails inside.** -/
theorem error_of_loadIncluded (h : project.loadIncluded settings path = .error error) :
    (∃ reason, error = .unreadable (Path.join project.root path) reason) ∨ error.ArisesIn path := by
  unfold loadIncluded at h
  rcases bind_eq_error_iff.mp h with htext | ⟨text, -, hunit⟩
  · unfold Project.text at htext
    dsimp only at htext
    split at htext
    · exact absurd htext (by simp)
    · rename_i reason _
      exact .inl ⟨reason, (Except.error.inj htext).symm⟩
  · exact .inr (ShaderUnit.arisesIn_of_ofText hunit)

/-- A main file that cannot be loaded cannot be included either, or lacks a declaration. -/
theorem error_of_loadMain (h : project.loadMain settings path = .error error) :
    project.loadIncluded settings path = .error error ∨
      ∃ what, error = .missingMetadata path what := by
  unfold loadMain at h
  unfold loadIncluded
  rcases bind_eq_error_iff.mp h with htext | ⟨text, htext, hmain⟩
  · exact .inl (bind_eq_error_iff.mpr (.inl htext))
  · unfold ShaderUnit.ofMainText at hmain
    rcases bind_eq_error_iff.mp hmain with hunit | ⟨file, -, hmissing⟩
    · exact .inl (bind_eq_error_iff.mpr (.inr ⟨text, htext, hunit⟩))
    · split at hmissing
      · exact .inr ⟨_, (Except.error.inj hmissing).symm⟩
      · exact absurd hmissing (by simp)

end Project

end ShaderLink
