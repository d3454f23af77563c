/-
How conditional compilation fails.

A line is at fault when it turns over or closes a block where none is open, or when it
tests a name that has no value there: no override, and no declaration before it where all
blocks around were on.  That a block is off does not excuse the tests inside it.  The end
of a file is at fault when a block is still open.

The pass fails with the first of these and with nothing else (`Fails`).  While no line
was at fault the state of the pass is right (`Tracks`), so it sees in its frames and flags
whether the next line is (`Tracks.step_eq_error_iff`), and at the end its innermost frame
is the block that was opened last of those still open.
-/
import Mathlib.Data.List.Induction
import ShaderLink.Proofs.Source.Decision

namespace ShaderLink

/-! ### Where no block is open -/

namespace Nesting

variable {nesting : Nesting} {file : String} {line : Nat} {error : BuildError}

theorem flip_eq_error_iff : nesting.flip file line = .error error ↔
    nesting.frames = [] ∧ error = .unmatchedElse file line := by
  unfold flip
  cases nesting.frames with
  | nil => simp [eq_comm]
  | cons frame outer => simp

theorem leave_eq_error_iff : nesting.leave file line = .error error ↔
    nesting.frames = [] ∧ error = .unmatchedEndif file line := by
  unfold leave
  cases nesting.frames with
  | nil => simp [eq_comm]
  | cons frame outer => simp

end Nesting

namespace Condition

variable {overrides : List (String × Bool)} {before outer inside lines : List SourceLine}
  {line opening : SourceLine} {name : String} {frame : Frame} {frames : List Frame}
  {state : State} {error : BuildError}

/-! ### What is at fault -/

/-- The lines open a block and do not close it; its opening line stands between the two parts. -/
structure Unclosed (lines outer : List SourceLine) (opening : SourceLine)
    (inside : List SourceLine) : Prop where
  split : lines = outer ++ opening :: inside
  opens : ∃ name negated, opening.directive? = some (.test name negated)
  stays : (openBehind 0 inside).isSome = true

/-- What is wrong with a line, the lines before it being known. -/
inductive Fault (overrides : List (String × Bool)) (before : List SourceLine)
    (line : SourceLine) : BuildError → Prop
  /-- It turns a block over, and none is open. -/
  | otherwise (turns : line.directive? = some .otherwise)
      (outermost : ∀ outer opening inside, ¬ Unclosed before outer opening inside) :
      Fault overrides before line (.unmatchedElse line.file line.number)
  /-- It closes a block, and none is open. -/
  | close (closes : line.directive? = some .close)
      (outermost : ∀ outer opening inside, ¬ Unclosed before outer opening inside) :
      Fault overrides before line (.unmatchedEndif line.file line.number)
  /-- It tests a name without an override, which no line declares where all blocks are on. -/
  | test {name : String} {negated : Bool} (tests : line.directive? = some (.test name negated))
      (unset : overrides.lookup name = none)
      (undeclared : ∀ earlier declaring later value, before = earlier ++ declaring :: later →
        declaring.directive? = some (.declare name value) → ¬ AllOn overrides earlier) :
      Fault overrides before line (.undefinedCondition line.file line.number name)

/-- No line is at fault. -/
def Faultless (overrides : List (String × Bool)) (lines : List SourceLine) : Prop :=
  ∀ before line after, lines = before ++ line :: after → ∀ error, ¬ Fault overrides before line error

/-- How a pass over the lines fails. -/
inductive Fails (overrides : List (String × Bool)) (lines : List SourceLine) : BuildError → Prop
  /-- At the first line that is at fault. -/
  | atLine {before after : List SourceLine} {line : SourceLine} {error : BuildError}
      (split : lines = before ++ line :: after) (first : Faultless overrides before)
      (fault : Fault overrides before line error) : Fails overrides lines error
  /-- At the end, on which a block is open; of these the one that was opened last is told. -/
  | atEnd {outer inside : List SourceLine} {opening first : SourceLine}
      (faultless : Faultless overrides lines) (unclosed : Unclosed lines outer opening inside)
      (last : ∀ outer' opening' inside', Unclosed lines outer' opening' inside' →
        outer'.length ≤ outer.length)
      (head : lines.head? = some first) :
      Fails overrides lines (.unclosedIf first.file opening.number)

/-! ### What the pass sees of it -/

/-- Frames stand for blocks that are open: without frames there is none. -/
private theorem Stacked.outermost_of_nil (h : Stacked overrides before []) (outer : List SourceLine)
    (opening : SourceLine) (inside : List SourceLine) : ¬ Unclosed before outer opening inside := by
  intro unclosed
  cases h with
  | outermost none =>
      obtain ⟨name, negated, hopens⟩ := unclosed.opens
      have hstays := unclosed.stays
      rw [none outer opening inside name negated unclosed.split hopens] at hstays
      exact absurd hstays (by simp)

/-- The innermost frame stands for the block that was opened last of those still open. -/
private theorem Stacked.exists_innermost (h : Stacked overrides before (frame :: frames)) :
    ∃ outer opening inside, Unclosed before outer opening inside ∧
      frame.openedAt = opening.number ∧
        ∀ outer' opening' inside', Unclosed before outer' opening' inside' →
          outer'.length ≤ outer.length := by
  cases h with
  | @inner outer inside opening name negated value _ _ opens innermost valued enclosing branch
      opened around =>
      refine ⟨outer, opening, inside, ⟨rfl, ⟨name, negated, opens⟩, by rw [innermost]; rfl⟩,
        opened, ?_⟩
      intro outer' opening' inside' other
      obtain ⟨name', negated', hopens⟩ := other.opens
      have hstays := other.stays
      rcases cuts_cases other.split with ⟨rfl, -⟩ | ⟨between, -, hinside⟩ | ⟨between, rfl, -⟩
      · exact Nat.le_refl _
      · -- it would be opened inside the innermost block, which leaves none open
        rw [hinside] at innermost
        rw [openBehind_eq_none innermost hopens] at hstays
        exact absurd hstays (by simp)
      · rw [List.length_append]
        exact Nat.le_add_right ..

private theorem Stacked.eq_nil_iff (h : Stacked overrides before frames) :
    frames = [] ↔ ∀ outer opening inside, ¬ Unclosed before outer opening inside := by
  cases frames with
  | nil => exact iff_of_true rfl h.outermost_of_nil
  | cons frame frames =>
      obtain ⟨outer, opening, inside, unclosed, -⟩ := h.exists_innermost
      exact iff_of_false (by simp) fun hnone => hnone outer opening inside unclosed

/-- A name has no value when nothing overrides it and nothing declares it where lines count. -/
theorem hasValue_eq_none_iff :
    (∀ value, ¬ HasValue overrides before name value) ↔
      overrides.lookup name = none ∧
        ∀ earlier declaring later value, before = earlier ++ declaring :: later →
          declaring.directive? = some (.declare name value) → ¬ AllOn overrides earlier := by
  constructor
  · intro hnone
    have hunset : overrides.lookup name = none := by
      refine Option.eq_none_iff_forall_ne_some.mpr fun set hset => hnone set ?_
      rw [HasValue, hset]
    refine ⟨hunset, ?_⟩
    intro earlier declaring later value split declares on
    obtain ⟨first, hfirst⟩ := exists_hasValue hunset split declares on
    exact hnone first hfirst
  · intro h value hvalue
    obtain ⟨hunset, hundeclared⟩ := h
    rw [HasValue, hunset] at hvalue
    obtain ⟨earlier, declaring, later, split, declares, on, -⟩ := hvalue
    exact hundeclared earlier declaring later value split declares on

/-- What makes a line a fault depends on what kind of directive it is. -/
theorem fault_iff :
    Fault overrides before line error ↔
      match line.directive? with
      | some .otherwise =>
        (∀ outer opening inside, ¬ Unclosed before outer opening inside) ∧
          error = .unmatchedElse line.file line.number
      | some .close =>
        (∀ outer opening inside, ¬ Unclosed before outer opening inside) ∧
          error = .unmatchedEndif line.file line.number
      | some (.test name _) =>
        (∀ value, ¬ HasValue overrides before name value) ∧
          error = .undefinedCondition line.file line.number name
      | _ => False := by
  constructor
  · intro fault
    cases fault with
    | otherwise turns outermost =>
        rw [turns]
        exact ⟨outermost, rfl⟩
    | close closes outermost =>
        rw [closes]
        exact ⟨outermost, rfl⟩
    | test tests unset undeclared =>
        rw [tests]
        exact ⟨hasValue_eq_none_iff.mpr ⟨unset, undeclared⟩, rfl⟩
  · intro h
    split at h
    · rename_i turns
      obtain ⟨outermost, rfl⟩ := h
      exact .otherwise turns outermost
    · rename_i closes
      obtain ⟨outermost, rfl⟩ := h
      exact .close closes outermost
    · rename_i tests
      obtain ⟨hnone, rfl⟩ := h
      obtain ⟨unset, undeclared⟩ := hasValue_eq_none_iff.mp hnone
      exact .test tests unset undeclared
    · exact h.elim

/-- **The pass fails at a line exactly when the line is at fault.** -/
theorem Tracks.step_eq_error_iff (h : Tracks overrides before state) :
    Condition.step state line = .error error ↔ Fault overrides before line error := by
  have hblocks := h.blocks.eq_nil_iff
  rw [fault_iff]
  unfold Condition.step
  cases hline : line.directive? with
  | none =>
      rw [show Directive.read? line.text = none from hline]
      simp
  | some directive =>
      rw [show Directive.read? line.text = some directive from hline]
      cases directive with
      | declare name value => simp
      | test name negated =>
          have hvalues := h.values name
          dsimp only
          cases hget : state.flags.get? name with
          | none =>
              have hnone : ∀ value, ¬ HasValue overrides before name value := by
                intro value hvalue
                rw [← hvalues, hget] at hvalue
                exact absurd hvalue (by simp)
              rw [Except.error.injEq, eq_comm]
              exact (and_iff_right hnone).symm
          | some value =>
              have hvalue := (hvalues value).mp hget
              refine ⟨fun hstep => absurd hstep (by simp), fun hfault => ?_⟩
              exact absurd hvalue (hfault.1 value)
      | otherwise => simp [bind_eq_error_iff, Nesting.flip_eq_error_iff, hblocks]
      | close => simp [bind_eq_error_iff, Nesting.leave_eq_error_iff, hblocks]

/-! ### What the pass fails with -/

private theorem Faultless.append (h : Faultless overrides before)
    (sound : ∀ error, ¬ Fault overrides before line error) :
    Faultless overrides (before ++ [line]) := by
  intro front other back split
  rcases cuts_cases split with ⟨rfl, rfl, -⟩ | ⟨between, -, hnil⟩ | ⟨between, hbefore, -⟩
  · exact sound
  · exact absurd hnil (by simp)
  · exact h front other between hbefore

/-- Of the lines at fault there is a first one. -/
private theorem exists_first_fault (h : ¬ Faultless overrides lines) :
    ∃ before line after error, lines = before ++ line :: after ∧ Faultless overrides before ∧
      Fault overrides before line error := by
  induction lines using List.reverseRecOn with
  | nil =>
      refine absurd ?_ h
      intro before line after split
      exact absurd split (by simp)
  | append_singleton front last ih =>
      by_cases hfront : Faultless overrides front
      · by_cases hlast : ∃ error, Fault overrides front last error
        · obtain ⟨error, hfault⟩ := hlast
          exact ⟨front, last, [], error, rfl, hfront, hfault⟩
        · exact absurd (hfront.append (not_exists.mp hlast)) h
      · obtain ⟨before, line, after, error, rfl, hbefore, hfault⟩ := ih hfront
        exact ⟨before, line, after ++ [last], error, by simp, hbefore, hfault⟩

/-- The first line at fault is the one that the pass fails at. -/
theorem Fails.eq_of_fault (h : Fails overrides lines error) {after : List SourceLine}
    {first : BuildError} (split : lines = before ++ line :: after)
    (faultless : Faultless overrides before) (fault : Fault overrides before line first) :
    Fault overrides before line error := by
  cases h with
  | atLine split' faultless' fault' =>
      rcases cuts_cases (split.symm.trans split') with
        ⟨rfl, rfl, -⟩ | ⟨between, hbefore, -⟩ | ⟨between, hbefore, -⟩
      · exact fault'
      · exact absurd fault (faultless' _ _ _ hbefore first)
      · exact absurd fault' (faultless _ _ _ hbefore error)
  | atEnd faultless' => exact absurd fault (faultless' _ _ _ split first)

/-- Without lines at fault it fails at the end, and tells of the block that the innermost frame
stands for. -/
theorem Stacked.fails_iff (h : Stacked overrides lines frames) (faultless : Faultless overrides lines) :
    Fails overrides lines error ↔
      ∃ frame ∈ frames.head?, ∃ first ∈ lines.head?, error = .unclosedIf first.file frame.openedAt := by
  constructor
  · intro hfails
    cases hfails with
    | atLine split _ fault => exact absurd fault (faultless _ _ _ split _)
    | @atEnd outer inside opening first _ unclosed last head =>
        cases frames with
        | nil => exact absurd unclosed (h.outermost_of_nil _ _ _)
        | cons frame frames =>
            obtain ⟨outer', opening', inside', unclosed', hopened, last'⟩ := h.exists_innermost
            have hlength : outer'.length = outer.length :=
              Nat.le_antisymm (last _ _ _ unclosed') (last' _ _ _ unclosed)
            have hsame := List.append_inj (unclosed'.split.symm.trans unclosed.split) hlength
            rw [(List.cons.inj hsame.2).1] at hopened
            exact ⟨frame, rfl, first, head, by rw [hopened]⟩
  · intro hends
    obtain ⟨frame, hframe, first, hfirst, rfl⟩ := hends
    obtain ⟨frames, rfl⟩ : ∃ outer, frames = frame :: outer := List.head?_eq_some_iff.mp hframe
    obtain ⟨outer, opening, inside, unclosed, hopened, last⟩ := h.exists_innermost
    rw [hopened]
    exact .atEnd faultless unclosed last hfirst

/-- **The pass fails from a point on as the whole file does**, when no line before the point is at
fault. -/
theorem Tracks.failure_eq_iff (h : Tracks overrides before state)
    (faultless : Faultless overrides before) {file : String} {rest : List SourceLine}
    (named : ∀ first ∈ (before ++ rest).head?, first.file = file) :
    (evaluateFrom file state rest).failure = some error ↔
      Fails overrides (before ++ rest) error := by
  induction rest generalizing before state with
  | nil =>
      have hblocks := h.blocks
      rw [List.append_nil] at named ⊢
      rw [hblocks.fails_iff faultless, evaluateFrom, Nesting.finish]
      cases hframes : state.nesting.frames with
      | nil => simp
      | cons frame frames =>
          -- where a block is open there is a first line
          rw [hframes] at hblocks
          obtain ⟨outer, opening, inside, unclosed, -⟩ := hblocks.exists_innermost
          obtain ⟨first, hfirst⟩ : ∃ first, before.head? = some first := by
            rw [unclosed.split]
            cases outer with
            | nil => exact ⟨opening, rfl⟩
            | cons first outer => exact ⟨first, rfl⟩
          have hfile := named first hfirst
          rw [hfirst]
          simp [hfile, eq_comm]
  | cons line rest ih =>
      rw [evaluateFrom]
      cases hstep : Condition.step state line with
      | ok found =>
          obtain ⟨next, kept⟩ := found
          have hsound : ∀ error, ¬ Fault overrides before line error := by
            intro error fault
            rw [h.step_eq_error_iff.mpr fault] at hstep
            exact absurd hstep (by simp)
          have hall : before ++ line :: rest = before ++ [line] ++ rest := by simp
          rw [hall] at named ⊢
          exact ih (h.step hstep).1 (faultless.append hsound) named
      | error first =>
          have hfault := h.step_eq_error_iff.mp hstep
          show some first = some error ↔ _
          constructor
          · intro hsame
            rw [← Option.some.inj hsame]
            exact .atLine rfl faultless hfault
          · intro hfails
            have hother := h.step_eq_error_iff.mpr (hfails.eq_of_fault rfl faultless hfault)
            rw [hstep] at hother
            rw [Except.error.inj hother]

/-- Lines without fault bring the pass to a state that is right behind them. -/
theorem Faultless.exists_tracks (h : Faultless overrides lines) :
    ∃ state, Tracks overrides lines state := by
  induction lines using List.reverseRecOn with
  | nil => exact ⟨_, tracks_start overrides⟩
  | append_singleton front last ih =>
      have hfront : Faultless overrides front := by
        intro before line after split
        exact h before line (after ++ [last]) (by rw [split]; simp)
      obtain ⟨state, htracks⟩ := ih hfront
      cases hstep : Condition.step state last with
      | error error => exact absurd (htracks.step_eq_error_iff.mp hstep) (h front last [] rfl error)
      | ok found =>
          obtain ⟨next, kept⟩ := found
          exact ⟨next, (htracks.step hstep).1⟩

private theorem exists_fails_iff :
    (∃ error, Fails overrides lines error) ↔
      ¬ Faultless overrides lines ∨ ∃ outer opening inside, Unclosed lines outer opening inside := by
  constructor
  · intro h
    obtain ⟨error, hfails⟩ := h
    cases hfails with
    | atLine split _ fault => exact .inl fun faultless => faultless _ _ _ split _ fault
    | atEnd _ unclosed => exact .inr ⟨_, _, _, unclosed⟩
  · intro h
    by_cases faultless : Faultless overrides lines
    · obtain ⟨outer, opening, inside, unclosed⟩ := h.resolve_left (not_not.mpr faultless)
      obtain ⟨state, htracks⟩ := faultless.exists_tracks
      have hopen : state.nesting.frames ≠ [] := by
        intro hnil
        exact htracks.blocks.eq_nil_iff.mp hnil outer opening inside unclosed
      have hlines : lines ≠ [] := by
        rw [unclosed.split]
        simp
      exact ⟨_, (htracks.blocks.fails_iff faultless).mpr ⟨_, List.head?_eq_some_head hopen, _,
        List.head?_eq_some_head hlines, rfl⟩⟩
    · obtain ⟨before, line, after, error, split, hbefore, fault⟩ := exists_first_fault faultless
      exact ⟨error, .atLine split hbefore fault⟩

/-- **The pass over a file fails with the first line at fault, or else with the block that was opened
last of those still open at the end; and it does not fail without either.** -/
theorem evaluateConditions_eq_error_iff (overrides : List (String × Bool))
    (lines : List SourceLine) :
    (∀ error, (evaluateConditions overrides lines).toExcept = .error error ↔
        Fails overrides lines error) ∧
      ((∃ error, (evaluateConditions overrides lines).toExcept = .error error) ↔
        ¬ Faultless overrides lines ∨ ∃ outer opening inside, Unclosed lines outer opening inside) := by
  have hfails : ∀ error, (evaluateConditions overrides lines).toExcept = .error error ↔
      Fails overrides lines error := by
    intro error
    rw [LinePass.toExcept_eq_error_iff]
    have hstart : Faultless overrides [] := by
      intro before line after split
      exact absurd split (by simp)
    refine (tracks_start overrides).failure_eq_iff hstart ?_
    intro first hfirst
    rw [List.nil_append] at hfirst
    rw [hfirst]
    rfl
  exact ⟨hfails, (exists_congr hfails).trans exists_fails_iff⟩

/-- A test inside a block that is off needs a value too, and it comes before the open block. -/
example : (evaluateConditions [("A", false)] (SourceLine.split "a" "#if A\n#if !B\n")).failure =
    some (.undefinedCondition "a" 2 "B") := by
  decide +kernel

end Condition

end ShaderLink
