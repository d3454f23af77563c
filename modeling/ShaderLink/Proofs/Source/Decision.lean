/-
Which lines conditional compilation leaves.

The pass keeps a frame for each block around the point where it stands, and every
frame remembers whether all blocks around it were on when it was opened.  Both are
right at every point of a file that the pass comes to the end of (`Tracks`): the
frames are the blocks around, and the booleans that conditions see are the values
that names have there.  One lemma says what a line does to that, one that it holds
along a run.

So a line keeps its text exactly when it is no directive and all blocks around it
are on, and all other lines are emptied.  What is left has no directive any more,
and the pass leaves it as it is.
-/
import ShaderLink.Proofs.Source.Blocks
import ShaderLink.Proofs.Unit.Tokens

namespace ShaderLink

/-- A declaration gives a name its value when it has none. -/
theorem Flags.get?_declare (flags : Flags) (name other : String) (value : Bool) :
    (flags.declare name value).get? other =
      (flags.get? other).or (if other = name then some value else none) := by
  unfold declare
  split
  · rename_i hsome
    split
    · rename_i heq
      rw [heq]
      obtain ⟨given, hgiven⟩ := Option.isSome_iff_exists.mp hsome
      rw [hgiven]
      rfl
    · rw [Option.or_none]
  · show (flags.overrides.lookup other).or ((flags.declared ++ [(name, value)]).lookup other) = _
    rw [List.lookup_append, ← Option.or_assoc]
    refine congrArg _ ?_
    rw [List.lookup_cons]
    by_cases heq : other = name
    · simp [heq]
    · have hbeq : (other == name) = false := by simpa using heq
      simp [heq, hbeq]

namespace Condition

variable {overrides : List (String × Bool)} {before chunk : List SourceLine} {line : SourceLine}
  {frames : List Frame} {state next : State} {kept : Bool}

/-! ### What the pass knows at a point -/

/-- Frames that stand for the blocks around the point behind the lines, the innermost first. -/
inductive Stacked (overrides : List (String × Bool)) : List SourceLine → List Frame → Prop
  | outermost {before : List SourceLine}
      (none : ∀ outer opening inside name negated, before = outer ++ opening :: inside →
        opening.directive? = some (.test name negated) → openBehind 0 inside = none) :
      Stacked overrides before []
  | inner {outer inside : List SourceLine} {opening : SourceLine} {name : String}
      {negated value : Bool} {frame : Frame} {frames : List Frame}
      (opens : opening.directive? = some (.test name negated))
      (innermost : openBehind 0 inside = some 0) (valued : HasValue overrides outer name value)
      (enclosing : frame.enclosing = true ↔ AllOn overrides outer)
      (branch : frame.branch = not^[turned 0 inside] (value != negated))
      (opened : frame.openedAt = opening.number) (around : Stacked overrides outer frames) :
      Stacked overrides (outer ++ opening :: inside) (frame :: frames)

/-- The state of the pass is right at the point behind the lines. -/
structure Tracks (overrides : List (String × Bool)) (before : List SourceLine) (state : State) :
    Prop where
  values : ∀ name value,
    state.flags.get? name = some value ↔ HasValue overrides before name value
  blocks : Stacked overrides before state.nesting.frames

/-- The pass is where lines count exactly when all blocks around are on. -/
theorem Tracks.active_iff (h : Tracks overrides before state) :
    state.nesting.active = true ↔ AllOn overrides before := by
  obtain ⟨-, blocks⟩ := h
  unfold Nesting.active
  generalize state.nesting.frames = frames at blocks
  cases blocks with
  | outermost none => simp [allOn_outermost none]
  | @inner outer inside opening name negated value frame frames opens innermost valued enclosing
      branch opened around =>
      rw [allOn_inner opens innermost]
      show (frame.enclosing && frame.branch) = true ↔ _
      rw [Bool.and_eq_true, enclosing, branch]
      constructor
      · intro hboth
        obtain ⟨houter, hon⟩ := hboth
        exact ⟨⟨value, valued, hon⟩, houter⟩
      · intro hboth
        obtain ⟨⟨other, hother, hon⟩, houter⟩ := hboth
        rw [valued.unique hother]
        exact ⟨houter, hon⟩

theorem tracks_start (overrides : List (String × Bool)) :
    Tracks overrides [] ⟨.ofOverrides overrides, .outermost⟩ := by
  refine ⟨?_, .outermost ?_⟩
  · intro name value
    show (overrides.lookup name).or none = some value ↔ _
    rw [HasValue, Option.or_none]
    cases overrides.lookup name with
    | some set => simp [eq_comm]
    | none => simp
  · intro outer opening inside name negated split
    exact absurd split (by simp)

/-! ### What a line does to it -/

/-- Lines that close all blocks they open, and turn none over, leave the blocks around. -/
theorem Stacked.append (h : Stacked overrides before frames) (whole : openBehind 0 chunk = some 0)
    (straight : turned 0 chunk = 0) : Stacked overrides (before ++ chunk) frames := by
  cases h with
  | outermost none =>
      refine .outermost ?_
      intro outer opening inside name negated split opens
      rcases List.append_eq_append_iff.mp split with ⟨front, rfl, hchunk⟩ | ⟨back, rfl, hback⟩
      · rw [hchunk] at whole
        exact openBehind_eq_none whole opens
      · rcases List.cons_eq_append_iff.mp hback with ⟨rfl, hchunk⟩ | ⟨between, rfl, rfl⟩
        · rw [hchunk, ← List.nil_append (opening :: inside)] at whole
          exact openBehind_eq_none whole opens
        · rw [openBehind_append, none outer opening between name negated rfl opens]
          rfl
  | inner opens innermost valued enclosing branch opened around =>
      rw [List.append_assoc, List.cons_append]
      refine .inner opens ?_ valued enclosing ?_ opened around
      · rw [openBehind_append, innermost]
        exact whole
      · rw [branch, turned_append innermost, straight]
        rfl

/-- The line for it turns the innermost block over. -/
theorem Stacked.flip {frame : Frame} (h : Stacked overrides before (frame :: frames))
    (turns : line.directive? = some .otherwise) :
    Stacked overrides (before ++ [line]) ({ frame with branch := !frame.branch } :: frames) := by
  have hline : depthBehind 0 line = some 0 := by rw [depthBehind, turns]
  cases h with
  | inner opens innermost valued enclosing branch opened around =>
      rw [List.append_assoc, List.cons_append]
      refine .inner opens ?_ valued enclosing ?_ opened around
      · rw [openBehind_append, innermost, Option.bind_some, openBehind, hline]
        rfl
      · have hturned : turned 0 [line] = 1 := by simp [turned, turns, hline]
        show (!frame.branch) = _
        rw [turned_append innermost, hturned, Function.iterate_succ_apply', branch]

/-- The line that closes the innermost block makes a whole of it. -/
theorem Stacked.leave {frame : Frame} (h : Stacked overrides before (frame :: frames))
    (closes : line.directive? = some .close) : Stacked overrides (before ++ [line]) frames := by
  have hline : depthBehind 1 line = some 0 := by
    rw [depthBehind, closes]
    rfl
  cases h with
  | @inner outer inside opening name negated value _ _ opens innermost valued enclosing branch
      opened around =>
      have hopening : depthBehind 0 opening = some 1 := by rw [depthBehind, opens]
      have hinside : openBehind 1 inside = some 1 := openBehind_add innermost 1
      rw [List.append_assoc, List.cons_append]
      refine around.append ?_ ?_
      · rw [openBehind, hopening, Option.bind_some, openBehind_append, hinside, Option.bind_some,
          openBehind, hline]
        rfl
      · have hturned : turned 1 inside = 0 := turned_deeper innermost
        rw [turned, hopening]
        dsimp only
        rw [turned_append hinside, hturned]
        simp [turned, opens, hline]

/-- A line that declares nothing where lines count changes no value. -/
private theorem hasValue_append_of_ne {name : String}
    (h : ∀ value, line.directive? = some (.declare name value) → ¬ AllOn overrides before)
    (value : Bool) :
    HasValue overrides (before ++ [line]) name value ↔ HasValue overrides before name value := by
  rw [hasValue_append]
  constructor
  · intro hcases
    rcases hcases with hvalue | ⟨-, hdeclares, hon⟩
    · exact hvalue
    · exact absurd hon (h value hdeclares)
  · exact Or.inl

/-- A line that opens, turns and closes no block leaves the blocks around. -/
theorem Stacked.plain (h : Stacked overrides before frames) (depth : depthBehind 0 line = some 0)
    (turns : line.directive? ≠ some .otherwise) : Stacked overrides (before ++ [line]) frames := by
  refine h.append ?_ ?_
  · rw [openBehind, depth]
    rfl
  · simp [turned, depth, turns]

/-- A declaration gives a name its value where lines count and the name has none. -/
theorem Tracks.declare (h : Tracks overrides before state) {name : String} {value : Bool}
    (declares : line.directive? = some (.declare name value)) (other : String) (given : Bool) :
    (if state.nesting.active then state.flags.declare name value else state.flags).get? other =
        some given ↔ HasValue overrides (before ++ [line]) other given := by
  by_cases hactive : state.nesting.active = true
  · have hnone : state.flags.get? other = none ↔
        ∀ first, ¬ HasValue overrides before other first := by
      rw [Option.eq_none_iff_forall_ne_some]
      exact forall_congr' fun first => not_congr (h.values other first)
    rw [if_pos hactive, Flags.get?_declare, Option.or_eq_some_iff, h.values, hnone,
      hasValue_append, declares]
    refine or_congr Iff.rfl (and_congr_right fun _ => ?_)
    by_cases heq : other = name
    · simp [heq, h.active_iff.mp hactive]
    · simp [heq, Ne.symm heq]
  · rw [if_neg hactive, h.values, hasValue_append_of_ne]
    intro _ _ hon
    exact hactive (h.active_iff.mpr hon)

/-- **One line of the pass**: the state stays right, a line keeps its text when it is no directive
and all blocks around it are on, and the name of a test has a value. -/
theorem Tracks.step (h : Tracks overrides before state)
    (run : Condition.step state line = .ok (next, kept)) :
    Tracks overrides (before ++ [line]) next ∧
      (kept = true ↔ line.directive? = none ∧ AllOn overrides before) ∧
        ∀ name negated, line.directive? = some (.test name negated) →
          ∃ value, HasValue overrides before name value := by
  have hvalues (undeclared : ∀ name value, line.directive? ≠ some (.declare name value))
      (name : String) (value : Bool) : state.flags.get? name = some value ↔
        HasValue overrides (before ++ [line]) name value := by
    rw [h.values, hasValue_append_of_ne fun value hdeclares => absurd hdeclares (undeclared _ _)]
  have hblocks := h.blocks
  unfold Condition.step at run
  cases hline : line.directive? with
  | none =>
      rw [show Directive.read? line.text = none from hline] at run
      obtain ⟨rfl, rfl⟩ := Prod.mk.inj (Except.ok.inj run)
      refine ⟨⟨hvalues (by simp [hline]), hblocks.plain ?_ (by simp [hline])⟩, ?_, by simp⟩
      · rw [depthBehind, hline]
      · rw [h.active_iff]
        simp
  | some directive =>
      rw [show Directive.read? line.text = some directive from hline] at run
      cases directive with
      | declare name value =>
          obtain ⟨rfl, rfl⟩ := Prod.mk.inj (Except.ok.inj run)
          refine ⟨⟨h.declare hline, hblocks.plain ?_ (by simp [hline])⟩, by simp, by simp⟩
          rw [depthBehind, hline]
      | test name negated =>
          dsimp only at run
          split at run
          · rename_i value hvalue
            obtain ⟨rfl, rfl⟩ := Prod.mk.inj (Except.ok.inj run)
            have hvalued := (h.values name value).mp hvalue
            refine ⟨⟨hvalues (by simp [hline]), ?_⟩, by simp, ?_⟩
            · exact .inner hline rfl hvalued h.active_iff rfl rfl hblocks
            · intro name' negated' htest
              rw [Option.some.injEq, Directive.test.injEq] at htest
              obtain ⟨rfl, -⟩ := htest
              exact ⟨value, hvalued⟩
          · exact absurd run (by simp)
      | otherwise =>
          obtain ⟨nesting, hflip, hresult⟩ := bind_eq_ok_iff.mp run
          obtain ⟨rfl, rfl⟩ := Prod.mk.inj (Except.ok.inj hresult)
          refine ⟨⟨hvalues (by simp [hline]), ?_⟩, by simp, by simp⟩
          unfold Nesting.flip at hflip
          split at hflip
          · exact absurd hflip (by simp)
          · rename_i frame frames hframes
            rw [hframes] at hblocks
            rw [← Except.ok.inj hflip]
            exact hblocks.flip hline
      | close =>
          obtain ⟨nesting, hleave, hresult⟩ := bind_eq_ok_iff.mp run
          obtain ⟨rfl, rfl⟩ := Prod.mk.inj (Except.ok.inj hresult)
          refine ⟨⟨hvalues (by simp [hline]), ?_⟩, by simp, by simp⟩
          unfold Nesting.leave at hleave
          split at hleave
          · exact absurd hleave (by simp)
          · rename_i frame frames hframes
            rw [hframes] at hblocks
            rw [← Except.ok.inj hleave]
            exact hblocks.leave hline

/-! ### What the pass leaves -/

/-- What a line is after the pass, the lines before it being known. -/
structure Leaves (overrides : List (String × Bool)) (before : List SourceLine)
    (line result : SourceLine) : Prop where
  /-- It keeps its text when it is no directive and all blocks around it are on. -/
  kept : line.directive? = none ∧ AllOn overrides before → result = line
  /-- Else it is emptied in its place. -/
  emptied : ¬ (line.directive? = none ∧ AllOn overrides before) → result = line.blanked
  /-- The name of a test has a value. -/
  tested : ∀ name negated, line.directive? = some (.test name negated) →
    ∃ value, HasValue overrides before name value

theorem Tracks.leaves (h : Tracks overrides before state)
    (run : Condition.step state line = .ok (next, kept)) :
    Leaves overrides before line (if kept then line else line.blanked) := by
  obtain ⟨-, hkept, htested⟩ := h.step run
  refine ⟨fun hcounts => ?_, fun hcounts => ?_, htested⟩
  · rw [if_pos (hkept.mpr hcounts)]
  · rw [if_neg fun hk => hcounts (hkept.mp hk)]

/-- **A run of the pass** leaves every line what it is to be. -/
theorem Tracks.run {file : String} {rest : List SourceLine} (h : Tracks overrides before state)
    (finished : (evaluateFrom file state rest).failure = none) :
    (evaluateFrom file state rest).lines.length = rest.length ∧
      ∀ (i : Nat) (line result : SourceLine), rest[i]? = some line →
        (evaluateFrom file state rest).lines[i]? = some result →
          Leaves overrides (before ++ rest.take i) line result := by
  induction rest generalizing before state with
  | nil =>
      refine ⟨?_, by simp⟩
      unfold evaluateFrom
      split <;> rfl
  | cons first rest ih =>
      unfold evaluateFrom at finished ⊢
      cases hstep : Condition.step state first with
      | error error =>
          rw [hstep] at finished
          exact absurd finished (by simp)
      | ok found =>
          obtain ⟨next, kept⟩ := found
          rw [hstep] at finished
          obtain ⟨hlength, hrest⟩ := ih (h.step hstep).1 finished
          refine ⟨by simp [hlength], ?_⟩
          intro i line result hline hresult
          cases i with
          | zero =>
              rw [← Option.some.inj hline, ← Option.some.inj hresult]
              simpa using h.leaves hstep
          | succ i =>
              have hleaves := hrest i line result hline hresult
              rwa [List.append_assoc] at hleaves

/-- The lines of a file after the pass. -/
structure Decided (overrides : List (String × Bool)) (lines result : List SourceLine) : Prop where
  /-- No line is lost, added, moved or numbered anew. -/
  places : result.map SourceLine.place = lines.map SourceLine.place
  leaves : ∀ (i : Nat) (line after : SourceLine), lines[i]? = some line → result[i]? = some after →
    Leaves overrides (lines.take i) line after

/-- Lines without directives are left as they are. -/
theorem evaluateFrom_of_plain {file : String} {flags : Flags} {lines : List SourceLine}
    (plain : ∀ line ∈ lines, line.directive? = none) :
    evaluateFrom file ⟨flags, .outermost⟩ lines = ⟨lines, none⟩ := by
  induction lines with
  | nil => rfl
  | cons line rest ih =>
      have hline : Directive.read? line.text = none := plain line (List.mem_cons_self ..)
      have hstep : Condition.step ⟨flags, .outermost⟩ line = .ok (⟨flags, .outermost⟩, true) := by
        unfold Condition.step
        rw [hline]
        rfl
      rw [evaluateFrom, hstep]
      dsimp only
      rw [ih fun other hother => plain other (List.mem_cons_of_mem _ hother)]
      rfl

private theorem Leaves.plain {result : SourceLine} (h : Leaves overrides before line result) :
    result.directive? = none := by
  by_cases hcounts : line.directive? = none ∧ AllOn overrides before
  · rw [h.kept hcounts]
    exact hcounts.1
  · rw [h.emptied hcounts]
    rfl

/-- **Lines that the pass comes to the end of keep their texts where they are no directives and all
blocks around are on, and are emptied elsewhere; and the pass does not change what it left.** -/
theorem decided_of_evaluateConditions {lines result : List SourceLine}
    (h : (evaluateConditions overrides lines).toExcept = .ok result) :
    Decided overrides lines result ∧
      ∀ others, (evaluateConditions others result).toExcept = .ok result := by
  obtain ⟨hfinished, rfl⟩ := LinePass.toExcept_eq_ok_iff.mp h
  obtain ⟨hlength, hleaves⟩ := (tracks_start overrides).run hfinished
  refine ⟨⟨places_evaluateFrom .., hleaves⟩, ?_⟩
  intro others
  refine LinePass.toExcept_eq_ok_iff.mpr ?_
  have hplain : ∀ line ∈ (evaluateConditions overrides lines).lines, line.directive? = none := by
    intro after hafter
    obtain ⟨i, hi⟩ := List.mem_iff_getElem?.mp hafter
    have hbound : i < lines.length := by
      rw [← hlength]
      exact (List.getElem?_eq_some_iff.mp hi).1
    exact (hleaves i _ after (List.getElem?_eq_getElem hbound) hi).plain
  rw [evaluateConditions, evaluateFrom_of_plain hplain]
  exact ⟨rfl, rfl⟩

/-- A block in a block that is off and then turned over twice, and a name declared while it is
on. -/
def nested : List SourceLine :=
  SourceLine.split "a" ("#const A false\n#if A\n#if B\nx\n#else\ny\n#endif\n#const C true\n" ++
    "#else\n#const C false\nz\n#else\nw\n#endif\n#if !C\nv\n#endif\n")

theorem nested_decided :
    ∃ result, (evaluateConditions [("B", false)] nested).toExcept = .ok result ∧
      (result.filter (·.text ≠ "")).map (fun line => (line.number, line.text)) =
        [(11, "z"), (16, "v")] ∧
      Decided [("B", false)] nested result ∧
        ∀ others, (evaluateConditions others result).toExcept = .ok result := by
  obtain ⟨result, hresult⟩ := exists_eq_ok_of_toBool
    (show (evaluateConditions [("B", false)] nested).toExcept.toBool = true by decide +kernel)
  refine ⟨result, hresult, ?_, decided_of_evaluateConditions hresult⟩
  rw [← LinePass.toExcept_eq_ok hresult]
  decide +kernel

end Condition

end ShaderLink
