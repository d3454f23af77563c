/-
What open blocks remember.

A frame is told once, when its block is opened, whether all blocks around it are on, and it
is asked for that as long as the block is open.  What it was told stays true (`Current`): a
block is turned over only where it is the innermost, so the blocks around an open block do
not change.  Hence the innermost frame speaks for all of them, and a nesting is active
exactly when the branches of all its frames are on (`Current.active_iff`).

A block is known by how many blocks are around it.  Moves that never close it leave what is
around it as it is, and moves that do not turn it over either leave the block itself
(`exists_follow_above`).  So nothing that happens inside a block that is off turns lines on,
and behind a block everything is as it was before it.
-/
import ShaderLink.Source.Condition
import ShaderLink.Proofs.Outcome

namespace ShaderLink

namespace Nesting

/-- What is done to a nesting: a block is opened with its branch, or the innermost one is turned over
or closed. -/
inductive Move where
  | enter (branch : Bool) (line : Nat)
  | flip (file : String) (line : Nat)
  | leave (file : String) (line : Nat)
  deriving DecidableEq

/-- Whether a move turns the innermost block over. -/
def Move.turns : Move → Bool
  | .flip _ _ => true
  | _ => false

/-- Whether a move closes the innermost block. -/
def Move.closes : Move → Bool
  | .leave _ _ => true
  | _ => false

/-- The nesting behind a move. -/
def move (nesting : Nesting) : Move → Except BuildError Nesting
  | .enter branch line => .ok (nesting.enter branch line)
  | .flip file line => nesting.flip file line
  | .leave file line => nesting.leave file line

/-- The nesting behind moves, one after the other. -/
def follow (nesting : Nesting) (moves : List Move) : Except BuildError Nesting :=
  moves.foldlM move nesting

/-- The innermost block is the one with so many blocks around it. -/
def Innermost (nesting : Nesting) (around : Nat) : Prop := nesting.frames.length = around + 1

/-- No move of the kind is made, among moves from a nesting on, where the block with so many blocks
around it is the innermost. -/
def Avoids (kind : Move → Bool) (around : Nat) (nesting : Nesting) : List Move → Prop
  | [] => True
  | next :: rest =>
    (nesting.Innermost around → kind next = false) ∧
      ∀ after, nesting.move next = .ok after → after.Avoids kind around rest

variable {frame : Frame} {frames inner outer : List Frame} {nesting after : Nesting} {next : Move}
  {moves : List Move}

/-! ### What frames remember is true -/

/-- Frames that each remember whether the blocks around them are on now. -/
inductive Current : List Frame → Prop
  | outermost : Current []
  | inner {frame : Frame} {outer : List Frame}
      (enclosing : frame.enclosing = (Nesting.mk outer).active) (around : Current outer) :
      Current (frame :: outer)

/-- **One move** leaves what frames remember true. -/
theorem Current.move (h : Current nesting.frames) (moved : nesting.move next = .ok after) :
    Current after.frames := by
  obtain ⟨frames⟩ := nesting
  cases next with
  | enter branch line =>
      rw [← Except.ok.inj moved]
      exact .inner rfl h
  | flip file line =>
      cases h with
      | outermost => exact absurd moved (by simp [Nesting.move, flip])
      | inner enclosing around =>
          rw [← Except.ok.inj moved]
          exact .inner enclosing around
  | leave file line =>
      cases h with
      | outermost => exact absurd moved (by simp [Nesting.move, leave])
      | inner enclosing around =>
          rw [← Except.ok.inj moved]
          exact around

/-- **A run of moves** leaves what frames remember true. -/
theorem Current.follow (h : Current nesting.frames) (run : nesting.follow moves = .ok after) :
    Current after.frames := by
  induction moves generalizing nesting with
  | nil => rwa [← Except.ok.inj run]
  | cons next rest ih =>
      obtain ⟨between, hnext, hrest⟩ := foldlM_cons_eq_ok_iff.mp run
      exact ih (h.move hnext) hrest

/-- **The innermost frame speaks for all.** -/
theorem Current.active_iff (h : Current frames) :
    (Nesting.mk frames).active = true ↔ ∀ frame ∈ frames, frame.branch = true := by
  induction h with
  | outermost => exact iff_of_true rfl (by simp)
  | @inner frame outer enclosing around ih =>
      show (frame.enclosing && frame.branch) = true ↔ _
      rw [enclosing, Bool.and_eq_true, ih, List.forall_mem_cons, and_comm]

private theorem Current.of_append (h : Current (inner ++ outer)) : Current outer := by
  induction inner with
  | nil => exact h
  | cons frame rest ih =>
      cases h with
      | inner enclosing around => exact ih around

/-- What is inside a block that is off is off. -/
private theorem Current.active_eq_false (h : Current (inner ++ frame :: outer))
    (off : frame.active = false) : (Nesting.mk (inner ++ frame :: outer)).active = false := by
  rw [Bool.eq_false_iff]
  intro hactive
  have hframe : frame.active = true := by
    refine h.of_append.active_iff.mpr ?_
    intro other hother
    exact h.active_iff.mp hactive other (List.mem_append_right _ hother)
  rw [off] at hframe
  exact absurd hframe (by simp)

/-! ### What stays where it is -/

private theorem innermost_nil (frame : Frame) (outer : List Frame) :
    (Nesting.mk ([] ++ frame :: outer)).Innermost outer.length := rfl

/-- **One move** that does not close a block leaves what is around it; when it does not turn the block
over either, it leaves the block. -/
theorem exists_move_above
    (keeps : (Nesting.mk (inner ++ frame :: outer)).Innermost outer.length → next.closes = false) :
    ∃ inner' frame', (Nesting.mk (inner ++ frame :: outer)).move next =
        .ok ⟨inner' ++ frame' :: outer⟩ ∧
      (((Nesting.mk (inner ++ frame :: outer)).Innermost outer.length → next.turns = false) →
        frame' = frame) := by
  cases next with
  | enter branch line => exact ⟨_ :: inner, frame, rfl, fun _ => rfl⟩
  | flip file line =>
      cases inner with
      | nil =>
          refine ⟨[], { frame with branch := !frame.branch }, rfl, ?_⟩
          intro spares
          exact absurd (spares (innermost_nil frame outer)) (by simp [Move.turns])
      | cons top rest => exact ⟨_ :: rest, frame, rfl, fun _ => rfl⟩
  | leave file line =>
      cases inner with
      | nil => exact absurd (keeps (innermost_nil frame outer)) (by simp [Move.closes])
      | cons top rest => exact ⟨rest, frame, rfl, fun _ => rfl⟩

/-- **Moves** that never close a block can all be made and leave what is around it; when they never
turn the block over either, they leave the block. -/
theorem exists_follow_above
    (keeps : (Nesting.mk (inner ++ frame :: outer)).Avoids Move.closes outer.length moves) :
    ∃ inner' frame', (Nesting.mk (inner ++ frame :: outer)).follow moves =
        .ok ⟨inner' ++ frame' :: outer⟩ ∧
      ((Nesting.mk (inner ++ frame :: outer)).Avoids Move.turns outer.length moves →
        frame' = frame) := by
  induction moves generalizing inner frame with
  | nil => exact ⟨inner, frame, rfl, fun _ => rfl⟩
  | cons next rest ih =>
      obtain ⟨hkeep, hkeeps⟩ := keeps
      obtain ⟨inner', frame', hnext, hspare⟩ := exists_move_above hkeep
      obtain ⟨inner'', frame'', hrest, hspares⟩ := ih (hkeeps _ hnext)
      refine ⟨inner'', frame'', ?_, ?_⟩
      · rw [follow, List.foldlM_cons, hnext]
        exact hrest
      · intro spares
        obtain ⟨hturn, hturns⟩ := spares
        obtain rfl := hspare hturn
        exact hspares (hturns _ hnext)

/-- **The move that closes a block gives back the nesting in which it was opened.** -/
theorem leave_of_innermost {branch : Bool} {opened : Nat} {between : Nesting}
    (inside : (nesting.enter branch opened).follow moves = .ok between)
    (keeps : (nesting.enter branch opened).Avoids Move.closes nesting.frames.length moves)
    (innermost : between.Innermost nesting.frames.length) (file : String) (line : Nat) :
    between.leave file line = .ok nesting := by
  have hkeeps : (Nesting.mk ([] ++ ⟨nesting.active, branch, opened⟩ :: nesting.frames)).Avoids
      Move.closes nesting.frames.length moves := keeps
  obtain ⟨inner, frame, hfollow, -⟩ := exists_follow_above hkeeps
  obtain rfl := Except.ok.inj (inside.symm.trans hfollow)
  have hlength : inner.length = 0 := by
    have hframes : (inner ++ frame :: nesting.frames).length = nesting.frames.length + 1 := innermost
    rw [List.length_append, List.length_cons] at hframes
    omega
  rw [List.length_eq_zero_iff.mp hlength]
  rfl

/--
**A nesting is active exactly when every branch in it is on, whatever moves it was made by.**  So
once a block is off, moves that neither close it nor turn it over do not make the nesting active.  The
move that closes a block gives back the nesting in which the block was opened, so it is as active as it
was there.
-/
theorem active_of_follow (made : outermost.follow moves = .ok nesting) :
    (nesting.active = true ↔ ∀ frame ∈ nesting.frames, frame.branch = true) ∧
      (∀ inner frame outer later, nesting.frames = inner ++ frame :: outer →
        frame.active = false → nesting.Avoids Move.closes outer.length later →
          nesting.Avoids Move.turns outer.length later →
            ∃ after, nesting.follow later = .ok after ∧ after.active = false) ∧
      ∀ branch opened inside between file closed,
        (nesting.enter branch opened).follow inside = .ok between →
          (nesting.enter branch opened).Avoids Move.closes nesting.frames.length inside →
            between.Innermost nesting.frames.length → between.leave file closed = .ok nesting := by
  have hcurrent : Current nesting.frames := Current.outermost.follow made
  refine ⟨hcurrent.active_iff, ?_, ?_⟩
  · intro inner frame outer later hframes off keeps spares
    obtain ⟨frames⟩ := nesting
    obtain rfl := hframes
    obtain ⟨inner', frame', hlater, hspares⟩ := exists_follow_above keeps
    obtain rfl := hspares spares
    exact ⟨_, hlater, (hcurrent.follow hlater).active_eq_false off⟩
  · intro branch opened inside between file closed hinside keeps innermost
    exact leave_of_innermost hinside keeps innermost file closed

/-- A block that is on, in it one that is off, and in that one whose own branch is on. -/
def muted : Nesting := ⟨[⟨false, true, 3⟩, ⟨true, false, 2⟩, ⟨true, true, 1⟩]⟩

/-- Moves that turn over and close what is inside the block that is off, and open others there. -/
def insideMuted : List Move :=
  [.flip "a" 4, .leave "a" 5, .enter false 6, .enter true 7, .flip "a" 8, .leave "a" 9, .flip "a" 10]

/-- Moves inside a block that is turned over twice, with another block in it. -/
def turningTwice : List Move :=
  [.flip "a" 5, .enter false 6, .flip "a" 7, .leave "a" 8, .flip "a" 9]

/-- What is inside the block that is off stays off, a block whose own branch is on included, and the end
of a block that is opened inside gives back what was there before. -/
theorem muted_active :
    outermost.follow [.enter true 1, .enter false 2, .enter true 3] = .ok muted ∧
      ¬ (∀ frame ∈ muted.frames, frame.branch = true) ∧ muted.active = false ∧
      (∃ after, muted.follow insideMuted = .ok after ∧
        after.frames = [⟨false, true, 6⟩, ⟨true, false, 2⟩, ⟨true, true, 1⟩] ∧
        after.active = false) ∧
      ∃ between, (muted.enter true 4).follow turningTwice = .ok between ∧
        between.leave "a" 10 = .ok muted := by
  have hmade : outermost.follow [.enter true 1, .enter false 2, .enter true 3] = .ok muted := rfl
  obtain ⟨hactive, hoff, hleave⟩ := active_of_follow hmade
  have hkeeps : muted.Avoids Move.closes 1 insideMuted := by
    simp [Avoids, insideMuted, Innermost, muted, move, enter, flip, leave, Move.closes]
  have hspares : muted.Avoids Move.turns 1 insideMuted := by
    simp [Avoids, insideMuted, Innermost, muted, move, enter, flip, leave, Move.turns]
  have hinside : (muted.enter true 4).Avoids Move.closes 3 turningTwice := by
    simp [Avoids, turningTwice, Innermost, muted, move, enter, flip, leave, Move.closes]
  have hbranches : ¬ ∀ frame ∈ muted.frames, frame.branch = true := by simp [muted]
  refine ⟨hmade, hbranches, Bool.eq_false_iff.mpr fun h => hbranches (hactive.mp h), ?_, ?_⟩
  · obtain ⟨after, hafter, hactive⟩ :=
      hoff [⟨false, true, 3⟩] ⟨true, false, 2⟩ [⟨true, true, 1⟩] insideMuted rfl rfl hkeeps hspares
    refine ⟨after, hafter, ?_, hactive⟩
    rw [← Except.ok.inj hafter]
    rfl
  · exact ⟨_, rfl, hleave true 4 turningTwice _ "a" 10 rfl hinside rfl⟩

end Nesting

end ShaderLink
