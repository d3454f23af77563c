/-
Assignments on several lines.

A text of assignments that is accepted leaves no quote and no backslash open, so a line
feed behind it ends its last word, or the comment that it ends with, and what follows is
read as a text of its own.  The words of two accepted texts with a line feed between them
are thus the words of one and then those of the other, and the settings are those of one
with those of the other merged into them.

On the command line this is what several texts of assignments come to that are given one
after the other: they may as well be given as the lines of a single one.
-/
import ShaderLink.CommandLine
import ShaderLink.Proofs.Settings.Maps

namespace ShaderLink

namespace ShellWords

variable {mode : Mode} {text more : List Char} {words others : List (List Char)}

/-- The words from a mode on, told by those behind the first character. -/
private theorem readFrom_cons_eq_some_iff {c : Char} :
    readFrom mode (c :: text) = some words ↔
      ∃ inner, readFrom (mode.step c).1 text = some inner ∧
        words = if (mode.step c).1.inWord then addToFirst (mode.step c).2 inner
          else if mode.inWord then [] :: inner else inner := by
  rw [readFrom, Option.map_eq_some_iff]
  simp only [eq_comm]

/-- In the middle of a word there is a word to return. -/
private theorem ne_nil_of_readFrom (inWord : mode.inWord = true)
    (h : readFrom mode text = some words) : words ≠ [] := by
  cases text with
  | nil =>
      rw [readFrom] at h
      cases mode with
      | gap | comment => exact absurd inWord (by decide)
      | bare =>
          rw [← Option.some.inj h]
          simp
      | bareEscape | single | double | doubleEscape => exact absurd h (by simp [Mode.atEnd?])
  | cons c rest =>
      obtain ⟨inner, -, rfl⟩ := readFrom_cons_eq_some_iff.mp h
      split
      · cases inner with
        | nil => simp [addToFirst]
        | cons word inner => simp [addToFirst]
      · simp

/-- Characters are added to the first word only. -/
private theorem addToFirst_append {added : List Char} (full : words ≠ []) :
    addToFirst added (words ++ others) = addToFirst added words ++ others := by
  obtain ⟨word, rest, rfl⟩ := List.exists_cons_of_ne_nil full
  rfl

/-- **A line feed behind an accepted text begins a text of its own.** -/
theorem readFrom_append_newline (h : readFrom mode text = some words)
    (behind : readFrom .gap more = some others) :
    readFrom mode (text ++ '\n' :: more) = some (words ++ others) := by
  induction text generalizing mode words with
  | nil =>
      -- where a text may end, a line feed leads to the gap between words
      rw [List.nil_append, readFrom_cons_eq_some_iff]
      rw [readFrom] at h
      cases mode with
      | gap | comment | bare =>
          rw [← Option.some.inj h]
          exact ⟨others, behind, rfl⟩
      | bareEscape | single | double | doubleEscape => exact absurd h (by simp [Mode.atEnd?])
  | cons c rest ih =>
      obtain ⟨inner, hinner, rfl⟩ := readFrom_cons_eq_some_iff.mp h
      refine readFrom_cons_eq_some_iff.mpr ⟨inner ++ others, ih hinner, ?_⟩
      split
      · rename_i hword
        rw [addToFirst_append (ne_nil_of_readFrom hword hinner)]
      · split
        · rfl
        · rfl

/-- The words of accepted texts are those of the texts on lines of their own. -/
theorem read?_append_newline {a b : String} {words others : List String}
    (ha : read? a = some words) (hb : read? b = some others) :
    read? (a ++ "\n" ++ b) = some (words ++ others) := by
  obtain ⟨front, hfront, rfl⟩ := Option.map_eq_some_iff.mp ha
  obtain ⟨back, hback, rfl⟩ := Option.map_eq_some_iff.mp hb
  have htext : (a ++ "\n" ++ b).toList = a.toList ++ '\n' :: b.toList := by simp
  rw [read?, htext, readFrom_append_newline hfront hback, Option.map_some, List.map_append]

end ShellWords

namespace Settings

/-- A text of assignments is accepted when it has words and each of them assigns something. -/
theorem ofAssignments_eq_ok_iff {text : String} {settings : Settings} :
    ofAssignments text = .ok settings ↔
      ∃ words entries, ShellWords.read? text = some words ∧
        words.map ofAssignment? = entries.map some ∧ settings = ofList entries := by
  unfold ofAssignments
  cases ShellWords.read? text with
  | none => simp
  | some words =>
      simp only [bind_eq_ok_iff, Option.some.injEq, Except.ok.injEq, exists_and_left,
        exists_eq_left', eq_comm (a := settings)]
      refine exists_congr fun entries => and_congr (mapM_eq_ok_iff fun word entry => ?_) Iff.rfl
      cases ofAssignment? word with
      | none => simp
      | some found => simp

private theorem ofAssignments_nothing : ofAssignments "" = .ok Table.empty := rfl

/-- **The settings of two accepted texts on lines of their own are those of one with those of the
other merged into them.** -/
theorem ofAssignments_append {a b : String} {first second : Settings}
    (ha : ofAssignments a = .ok first) (hb : ofAssignments b = .ok second) :
    ofAssignments (a ++ "\n" ++ b) = .ok (first.merge second) := by
  obtain ⟨words, entries, hwords, hentries, rfl⟩ := ofAssignments_eq_ok_iff.mp ha
  obtain ⟨others, more, hothers, hmore, rfl⟩ := ofAssignments_eq_ok_iff.mp hb
  refine ofAssignments_eq_ok_iff.mpr ⟨words ++ others, entries ++ more, ?_, ?_, ?_⟩
  · exact ShellWords.read?_append_newline hwords hothers
  · rw [List.map_append, hentries, hmore, List.map_append]
  · rw [ofList_append]

end Settings

namespace CommandLine

variable {source : AssetSource} {arguments : Arguments}

/-- The arguments with further settings merged into theirs. -/
def Arguments.merged (arguments : Arguments) (settings : Settings) : Arguments :=
  { arguments with settings := arguments.settings.merge settings }

private theorem readFrom_set {text : String} {settings : Settings}
    (h : Settings.ofAssignments text = .ok settings) (rest : List String) :
    readFrom source arguments ("--set" :: text :: rest) =
      readFrom source (arguments.merged settings) rest := by
  rw [readFrom, h]
  rfl

/-- Accepted texts of assignments come to settings that are those of the texts as the lines of one. -/
private theorem exists_readFrom_sets (source : AssetSource) {texts : List String}
    (accepted : ∀ text ∈ texts, ∃ settings, Settings.ofAssignments text = .ok settings) :
    ∃ settings, Settings.ofAssignments ("\n".intercalate texts) = .ok settings ∧
      ∀ arguments rest, readFrom source arguments (texts.flatMap (["--set", ·]) ++ rest) =
        readFrom source (arguments.merged settings) rest := by
  induction texts with
  | nil => exact ⟨Table.empty, Settings.ofAssignments_nothing, fun arguments rest => rfl⟩
  | cons text more ih =>
      obtain ⟨htext, hmore⟩ := List.forall_mem_cons.mp accepted
      obtain ⟨settings, hsettings⟩ := htext
      obtain ⟨others, hothers, hreads⟩ := ih hmore
      refine ⟨settings.merge others, ?_, fun arguments rest => ?_⟩
      · cases more with
        | nil =>
            have hempty : others = Table.empty := by
              rw [String.intercalate_nil, Settings.ofAssignments_nothing] at hothers
              exact (Except.ok.inj hothers).symm
            rw [String.intercalate_singleton, hempty, Table.merge_empty, hsettings]
        | cons next more =>
            rw [String.intercalate_cons_cons]
            exact Settings.ofAssignments_append hsettings hothers
      · show readFrom source arguments ("--set" :: text :: (more.flatMap (["--set", ·]) ++ rest)) = _
        rw [readFrom_set hsettings, hreads, Arguments.merged, Arguments.merged, Arguments.merged,
          Table.merge_assoc]

end CommandLine

namespace Settings

/--
**Accepted texts may be the lines of one.**  Two of them with a line feed between are accepted, and give
what merging the settings of the second into those of the first gives.  So however many of them the
command line is given, it does with them what it does with one text that has them for its lines.
-/
theorem ofAssignments_lines {a b : String} {first second : Settings}
    (ha : ofAssignments a = .ok first) (hb : ofAssignments b = .ok second) :
    ofAssignments (a ++ "\n" ++ b) = .ok (first.merge second) ∧
      ∀ source arguments texts rest,
        (∀ text ∈ a :: b :: texts, ∃ settings, ofAssignments text = .ok settings) →
        CommandLine.readFrom source arguments
            ((a :: b :: texts).flatMap (["--set", ·]) ++ rest) =
          CommandLine.readFrom source arguments
            ("--set" :: "\n".intercalate (a :: b :: texts) :: rest) := by
  refine ⟨ofAssignments_append ha hb, fun source arguments texts rest accepted => ?_⟩
  obtain ⟨settings, hsettings, hreads⟩ :=
    CommandLine.exists_readFrom_sets source accepted
  rw [hreads, CommandLine.readFrom_set hsettings]

/-- Assignments with a comment at the end. -/
def commented : String := "N=3 \"L=true\" # of a scene"

/-- Assignments that set a name to a boolean that was a number. -/
def reassigned : String := "N=false 'S'=7"

/-- The line feed ends the comment, and the name changes sides. -/
theorem commented_lines :
    ofAssignments commented = .ok (ofList [("N", .int 3), ("L", .flag true)]) ∧
      ofAssignments reassigned = .ok (ofList [("N", .flag false), ("S", .int 7)]) ∧
      ofAssignments (commented ++ "\n" ++ reassigned) =
        .ok (ofList [("N", .flag false), ("L", .flag true), ("S", .int 7)]) ∧
      ∀ source arguments,
        CommandLine.readFrom source arguments ["--set", commented, "--set", reassigned, "main"] =
          CommandLine.readFrom source arguments
            ["--set", commented ++ "\n" ++ reassigned, "main"] := by
  have hfirst : ofAssignments commented = .ok (ofList [("N", .int 3), ("L", .flag true)]) := by
    decide +kernel
  have hsecond : ofAssignments reassigned = .ok (ofList [("N", .flag false), ("S", .int 7)]) := by
    decide +kernel
  obtain ⟨hlines, hreads⟩ := ofAssignments_lines hfirst hsecond
  refine ⟨hfirst, hsecond, hlines, fun source arguments => ?_⟩
  refine hreads source arguments [] ["main"] ?_
  exact List.forall_mem_cons.mpr ⟨⟨_, hfirst⟩, List.forall_mem_singleton.mpr ⟨_, hsecond⟩⟩

end Settings

end ShaderLink
