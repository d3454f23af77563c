/-
What a command line spells.

The words of a command are read from left to right, and an option that needs an argument
takes the word behind it whatever that looks like.  So the line falls into groups: an option
with its argument, the wish for JSON, or a word that stands for itself.  No other cut of
the same words is possible, because the first word of a group tells how many it has.

Reading a group is one step on the arguments read so far, and each kind of group changes
one of them only.  What all the groups come to can therefore be told for each kind by itself:
the root is that of the last one, the settings are merged in their order, and there must
be one entry.  Groups of different kinds may then change places.
-/
import Mathlib.Data.List.Basic
import ShaderLink.CommandLine
import ShaderLink.Proofs.Outcome

namespace ShaderLink

namespace CommandLine

/-! ### The groups of a line -/

/-- A word that is no option and does not ask for help, so it stands for itself. -/
def IsPlain (word : String) : Prop :=
  "--".toList.isPrefixOf word.toList = false ∧ word ≠ "-h"

instance (word : String) : Decidable (IsPlain word) := inferInstanceAs (Decidable (_ ∧ _))

/-- A word for the entry file. -/
structure Entry where
  word : String
  plain : IsPlain word
  deriving DecidableEq

/-- Words of a command line that belong together. -/
inductive Group where
  | root (path : String)
  | settings (path : String)
  | set (text : String)
  | json
  | entry (file : Entry)
  deriving DecidableEq

namespace Group

/-- The words that a group is spelled with. -/
def words : Group → List String
  | .root path => ["--root", path]
  | .settings path => ["--settings", path]
  | .set text => ["--set", text]
  | .json => ["--json"]
  | .entry file => [file.word]

/-- Whether a group gives the root directory. -/
def isRoot : Group → Bool
  | .root _ => true
  | _ => false

/-- Whether a group gives settings. -/
def isLoad : Group → Bool
  | .settings _ | .set _ => true
  | _ => false

/-- The root directory that a group gives. -/
@[simp] def root? : Group → Option String
  | .root path => some path
  | _ => none

/-- The settings that a group gives, or why they cannot be loaded. -/
@[simp] def loaded? (source : AssetSource) : Group → Option (Except BuildError Settings)
  | .settings path => some (loadSettings source path)
  | .set text => some (Settings.ofAssignments text)
  | _ => none

/-- The entry file that a group gives. -/
@[simp] def entry? : Group → Option String
  | .entry file => some file.word
  | _ => none

end Group

variable {source : AssetSource} {arguments next result : Arguments}
  {option : String} {words rest more : List String} {group other : Group}
  {groups others : List Group}

/-- A word with two dashes in front does not stand for itself. -/
private theorem Entry.word_ne (entry : Entry)
    (dashes : "--".toList.isPrefixOf option.toList = true) : entry.word ≠ option := by
  rintro rfl
  exact absurd dashes (by rw [entry.plain.1]; decide)

private theorem Group.words_ne_nil : group.words ≠ [] := by
  cases group <;> simp [Group.words]

/-- **The first word of a group tells where the group ends.** -/
theorem Group.append_words_inj (h : group.words ++ rest = other.words ++ more) :
    group = other ∧ rest = more := by
  have hroot (entry : Entry) : entry.word ≠ "--root" := entry.word_ne (by decide)
  have hsettings (entry : Entry) : entry.word ≠ "--settings" := entry.word_ne (by decide)
  have hset (entry : Entry) : entry.word ≠ "--set" := entry.word_ne (by decide)
  have hjson (entry : Entry) : entry.word ≠ "--json" := entry.word_ne (by decide)
  cases group <;> cases other <;> grind [Group.words, Entry]

/-- **Words are cut into groups in one way at most.** -/
theorem flatMap_words_inj (h : groups.flatMap Group.words = others.flatMap Group.words) :
    groups = others := by
  induction groups generalizing others with
  | nil =>
      cases others with
      | nil => rfl
      | cons other others =>
          exact absurd (List.append_eq_nil_iff.mp h.symm).1 Group.words_ne_nil
  | cons group groups ih =>
      cases others with
      | nil => exact absurd (List.append_eq_nil_iff.mp h).1 Group.words_ne_nil
      | cons other others =>
          rw [List.flatMap_cons, List.flatMap_cons] at h
          obtain ⟨hgroup, hrest⟩ := Group.append_words_inj h
          rw [hgroup, ih hrest]

/-! ### Reading a group -/

/-- The arguments after a further group. -/
def Arguments.after (source : AssetSource) (arguments : Arguments) :
    Group → Except Failure Arguments
  | .root path => .ok { arguments with root := path }
  | .settings path => arguments.merge (loadSettings source path)
  | .set text => arguments.merge (Settings.ofAssignments text)
  | .json => .ok { arguments with json := true }
  | .entry file => arguments.addWord file.word

/-- A word that stands for itself is the entry file. -/
private theorem readFrom_entry (file : Entry) :
    readFrom source arguments (file.word :: rest) =
      arguments.addWord file.word >>= fun next => readFrom source next rest := by
  rw [readFrom]
  · exact file.word_ne (by decide)
  · exact file.word_ne (by decide)
  · exact file.word_ne (by decide)
  · exact file.word_ne (by decide)
  · exact file.plain.2
  · exact file.word_ne (by decide)

/-- The words of a group are read in one step. -/
private theorem readFrom_words :
    readFrom source arguments (group.words ++ rest) =
      arguments.after source group >>= fun next => readFrom source next rest := by
  cases group with
  | root path => rfl
  | settings path => rfl
  | set text => rfl
  | json => rfl
  | entry file => exact readFrom_entry file

private theorem readFrom_flatMap :
    readFrom source arguments (groups.flatMap Group.words) =
      groups.foldlM (Arguments.after source) arguments := by
  induction groups generalizing arguments with
  | nil => rfl
  | cons group groups ih =>
      rw [List.flatMap_cons, readFrom_words, List.foldlM_cons]
      exact congrArg _ (funext fun next => ih)

/-- A word is added as the entry when it is no option and the first of its kind. -/
theorem addWord_eq_ok_iff {word : String} :
    arguments.addWord word = .ok next ↔
      "--".toList.isPrefixOf word.toList = false ∧ arguments.entry = none ∧
        { arguments with entry := some word } = next := by
  unfold Arguments.addWord
  split
  · rename_i dashes
    exact iff_of_false (by simp) fun h => absurd dashes (by rw [h.1]; decide)
  · rename_i dashes
    rw [and_iff_right (Bool.eq_false_iff.mpr dashes)]
    cases arguments.entry <;> simp

private theorem exists_groups_cons (group : Group)
    (h : ∃ groups : List Group, groups.flatMap Group.words = rest) :
    ∃ groups : List Group, groups.flatMap Group.words = group.words ++ rest := by
  obtain ⟨groups, hgroups⟩ := h
  exact ⟨group :: groups, by rw [List.flatMap_cons, hgroups]⟩

/-- **Words that are read to their end are those of groups.** -/
theorem exists_groups_of_readFrom (h : readFrom source arguments words = .ok result) :
    ∃ groups : List Group, groups.flatMap Group.words = words := by
  induction arguments, words using readFrom.induct with
  | case1 arguments => exact ⟨[], rfl⟩
  | case2 | case4 | case6 | case9 | case10 => exact absurd h (by simp [readFrom])
  | case3 arguments root rest ih => exact exists_groups_cons (.root root) (ih h)
  | case5 arguments path rest ih =>
      obtain ⟨next, -, hrest⟩ := bind_eq_ok_iff.mp h
      exact exists_groups_cons (.settings path) (ih next hrest)
  | case7 arguments text rest ih =>
      obtain ⟨next, -, hrest⟩ := bind_eq_ok_iff.mp h
      exact exists_groups_cons (.set text) (ih next hrest)
  | case8 arguments rest ih => exact exists_groups_cons .json (ih h)
  | case11 arguments word rest hroot hsettings hset hjson help hhelp ih =>
      have hread : readFrom source arguments (word :: rest) =
          arguments.addWord word >>= fun next => readFrom source next rest := by
        rw [readFrom] <;> assumption
      rw [hread, bind_eq_ok_iff] at h
      obtain ⟨next, hnext, hrest⟩ := h
      exact exists_groups_cons (.entry ⟨word, (addWord_eq_ok_iff.mp hnext).1, help⟩) (ih next hrest)

/-! ### What groups come to -/

/-- The settings that are loaded one after another, all of them merged into some. -/
def Merged (start : Settings) (loads : List (Except BuildError Settings)) (result : Settings) :
    Prop :=
  ∃ loaded : List Settings, loads = loaded.map .ok ∧ loaded.foldl Table.merge start = result

variable {start final : Settings} {load : Except BuildError Settings}
  {loads further : List (Except BuildError Settings)}

@[simp] theorem merged_nil_iff : Merged start [] final ↔ start = final := by
  simp [Merged, eq_comm (a := [])]

@[simp] theorem merged_singleton_iff :
    Merged start [load] final ↔ ∃ settings, load = .ok settings ∧ start.merge settings = final := by
  constructor
  · rintro ⟨loaded, hloads, hfinal⟩
    obtain ⟨settings, rfl, hsettings⟩ := List.map_eq_singleton_iff.mp hloads.symm
    exact ⟨settings, hsettings.symm, hfinal⟩
  · rintro ⟨settings, rfl, hfinal⟩
    exact ⟨[settings], rfl, hfinal⟩

private theorem merged_append_iff :
    Merged start (loads ++ further) final ↔
      ∃ between, Merged start loads between ∧ Merged between further final := by
  constructor
  · rintro ⟨loaded, hloads, hfinal⟩
    obtain ⟨first, second, rfl, hfirst, hsecond⟩ := List.append_eq_map_iff.mp hloads
    rw [List.foldl_append] at hfinal
    exact ⟨_, ⟨first, hfirst.symm, rfl⟩, ⟨second, hsecond.symm, hfinal⟩⟩
  · rintro ⟨between, ⟨first, rfl, rfl⟩, ⟨second, rfl, rfl⟩⟩
    exact ⟨first ++ second, List.map_append.symm, List.foldl_append ..⟩

/-- The entry once files for it have been given, of which there is one at most. -/
def Given (before : Option String) (files : List String) (after : Option String) : Prop :=
  before.toList ++ files = after.toList

variable {before after : Option String} {file : String} {files later : List String}

@[simp] theorem given_nil_iff : Given before [] after ↔ before = after := by
  cases before <;> cases after <;> simp [Given]

@[simp] theorem given_singleton_iff :
    Given before [file] after ↔ before = none ∧ some file = after := by
  cases before <;> cases after <;> simp [Given]

private theorem given_append_iff :
    Given before (files ++ later) after ↔
      ∃ between, Given before files between ∧ Given between later after := by
  constructor
  · intro h
    rw [Given, ← List.append_assoc] at h
    cases hfront : before.toList ++ files with
    | nil =>
        rw [hfront] at h
        exact ⟨none, hfront, h⟩
    | cons first rest =>
        rw [hfront] at h
        have hrest : rest = [] := by
          cases after with
          | none => exact absurd h (List.cons_ne_nil _ _)
          | some file => exact (List.append_eq_nil_iff.mp (List.cons.inj h).2).1
        rw [hrest] at hfront h
        exact ⟨some first, hfront, h⟩
  · rintro ⟨between, hfirst, hsecond⟩
    rw [Given, ← List.append_assoc, hfirst, hsecond]

/-- What the arguments are once groups have been read. -/
@[mk_iff]
structure Amounts (source : AssetSource) (arguments : Arguments) (groups : List Group)
    (result : Arguments) : Prop where
  root : (groups.filterMap Group.root?).getLast?.getD arguments.root = result.root
  settings : Merged arguments.settings (groups.filterMap (Group.loaded? source)) result.settings
  json : (arguments.json || groups.contains .json) = result.json
  entry : Given arguments.entry (groups.filterMap Group.entry?) result.entry

/-- **What groups come to is what the last of them come to behind the first.** -/
theorem amounts_append_iff :
    Amounts source arguments (groups ++ others) result ↔
      ∃ next, Amounts source arguments groups next ∧ Amounts source next others result := by
  have hroot (start : String) : ((groups ++ others).filterMap Group.root?).getLast?.getD start =
      (others.filterMap Group.root?).getLast?.getD
        ((groups.filterMap Group.root?).getLast?.getD start) := by
    rw [List.filterMap_append, List.getLast?_append, Option.getD_or]
  have hjson (start : Bool) : (start || (groups ++ others).contains .json) =
      ((start || groups.contains .json) || others.contains .json) := by
    rw [List.contains_append, Bool.or_assoc]
  constructor
  · rintro ⟨root, settings, json, entry⟩
    rw [List.filterMap_append, merged_append_iff] at settings
    rw [List.filterMap_append, given_append_iff] at entry
    obtain ⟨between, hfirst, hsecond⟩ := settings
    obtain ⟨file, hfront, hback⟩ := entry
    rw [hroot] at root
    rw [hjson] at json
    exact ⟨⟨_, between, _, file⟩, ⟨rfl, hfirst, rfl, hfront⟩, ⟨root, hsecond, json, hback⟩⟩
  · rintro ⟨next, h, k⟩
    refine ⟨?_, ?_, ?_, ?_⟩
    · rw [hroot, h.root, k.root]
    · rw [List.filterMap_append, merged_append_iff]
      exact ⟨next.settings, h.settings, k.settings⟩
    · rw [hjson, h.json, k.json]
    · rw [List.filterMap_append, given_append_iff]
      exact ⟨next.entry, h.entry, k.entry⟩

/-- Loaded settings change nothing but the settings. -/
private theorem merge_eq_ok_iff :
    arguments.merge load = .ok next ↔
      arguments.root = next.root ∧ Merged arguments.settings [load] next.settings ∧
        arguments.json = next.json ∧ arguments.entry = next.entry := by
  cases next
  cases load with
  | error error => simp [Arguments.merge]
  | ok settings => simp [Arguments.merge]

/-- A word that stands for itself changes nothing but the entry. -/
private theorem addWord_entry_eq_ok_iff (file : Entry) :
    arguments.addWord file.word = .ok next ↔
      arguments.root = next.root ∧ arguments.settings = next.settings ∧
        arguments.json = next.json ∧ Given arguments.entry [file.word] next.entry := by
  cases next
  rw [addWord_eq_ok_iff, and_iff_right file.plain.1, given_singleton_iff]
  cases arguments.entry <;> simp

/-- **A group is read when it comes to something by itself.** -/
theorem after_eq_ok_iff :
    arguments.after source group = .ok next ↔ Amounts source arguments [group] next := by
  rw [amounts_iff]
  cases group with
  | root path | json =>
      cases next
      simp [Arguments.after, List.filterMap_cons]
  | settings path | set text =>
      rw [Arguments.after, merge_eq_ok_iff]
      simp [List.filterMap_cons]
  | entry file =>
      rw [Arguments.after, addWord_entry_eq_ok_iff]
      simp [List.filterMap_cons]

/-- **Reading groups gives what they come to.** -/
theorem foldlM_after_eq_ok_iff :
    groups.foldlM (Arguments.after source) arguments = .ok result ↔
      Amounts source arguments groups result := by
  induction groups generalizing arguments with
  | nil =>
      cases arguments
      cases result
      simp [amounts_iff, pure, Except.pure]
  | cons group groups ih =>
      rw [foldlM_cons_eq_ok_iff, ← List.singleton_append, amounts_append_iff]
      exact exists_congr fun next => and_congr after_eq_ok_iff ih

/-! ### The options of a line -/

/-- Groups that make a whole line: all settings can be loaded, and there is one entry. -/
structure Accepted (source : AssetSource) (groups : List Group) : Prop where
  loads : ∀ load ∈ groups.filterMap (Group.loaded? source), ∃ settings, load = .ok settings
  entry : ∃ file, groups.filterMap Group.entry? = [file]

/-- What groups spell when they make a whole line. -/
structure Spells (source : AssetSource) (groups : List Group) (options : Options) : Prop where
  root : options.root = (groups.filterMap Group.root?).getLast?.getD "."
  settings : Merged Table.empty (groups.filterMap (Group.loaded? source)) options.settings
  json : options.json = true ↔ Group.json ∈ groups
  entry : groups.filterMap Group.entry? = [options.entry]

variable {asked : Options}

private theorem exists_eq_map_ok (h : ∀ load ∈ loads, ∃ settings, load = .ok settings) :
    ∃ loaded : List Settings, loads = loaded.map .ok := by
  induction loads with
  | nil => exact ⟨[], rfl⟩
  | cons load loads ih =>
      obtain ⟨⟨settings, rfl⟩, hloads⟩ := List.forall_mem_cons.mp h
      obtain ⟨loaded, rfl⟩ := ih hloads
      exact ⟨settings :: loaded, rfl⟩

/-- Groups that make a whole line spell something. -/
theorem accepted_iff_exists_spells :
    Accepted source groups ↔ ∃ asked, Spells source groups asked := by
  constructor
  · rintro ⟨loads, file, hfile⟩
    obtain ⟨loaded, hloaded⟩ := exists_eq_map_ok loads
    exact ⟨⟨_, _, decide (Group.json ∈ groups), file⟩, rfl, ⟨loaded, hloaded, rfl⟩, by simp, hfile⟩
  · rintro ⟨asked, -, ⟨loaded, hloaded, -⟩, -, hfile⟩
    refine ⟨fun load hload => ?_, asked.entry, hfile⟩
    rw [hloaded] at hload
    obtain ⟨settings, -, hsettings⟩ := List.mem_map.mp hload
    exact ⟨settings, hsettings.symm⟩

private theorem options_eq_ok_iff_readFrom :
    options source words = .ok asked ↔
      readFrom source .initial words =
        .ok ⟨asked.root, asked.settings, asked.json, some asked.entry⟩ := by
  rw [options, bind_eq_ok_iff]
  constructor
  · rintro ⟨⟨root, settings, json, entry⟩, hread, hentry⟩
    cases entry with
    | none => exact absurd hentry (by simp)
    | some entry => rw [hread, ← Except.ok.inj hentry]
  · intro hread
    exact ⟨_, hread, rfl⟩

/-- **The words of groups are accepted for what the groups spell.** -/
theorem options_flatMap_eq_ok_iff :
    options source (groups.flatMap Group.words) = .ok asked ↔ Spells source groups asked := by
  rw [options_eq_ok_iff_readFrom, readFrom_flatMap, foldlM_after_eq_ok_iff]
  have hjson : (Arguments.initial.json || groups.contains .json) = asked.json ↔
      (asked.json = true ↔ Group.json ∈ groups) := by
    rw [Bool.eq_iff_iff, Arguments.initial, Bool.false_or, List.contains_iff_mem]
    exact Iff.comm
  constructor
  · rintro ⟨root, settings, json, entry⟩
    exact ⟨root.symm, settings, hjson.mp json, entry⟩
  · rintro ⟨root, settings, json, entry⟩
    exact ⟨root.symm, settings, hjson.mpr json, entry⟩

/-- **A line is accepted when it is cut into groups that make one.** -/
theorem exists_options_iff :
    (∃ asked, options source words = .ok asked) ↔
      ∃ groups : List Group, groups.flatMap Group.words = words ∧ Accepted source groups := by
  constructor
  · rintro ⟨asked, h⟩
    obtain ⟨groups, rfl⟩ := exists_groups_of_readFrom (options_eq_ok_iff_readFrom.mp h)
    exact ⟨groups, rfl, accepted_iff_exists_spells.mpr ⟨asked, options_flatMap_eq_ok_iff.mp h⟩⟩
  · rintro ⟨groups, rfl, accepted⟩
    obtain ⟨asked, h⟩ := accepted_iff_exists_spells.mp accepted
    exact ⟨asked, options_flatMap_eq_ok_iff.mpr h⟩

/-! ### Changing places -/

private theorem filterMap_root?_filter :
    (groups.filter Group.isRoot).filterMap Group.root? = groups.filterMap Group.root? := by
  rw [List.filterMap_filter]
  refine congrArg (List.filterMap · groups) (funext fun group => ?_)
  cases group <;> rfl

private theorem filterMap_loaded?_filter :
    (groups.filter Group.isLoad).filterMap (Group.loaded? source) =
      groups.filterMap (Group.loaded? source) := by
  rw [List.filterMap_filter]
  refine congrArg (List.filterMap · groups) (funext fun group => ?_)
  cases group <;> rfl

/-- Groups in another order spell the same when those for the root and those for settings keep
their orders. -/
theorem Spells.of_perm (h : Spells source groups asked) (reordered : groups.Perm others)
    (roots : groups.filter Group.isRoot = others.filter Group.isRoot)
    (loads : groups.filter Group.isLoad = others.filter Group.isLoad) :
    Spells source others asked where
  root := by rw [h.root, ← filterMap_root?_filter, roots, filterMap_root?_filter]
  settings := by
    rw [← filterMap_loaded?_filter, ← loads, filterMap_loaded?_filter]
    exact h.settings
  json := by rw [h.json, reordered.mem_iff]
  entry := by
    rw [← List.perm_singleton, ← h.entry]
    exact (reordered.filterMap Group.entry?).symm

/--
**A command line is its groups.**  It is accepted exactly when it can be cut into groups whose
settings can all be loaded and of which one is the entry.  There is no other cut of the same words.
What is asked for is then the root that is given last, the settings of all groups merged in their
order, and JSON if a group wishes it.  So groups may change places, as long as those that give the
root keep their order and those that give settings keep theirs.
-/
theorem options_of_groups (source : AssetSource) :
    (∀ words, (∃ asked, options source words = .ok asked) ↔
      ∃ groups : List Group, groups.flatMap Group.words = words ∧ Accepted source groups) ∧
    (∀ groups others : List Group,
      groups.flatMap Group.words = others.flatMap Group.words → groups = others) ∧
    (∀ (groups : List Group) asked,
      options source (groups.flatMap Group.words) = .ok asked ↔ Spells source groups asked) ∧
    ∀ groups others : List Group, groups.Perm others →
      groups.filter Group.isRoot = others.filter Group.isRoot →
      groups.filter Group.isLoad = others.filter Group.isLoad →
      ∀ asked, options source (groups.flatMap Group.words) = .ok asked ↔
        options source (others.flatMap Group.words) = .ok asked := by
  refine ⟨fun words => exists_options_iff, fun groups others => flatMap_words_inj,
    fun groups asked => options_flatMap_eq_ok_iff, ?_⟩
  intro groups others reordered roots loads asked
  rw [options_flatMap_eq_ok_iff, options_flatMap_eq_ok_iff]
  constructor
  · intro h
    exact h.of_perm reordered roots loads
  · intro h
    exact h.of_perm reordered.symm roots.symm loads.symm

/-- A registry with a file of settings. -/
def shelf : AssetSource :=
  (Registry.ofList [("scene.json", "\x7b\"N\": 3, \"L\": false\x7d")]).toSource

/-- Groups with the entry among them, and a root directory that looks like an option. -/
def scattered : List Group :=
  [.settings "scene.json", .json, .entry ⟨"main.frag", by decide⟩, .root "--json", .set "N=4"]

/-- The same groups with the entry at the end. -/
def gathered : List Group :=
  [.root "--json", .settings "scene.json", .set "N=4", .json, .entry ⟨"main.frag", by decide⟩]

/-- Both orders ask for the same. -/
theorem options_scattered :
    scattered.Perm gathered ∧
      scattered.filter Group.isRoot = gathered.filter Group.isRoot ∧
      scattered.filter Group.isLoad = gathered.filter Group.isLoad ∧
      options shelf
          ["--settings", "scene.json", "--json", "main.frag", "--root", "--json", "--set", "N=4"] =
        .ok ⟨"--json", Settings.ofList [("N", .int 4), ("L", .flag false)], true, "main.frag"⟩ ∧
      options shelf
          ["--root", "--json", "--settings", "scene.json", "--set", "N=4", "--json", "main.frag"] =
        .ok ⟨"--json", Settings.ofList [("N", .int 4), ("L", .flag false)], true, "main.frag"⟩ := by
  have hreordered : scattered.Perm gathered := by decide
  have hscattered : options shelf (scattered.flatMap Group.words) =
      .ok ⟨"--json", Settings.ofList [("N", .int 4), ("L", .flag false)], true, "main.frag"⟩ := by
    decide +kernel
  obtain ⟨-, -, -, hchange⟩ := options_of_groups shelf
  have hgathered := (hchange scattered gathered hreordered rfl rfl _).mp hscattered
  exact ⟨hreordered, rfl, rfl, hscattered, hgathered⟩

end CommandLine

end ShaderLink
