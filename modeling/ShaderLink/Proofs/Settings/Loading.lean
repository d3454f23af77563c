/-
What loaded settings hold.

Settings are loaded from texts and merged, and what was set last counts.  So a name is set
to the entry that the last text with an entry for it has last, and where it comes from can
be told: a value of a JSON object, or the value of an assignment.

An assignment is read as a finite number or refused.  A number of a JSON object is not
looked at again when it is rounded to single precision.  So a name is set to a number that
is not finite exactly when it is set by a JSON number in double precision that reaches the
bound of single precision.
-/
import ShaderLink.Proofs.Number.Overflow
import ShaderLink.Proofs.Outcome
import ShaderLink.Proofs.Table
import ShaderLink.Settings.Assignments
import ShaderLink.Settings.Json

namespace ShaderLink

/-! ### What was set last counts -/

namespace Settings

theorem find?_ofList (entries : List (String × Setting)) (name : String) :
    (ofList entries).find? name = (entries.reverse.find? (·.1 == name)).map (·.2) := by
  rw [find?, ofList, Table.get?_foldl_insert]
  exact congrArg _ (Option.or_none)

theorem find?_merge (first second : Settings) (name : String) :
    find? (first.merge second) name = (second.find? name).or (first.find? name) := by
  rw [find?, Table.get?_merge, Option.map_or]
  rfl

/-! ### Where a setting comes from -/

/-- How settings are loaded. -/
inductive Loading where
  /-- Nothing is set yet. -/
  | start
  | json (text : String)
  | assignments (text : String)
  | merge (first second : Loading)

/-- What a name is set by. -/
inductive Given where
  | json (value : JsonValue)
  | assigned (value : Setting)

def Given.setting : Given → Setting
  | .json value => value.setting
  | .assigned value => value

namespace Loading

/-- The settings that are loaded. -/
def settings : Loading → Except BuildError Settings
  | start => .ok Table.empty
  | json text => ofJson text
  | assignments text => ofAssignments text
  | merge first second => do
    let before ← first.settings
    let after ← second.settings
    .ok (before.merge after)

/-- What sets a name last. -/
def given? : Loading → String → Option Given
  | start, _ => none
  | json text, name =>
    match readJson text with
    | .ok entries => (entries.reverse.find? (·.1 == name)).map fun entry => .json entry.2
    | .error _ => none
  | assignments text, name =>
    match ofAssignments text with
    | .ok settings => (settings.find? name).map .assigned
    | .error _ => none
  | merge first second, name => (second.given? name).or (first.given? name)

variable {loading : Loading} {settings : Settings} {name : String}

private theorem settings_json {text : String} (h : (json text).settings = .ok settings) :
    ∃ entries, readJson text = .ok entries ∧
      settings = ofList (entries.map fun (name, value) => (name, value.setting)) := by
  unfold Loading.settings ofJson at h
  split at h
  · rename_i entries hread
    exact ⟨entries, hread, (Except.ok.inj h).symm⟩
  · exact absurd h (by simp)

/-- **A name is set to what sets it last.** -/
theorem find?_settings (loaded : loading.settings = .ok settings) (name : String) :
    settings.find? name = (loading.given? name).map Given.setting := by
  induction loading generalizing settings with
  | start =>
      rw [← Except.ok.inj loaded]
      rfl
  | json text =>
      obtain ⟨entries, hread, rfl⟩ := settings_json loaded
      rw [find?_ofList, given?, hread, ← List.map_reverse, List.find?_map, Option.map_map,
        Option.map_map]
      rfl
  | assignments text =>
      have hassigned : ofAssignments text = .ok settings := loaded
      rw [given?, hassigned]
      simp [Given.setting, Function.comp_def]
  | merge first second ihFirst ihSecond =>
      obtain ⟨before, hbefore, hmerged⟩ := bind_eq_ok_iff.mp loaded
      obtain ⟨after, hafter, hresult⟩ := bind_eq_ok_iff.mp hmerged
      rw [← Except.ok.inj hresult, find?_merge, ihFirst hbefore, ihSecond hafter, given?,
        Option.map_or]

end Loading

/-! ### Numbers that are not finite -/

private theorem finite_of_readValue? {text : String} {x : Binary32}
    (h : readValue? text = some (.float x)) : x.isFinite = true := by
  unfold readValue? at h
  split at h
  · exact absurd h (by simp)
  · split at h
    · exact absurd h (by simp)
    · split at h
      · exact absurd h (by simp)
      · obtain ⟨y, hread, hvalue⟩ := Option.map_eq_some_iff.mp h
        rw [← Setting.float.inj hvalue]
        exact (Option.filter_eq_some_iff.mp hread).2

/-- What a word assigns is read from a part of it. -/
private theorem exists_readValue? {word : String} {entry : String × Setting}
    (h : ofAssignment? word = some entry) : ∃ text, readValue? text = some entry.2 := by
  unfold ofAssignment? at h
  dsimp only at h
  split at h
  · exact absurd h (by simp)
  · split at h
    · exact absurd h (by simp)
    · obtain ⟨value, hread, rfl⟩ := Option.map_eq_some_iff.mp h
      exact ⟨_, hread⟩

/-- Each entry of the settings that assignments give is assigned by a word. -/
private theorem exists_ofAssignment? {text name : String} {settings : Settings} {value : Setting}
    (loaded : ofAssignments text = .ok settings) (set : settings.find? name = some value) :
    ∃ word entry, ofAssignment? word = some entry ∧ entry.2 = value := by
  unfold ofAssignments at loaded
  split at loaded
  · exact absurd loaded (by simp)
  · obtain ⟨entries, hentries, hsettings⟩ := bind_eq_ok_iff.mp loaded
    rw [← Except.ok.inj hsettings, find?_ofList, Option.map_eq_some_iff] at set
    obtain ⟨entry, hfound, hvalue⟩ := set
    obtain ⟨word, -, hword⟩ := exists_of_mem_mapM hentries
      (List.mem_reverse.mp (List.mem_of_find?_eq_some hfound))
    split at hword
    · rename_i assigned hassigned
      rw [Except.ok.inj hword] at hassigned
      exact ⟨word, entry, hassigned, hvalue⟩
    · exact absurd hword (by simp)

/-- An assigned number is finite. -/
theorem finite_of_ofAssignments {text name : String} {settings : Settings} {x : Binary32}
    (loaded : ofAssignments text = .ok settings) (set : settings.find? name = some (.float x)) :
    x.isFinite = true := by
  obtain ⟨word, entry, hassigned, hvalue⟩ := exists_ofAssignment? loaded set
  obtain ⟨part, hread⟩ := exists_readValue? hassigned
  rw [hvalue] at hread
  exact finite_of_readValue? hread

end Settings

/-- A number that single precision rounds to an infinity. -/
def Json.Number.Overflows : Json.Number → Prop
  | .double _ word => BinaryFormat.overflowBound ≤ (BinaryFormat.double.value word).toRat
  | _ => False

theorem Json.Number.overflows_iff {number : Json.Number} :
    number.Overflows ↔ ∃ x, number.setting = .float x ∧ x.isFinite = false := by
  cases number with
  | int value => simp [Overflows, setting]
  | unsigned value =>
      have hfinite : (Binary32.ofRatio false ⟨value.toNat, 1⟩).isFinite = true :=
        Binary32.isFinite_ofNat false value.toNat_lt.le
      simp [Overflows, setting, hfinite]
  | double negative word =>
      have hfinite := Binary32.isFinite_ofRatio_iff negative
        (BinaryFormat.double.den_value_pos word)
      rw [Overflows, ← not_lt, ← hfinite]
      simp [setting]

namespace Settings

namespace Loading

variable {loading : Loading} {settings : Settings} {name : String}

/-- A name is set by a JSON number that single precision rounds to an infinity. -/
def Overflows (loading : Loading) (name : String) : Prop :=
  ∃ number, loading.given? name = some (.json (.number number)) ∧ number.Overflows

private theorem finite_of_assigned {x : Binary32}
    (h : loading.given? name = some (.assigned (.float x))) : x.isFinite = true := by
  induction loading with
  | start => exact absurd h (by simp [given?])
  | json text =>
      unfold given? at h
      split at h
      · obtain ⟨entry, -, hentry⟩ := Option.map_eq_some_iff.mp h
        exact absurd hentry (by simp)
      · exact absurd h (by simp)
  | assignments text =>
      unfold given? at h
      split at h
      · rename_i settings hloaded
        obtain ⟨value, hset, hvalue⟩ := Option.map_eq_some_iff.mp h
        rw [Given.assigned.inj hvalue] at hset
        exact finite_of_ofAssignments hloaded hset
      · exact absurd h (by simp)
  | merge first second ihFirst ihSecond =>
      rcases Option.or_eq_some_iff.mp h with hsecond | ⟨-, hfirst⟩
      · exact ihSecond hsecond
      · exact ihFirst hfirst

/-- **Loaded settings hold a number that is not finite exactly where a JSON number overflows.** -/
theorem overflows_iff (loaded : loading.settings = .ok settings) :
    loading.Overflows name ↔
      ∃ x, settings.find? name = some (.float x) ∧ x.isFinite = false := by
  rw [find?_settings loaded, Overflows]
  cases hgiven : loading.given? name with
  | none => simp
  | some given =>
      cases given with
      | json value =>
          cases value with
          | flag value => simp [Given.setting, JsonValue.setting]
          | number number => simpa [Given.setting, JsonValue.setting] using number.overflows_iff
      | assigned value =>
          refine iff_of_false (by simp) ?_
          rintro ⟨x, hvalue, hfinite⟩
          rw [show value = .float x from Option.some.inj hvalue] at hgiven
          rw [finite_of_assigned hgiven] at hfinite
          exact absurd hfinite (by simp)

end Loading

end Settings

end ShaderLink
