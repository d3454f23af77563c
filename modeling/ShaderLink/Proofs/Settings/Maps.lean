/-
Settings in two maps.

Conditions ask for booleans and constants for numbers, so settings may be kept in two hash
maps, one of each.  An assignment to one side then has to delete from the other, and to
merge such settings is to walk the two maps of the other, one after the other, in an order
that nobody fixes.

What is in the maps is nevertheless told by the assignments alone: a name is set to what it
was assigned last, on the side where that belongs.  For a walk passes every name once,
so long as no name is on both sides.  From this the laws of merging follow, and that the
two maps are another form of the one table that settings are otherwise.
-/
import ShaderLink.Proofs.Settings.Loading
import ShaderLink.Proofs.Table

namespace ShaderLink

/-- A number that a name can be set to. -/
inductive Setting.Number where
  | int (value : Int64)
  | float (value : Binary32)
  deriving DecidableEq

def Setting.Number.setting : Setting.Number → Setting
  | .int value => .int value
  | .float value => .float value

/-- The number that a setting is. -/
def Setting.numeral? : Setting → Option Setting.Number
  | .flag _ => none
  | .int value => some (.int value)
  | .float value => some (.float value)

namespace Settings

/-- Settings with booleans and numbers apart. -/
structure Maps where
  booleans : Std.HashMap String Bool
  numbers : Std.HashMap String Setting.Number

namespace Maps

def empty : Maps := ⟨∅, ∅⟩

/-- The maps with a name set on one side, and deleted on the other. -/
def set (maps : Maps) (name : String) : Setting → Maps
  | .flag value => ⟨maps.booleans.insert name value, maps.numbers.erase name⟩
  | .int value => ⟨maps.booleans.erase name, maps.numbers.insert name (.int value)⟩
  | .float value => ⟨maps.booleans.erase name, maps.numbers.insert name (.float value)⟩

def setAll (maps : Maps) (entries : List (String × Setting)) : Maps :=
  entries.foldl (fun maps entry => maps.set entry.1 entry.2) maps

/-- An order in which the entries of the maps may be walked: first the booleans and then the numbers,
each in any order. -/
def IsWalk (maps : Maps) (walk : List (String × Setting)) : Prop :=
  ∃ booleans numbers, List.Perm booleans maps.booleans.toList ∧
    List.Perm numbers maps.numbers.toList ∧
    walk = booleans.map (fun entry => (entry.1, .flag entry.2)) ++
      numbers.map (fun entry => (entry.1, entry.2.setting))

/-- Maps that merging others into maps can leave. -/
def Merged (maps other result : Maps) : Prop :=
  ∃ walk, other.IsWalk walk ∧ result = maps.setAll walk

/-- What a name is set to; a name that is on both sides is set to the boolean. -/
def find? (maps : Maps) (name : String) : Option Setting :=
  (maps.booleans[name]?.map .flag).or (maps.numbers[name]?.map Setting.Number.setting)

/-- No name is on both sides. -/
def Apart (maps : Maps) : Prop := ∀ name, ¬ (name ∈ maps.booleans ∧ name ∈ maps.numbers)

/-- Maps with the same entries. -/
structure Same (maps other : Maps) : Prop where
  booleans : maps.booleans.Equiv other.booleans
  numbers : maps.numbers.Equiv other.numbers

variable {maps other result : Maps}

/-! ### Assignments -/

theorem find?_set (maps : Maps) (name : String) (value : Setting) (other : String) :
    (maps.set name value).find? other = if name = other then some value else maps.find? other := by
  cases value
  all_goals
    by_cases hname : name = other
    · simp [set, find?, hname, Setting.Number.setting]
    · simp [set, find?, hname, Std.HashMap.getElem?_insert, Std.HashMap.getElem?_erase]

theorem Apart.set (h : maps.Apart) (name : String) (value : Setting) :
    (maps.set name value).Apart := by
  intro other hboth
  cases value
  all_goals
    simp only [Maps.set, Std.HashMap.mem_insert, Std.HashMap.mem_erase, beq_iff_eq,
      beq_eq_false_iff_ne] at hboth
    have hother := h other
    tauto

theorem find?_setAll (maps : Maps) (entries : List (String × Setting)) (name : String) :
    (maps.setAll entries).find? name =
      ((entries.reverse.find? (·.1 == name)).map (·.2)).or (maps.find? name) := by
  induction entries generalizing maps with
  | nil => rfl
  | cons entry rest ih =>
      rw [setAll, List.foldl_cons, ← setAll, ih, find?_set, List.reverse_cons, List.find?_append,
        Option.map_or, Option.or_assoc]
      by_cases hname : entry.1 = name
      · simp [hname]
      · simp [hname]

theorem Apart.setAll (h : maps.Apart) (entries : List (String × Setting)) :
    (maps.setAll entries).Apart := by
  induction entries generalizing maps with
  | nil => exact h
  | cons entry rest ih => exact ih (h.set entry.1 entry.2)

/-- Maps that are apart hold on each side what names are set to. -/
private theorem Apart.sides (h : maps.Apart) (name : String) :
    maps.booleans[name]? = (maps.find? name).bind Setting.flag? ∧
      maps.numbers[name]? = (maps.find? name).bind Setting.numeral? := by
  have hname := h name
  rw [Std.HashMap.mem_iff_isSome_getElem?, Std.HashMap.mem_iff_isSome_getElem?] at hname
  cases hboolean : maps.booleans[name]? with
  | some value =>
      cases hnumber : maps.numbers[name]? with
      | some number => exact absurd hname (by simp [hboolean, hnumber])
      | none => simp [find?, hboolean, hnumber, Setting.flag?, Setting.numeral?]
  | none =>
      cases hnumber : maps.numbers[name]? with
      | some number =>
          cases number
          all_goals simp [find?, hboolean, hnumber, Setting.Number.setting, Setting.flag?,
            Setting.numeral?]
      | none => simp [find?, hboolean, hnumber]

/-- Maps that are apart are the same when every name is set alike. -/
private theorem Apart.same (h : maps.Apart) (hother : other.Apart)
    (alike : ∀ name, maps.find? name = other.find? name) : maps.Same other := by
  refine ⟨.of_forall_getElem?_eq fun name => ?_, .of_forall_getElem?_eq fun name => ?_⟩
  · rw [(h.sides name).1, (hother.sides name).1, alike name]
  · rw [(h.sides name).2, (hother.sides name).2, alike name]

/-! ### Walks -/

/-- A walk passes each name that is set, with what it is set to. -/
theorem IsWalk.mem_iff {walk : List (String × Setting)} (h : maps.IsWalk walk) (apart : maps.Apart)
    (name : String) (value : Setting) : (name, value) ∈ walk ↔ maps.find? name = some value := by
  obtain ⟨booleans, numbers, hbooleans, hnumbers, rfl⟩ := h
  obtain ⟨hflag, hnumeral⟩ := apart.sides name
  have hboolean (b : Bool) :
      (name, b) ∈ booleans ↔ (maps.find? name).bind Setting.flag? = some b := by
    rw [hbooleans.mem_iff, Std.HashMap.mem_toList_iff_getElem?_eq_some, hflag]
  have hnumber (n : Setting.Number) :
      (name, n) ∈ numbers ↔ (maps.find? name).bind Setting.numeral? = some n := by
    rw [hnumbers.mem_iff, Std.HashMap.mem_toList_iff_getElem?_eq_some, hnumeral]
  have hwalk : (name, value) ∈ booleans.map (fun entry => (entry.1, Setting.flag entry.2)) ++
      numbers.map (fun entry => (entry.1, entry.2.setting)) ↔
        (∃ b, (name, b) ∈ booleans ∧ value = .flag b) ∨
          ∃ n, (name, n) ∈ numbers ∧ value = n.setting := by
    rw [List.mem_append, List.mem_map, List.mem_map, Prod.exists, Prod.exists]
    refine or_congr ⟨?_, ?_⟩ ⟨?_, ?_⟩
    · rintro ⟨other, b, hmem, heq⟩
      obtain ⟨rfl, rfl⟩ := Prod.mk.inj heq
      exact ⟨b, hmem, rfl⟩
    · rintro ⟨b, hmem, rfl⟩
      exact ⟨name, b, hmem, rfl⟩
    · rintro ⟨other, n, hmem, heq⟩
      obtain ⟨rfl, rfl⟩ := Prod.mk.inj heq
      exact ⟨n, hmem, rfl⟩
    · rintro ⟨n, hmem, rfl⟩
      exact ⟨name, n, hmem, rfl⟩
  simp only [hwalk, hboolean, hnumber]
  cases hfind : maps.find? name with
  | none => simp
  | some found =>
      cases found
      all_goals simp [Setting.flag?, Setting.numeral?, Setting.Number.setting, eq_comm]

/-- Where each entry of a name is the one expected, the last is. -/
private theorem find?_reverse_eq {entries : List (String × Setting)} {name : String}
    {expected : Option Setting} (h : ∀ value, (name, value) ∈ entries ↔ expected = some value) :
    (entries.reverse.find? (·.1 == name)).map (·.2) = expected := by
  cases hfind : entries.reverse.find? (·.1 == name) with
  | none =>
      cases expected with
      | none => rfl
      | some value =>
          have hmem := List.mem_reverse.mpr ((h value).mpr rfl)
          exact absurd (List.find?_eq_none.mp hfind _ hmem) (by simp)
  | some entry =>
      have hname : entry.1 = name := by simpa using List.find?_some hfind
      have hmem : (name, entry.2) ∈ entries := by
        rw [← hname]
        exact List.mem_reverse.mp (List.mem_of_find?_eq_some hfind)
      exact ((h entry.2).mp hmem).symm

private theorem exists_isWalk (maps : Maps) : ∃ walk, maps.IsWalk walk :=
  ⟨_, _, _, List.Perm.refl _, List.Perm.refl _, rfl⟩

private theorem exists_merged (maps other : Maps) : ∃ result, maps.Merged other result := by
  obtain ⟨walk, hwalk⟩ := other.exists_isWalk
  exact ⟨_, walk, hwalk, rfl⟩

theorem Merged.apart (h : maps.Merged other result) (apart : maps.Apart) : result.Apart := by
  obtain ⟨walk, -, rfl⟩ := h
  exact apart.setAll walk

/-- **Merged maps set a name to what the other maps set it to, and else as before.** -/
theorem Merged.find?_eq (h : maps.Merged other result) (apart : other.Apart) (name : String) :
    result.find? name = (other.find? name).or (maps.find? name) := by
  obtain ⟨walk, hwalk, rfl⟩ := h
  rw [find?_setAll, find?_reverse_eq (hwalk.mem_iff apart name)]

private theorem apart_empty : empty.Apart := fun name hboth => by simp [empty] at hboth

private theorem find?_empty (name : String) : empty.find? name = none := by simp [empty, find?]

/-- **Maps that are merged come out the same however they are bracketed and walked.** -/
theorem Merged.assoc {first second third front back left right : Maps} (hfirst : first.Apart)
    (hsecond : second.Apart) (hthird : third.Apart) (hfront : first.Merged second front)
    (hleft : front.Merged third left) (hback : second.Merged third back)
    (hright : first.Merged back right) : left.Same right := by
  have hbackApart := hback.apart hsecond
  refine (hleft.apart (hfront.apart hfirst)).same (hright.apart hfirst) fun name => ?_
  rw [hleft.find?_eq hthird, hfront.find?_eq hsecond, hright.find?_eq hbackApart,
    hback.find?_eq hthird, Option.or_assoc]

theorem Merged.same_of_empty (h : maps.Merged empty result) (apart : maps.Apart) :
    result.Same maps := by
  refine (h.apart apart).same apart fun name => ?_
  rw [h.find?_eq apart_empty, find?_empty, Option.none_or]

theorem Merged.same_of_into_empty (h : empty.Merged maps result) (apart : maps.Apart) :
    result.Same maps := by
  refine (h.apart apart_empty).same apart fun name => ?_
  rw [h.find?_eq apart, find?_empty, Option.or_none]

end Maps

/-! ### How settings are made -/

theorem ofList_append (front back : List (String × Setting)) :
    ofList (front ++ back) = (ofList front).merge (ofList back) := by
  rw [ofList, List.foldl_append]
  exact Table.foldl_insert_merge (ofList front) Table.empty back

/-- How settings are made from none. -/
inductive Making where
  | new
  | set (before : Making) (name : String) (value : Setting)
  | merge (first second : Making)

namespace Making

/-- The assignments in order; those of merged settings come last. -/
def assignments : Making → List (String × Setting)
  | new => []
  | set before name value => before.assignments ++ [(name, value)]
  | merge first second => first.assignments ++ second.assignments

/-- What a name is assigned last. -/
def last? (making : Making) (name : String) : Option Setting :=
  (making.assignments.reverse.find? (·.1 == name)).map (·.2)

/-- The settings that are made. -/
def settings : Making → Settings
  | new => Table.empty
  | set before name value => before.settings.set name value
  | merge first second => first.settings.merge second.settings

/-- Maps that can be made so: merging may walk maps in any order. -/
inductive Makes : Making → Maps → Prop where
  | new : Makes .new .empty
  | set {before : Making} {maps : Maps} (made : Makes before maps) (name : String)
      (value : Setting) : Makes (.set before name value) (maps.set name value)
  | merge {first second : Making} {maps other result : Maps} (made : Makes first maps)
      (madeOther : Makes second other) (merged : maps.Merged other result) :
      Makes (.merge first second) result

private theorem exists_makes (making : Making) : ∃ maps, making.Makes maps := by
  induction making with
  | new => exact ⟨_, .new⟩
  | set before name value ih =>
      obtain ⟨maps, hmaps⟩ := ih
      exact ⟨_, hmaps.set name value⟩
  | merge first second ihFirst ihSecond =>
      obtain ⟨maps, hmaps⟩ := ihFirst
      obtain ⟨other, hother⟩ := ihSecond
      obtain ⟨result, hresult⟩ := maps.exists_merged other
      exact ⟨result, hmaps.merge hother hresult⟩

private theorem last?_set (before : Making) (name : String) (value : Setting) (other : String) :
    (set before name value).last? other =
      if name = other then some value else before.last? other := by
  rw [last?, assignments, List.reverse_append, List.reverse_singleton, List.singleton_append,
    List.find?_cons]
  by_cases hname : name = other
  · simp [hname]
  · have hbeq : (name == other) = false := by simpa using hname
    simp [hname, hbeq, last?]

private theorem last?_merge (first second : Making) (name : String) :
    (merge first second).last? name = (second.last? name).or (first.last? name) := by
  rw [last?, assignments, List.reverse_append, List.find?_append, Option.map_or]
  rfl

/-- **Maps hold what was assigned last, in whatever order maps were walked.** -/
theorem Makes.last {making : Making} {maps : Maps} (h : making.Makes maps) :
    maps.Apart ∧ ∀ name, maps.find? name = making.last? name := by
  induction h with
  | new => exact ⟨Maps.apart_empty, Maps.find?_empty⟩
  | set made name value ih =>
      obtain ⟨hapart, hfind⟩ := ih
      refine ⟨hapart.set name value, fun other => ?_⟩
      rw [Maps.find?_set, hfind, last?_set]
  | merge made madeOther merged ih ihOther =>
      obtain ⟨hapart, hfind⟩ := ih
      obtain ⟨hother, hfindOther⟩ := ihOther
      refine ⟨merged.apart hapart, fun name => ?_⟩
      rw [merged.find?_eq hother, hfind, hfindOther, last?_merge]

/-- The settings that are made are those of the assignments. -/
theorem settings_eq_ofList (making : Making) : making.settings = ofList making.assignments := by
  induction making with
  | new => rfl
  | set before name value ih =>
      rw [settings, ih, assignments, ofList, ofList, List.foldl_append]
      rfl
  | merge first second ihFirst ihSecond =>
      rw [settings, ihFirst, ihSecond, assignments, ofList_append]

private theorem find?_settings_eq_last (making : Making) (name : String) :
    making.settings.find? name = making.last? name := by
  rw [settings_eq_ofList, find?_ofList]
  rfl

end Making

/-! ### The last assignment wins -/

/-- Maps in which every name is set to what it was assigned last, on one side only, as it is in the
settings that are one table. -/
structure Maps.Holds (maps : Maps) (making : Making) : Prop where
  apart : maps.Apart
  booleans : ∀ name, maps.booleans[name]? = (making.last? name).bind Setting.flag?
  numbers : ∀ name, maps.numbers[name]? = (making.last? name).bind Setting.numeral?
  settings : ∀ name, making.settings.find? name = making.last? name

theorem Making.Makes.holds {making : Making} {maps : Maps} (h : making.Makes maps) :
    maps.Holds making := by
  obtain ⟨hapart, hfind⟩ := h.last
  refine ⟨hapart, fun name => ?_, fun name => ?_, making.find?_settings_eq_last⟩
  · rw [(hapart.sides name).1, hfind]
  · rw [(hapart.sides name).2, hfind]

/-- What merging three maps comes to. -/
structure Maps.MergesLawfully (first second third : Maps) : Prop where
  merges : ∃ result, first.Merged second result
  find?_eq : ∀ result, first.Merged second result →
    ∀ name, result.find? name = (second.find? name).or (first.find? name)
  assoc : ∀ front back left right, first.Merged second front → front.Merged third left →
    second.Merged third back → first.Merged back right → left.Same right
  empty_right : ∀ result, first.Merged .empty result → result.Same first
  empty_left : ∀ result, Maps.empty.Merged first result → result.Same first

/--
**What a name was assigned last is what it is set to, and merging is associative.**  The maps may be
walked in any order whenever maps are merged.  The settings that are one table merge by the same laws,
and there even the order of the names is the same.
-/
theorem Making.lastAssigned_of_makes {first second third : Making} {a b c : Maps}
    (ha : first.Makes a) (hb : second.Makes b) (hc : third.Makes c) :
    a.Holds first ∧ a.MergesLawfully b c ∧
      (first.settings.merge second.settings).merge third.settings =
        first.settings.merge (second.settings.merge third.settings) ∧
      first.settings.merge Table.empty = first.settings ∧
      Table.empty.merge first.settings = first.settings := by
  have hfirst := ha.holds.apart
  have hsecond := hb.holds.apart
  have hthird := hc.holds.apart
  refine ⟨ha.holds, ?_, Table.merge_assoc .., Table.merge_empty _, Table.empty_merge _⟩
  refine ⟨a.exists_merged b, ?_, ?_, ?_, ?_⟩
  · intro result hresult
    exact hresult.find?_eq hsecond
  · intro front back left right hfront hleft hback hright
    exact hfront.assoc hfirst hsecond hthird hleft hback hright
  · intro result hresult
    exact hresult.same_of_empty hfirst
  · intro result hresult
    exact hresult.same_of_into_empty hfirst

/-- A name that is set to a boolean first and to a number then. -/
def switching : Making := ((Making.new.set "N" (.flag true)).set "N" (.int 3)).set "A" (.flag true)

/-- Settings that turn two names over. -/
def turning : Making := (Making.new.set "A" (.int 4)).set "N" (.flag false)

/-- The names change sides, in each of the maps and when they are merged. -/
theorem switching_lastAssigned :
    ∃ a b merged, switching.Makes a ∧ turning.Makes b ∧ (switching.merge turning).Makes merged ∧
      (a.find? "N" = some (.int 3) ∧ a.find? "A" = some (.flag true)) ∧
      (merged.find? "N" = some (.flag false) ∧ merged.find? "A" = some (.int 4)) ∧
      a.Holds switching ∧ merged.Holds (switching.merge turning) ∧ a.MergesLawfully b merged ∧
      (switching.settings.merge turning.settings).merge (switching.merge turning).settings =
        switching.settings.merge (turning.settings.merge (switching.merge turning).settings) := by
  obtain ⟨a, ha⟩ := switching.exists_makes
  obtain ⟨b, hb⟩ := turning.exists_makes
  obtain ⟨merged, hmerged⟩ := (switching.merge turning).exists_makes
  obtain ⟨hholds, hlawful, hassoc, -⟩ := Making.lastAssigned_of_makes ha hb hmerged
  obtain ⟨hholdsMerged, -⟩ := Making.lastAssigned_of_makes hmerged hb ha
  have hlast := ha.last.2
  have hlastMerged := hmerged.last.2
  refine ⟨a, b, merged, ha, hb, hmerged, ⟨?_, ?_⟩, ⟨?_, ?_⟩, hholds, hholdsMerged, hlawful, hassoc⟩
  · rw [hlast]
    decide
  · rw [hlast]
    decide
  · rw [hlastMerged]
    decide
  · rw [hlastMerged]
    decide

end Settings

end ShaderLink
