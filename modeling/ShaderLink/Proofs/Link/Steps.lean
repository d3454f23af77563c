/-
The order of files, step by step.

`Order.visit` is a recursion under a bound, of which only the result can be seen.  Here
the same work is done one step at a time and without a bound: a state holds the files
that are being visited, the listing, and the paths that have been asked for, and a step
visits one include or lists one file.

What a step preserves holds at every moment of a build: the paths of the chain are
distinct, and every path asked for is listed, on the chain, or the one at which the
build has just failed, so none is asked for twice.  And the steps come to an end with
the result of `Order.visit`, because a walk is a sequence of steps, and so is a visit
that stops.
-/
import Mathlib.Data.Set.Card
import Mathlib.Logic.Function.Iterate
import ShaderLink.Proofs.Link.Cycles

namespace ShaderLink

variable {load : String → Except BuildError ShaderUnit} {entry : String}

/-- A file that is being visited, and those of its includes that are still to be visited. -/
structure Visit where
  file : ShaderUnit
  todo : List String

/-- Where the work stands between two steps. -/
structure Resolution where
  /-- The files being visited, the innermost first. -/
  visits : List Visit
  listed : Listing
  /-- The paths asked for so far. -/
  loads : List String
  failure : Option BuildError

namespace Resolution

/-- The files that lead to the innermost one and that file. -/
def files (state : Resolution) : List ShaderUnit := (state.visits.map (·.file)).reverse

def chain (state : Resolution) : List String := state.files.map (·.path)

def fail (state : Resolution) (error : BuildError) : Resolution :=
  { state with failure := some error }

def ask (state : Resolution) (path : String) : Resolution :=
  { state with loads := state.loads ++ [path] }

/-- The state after a file has been held to the ceiling of the chain: the next one, or a failure. -/
def hold (state : Resolution) (file : ShaderUnit) (next : Resolution) : Resolution :=
  match Ceiling.check (Ceiling.ofChain state.files) file with
  | .ok () => next
  | .error error => state.fail error

/-- The state after one step: the next include of the innermost file is visited, or that file is
listed when none is left.  A path that is not listed is asked for, whatever becomes of it. -/
def step (load : String → Except BuildError ShaderUnit) (state : Resolution) : Resolution :=
  match state.failure, state.visits with
  | none, ⟨file, []⟩ :: outer =>
    { state with visits := outer, listed := state.listed.add file }
  | none, ⟨file, path :: rest⟩ :: outer =>
    if state.chain.contains path then
      state.fail (.includeCycle (Order.cycleAt state.chain path))
    else
      match state.listed.find? path with
      | some known => state.hold known { state with visits := ⟨file, rest⟩ :: outer }
      | none =>
        let asked := state.ask path
        match load path with
        | .error error => asked.fail error
        | .ok next =>
          asked.hold next
            { asked with visits := ⟨next, next.includes⟩ :: ⟨file, rest⟩ :: outer }
  | _, _ => state

/-- The result of work that has come to its end. -/
def result? (state : Resolution) : Option (Except BuildError Listing) :=
  match state.failure, state.visits with
  | some error, _ => some (.error error)
  | none, [] => some (.ok state.listed)
  | none, _ :: _ => none

/-- Work that has come to its end stays there. -/
theorem step_of_result? {state : Resolution} {result : Except BuildError Listing}
    (h : state.result? = some result) : step load state = state := by
  unfold result? at h
  unfold step
  split at h
  · rename_i error hfailure
    rw [hfailure]
  · rename_i hfailure hvisits
    rw [hfailure, hvisits]
  · exact absurd h (by simp)

/-! ### What a step preserves -/

/-- The paths that some file includes. -/
def named (load : String → Except BuildError ShaderUnit) : Set String :=
  {other | ∃ path, Includes load path other}

/-- No path is twice on the chain, none is asked for twice, and none but the entry is asked for that
no file includes. -/
structure Frugal (load : String → Except BuildError ShaderUnit) (entry : String)
    (state : Resolution) : Prop where
  chainDistinct : state.chain.Nodup
  loadsDistinct : state.loads.Nodup
  asked : ∀ path ∈ state.loads, path = entry ∨ path ∈ named load

/-- What holds beside while nothing has failed: the paths asked for are those that are listed or on
the chain. -/
structure Tracked (load : String → Except BuildError ShaderUnit) (state : Resolution) : Prop where
  placed : state.listed.Placed
  accounted : state.loads.Perm (state.listed.paths ++ state.chain)
  loaded : ∀ visit ∈ state.visits,
    load visit.file.path = .ok visit.file ∧ visit.todo ⊆ visit.file.includes

/-- The invariant of the steps. -/
structure Sound (load : String → Except BuildError ShaderUnit) (entry : String)
    (state : Resolution) : Prop where
  frugal : state.Frugal load entry
  tracked : state.failure = none → state.Tracked load

private theorem Sound.fail {state : Resolution} (h : state.Frugal load entry) (error : BuildError) :
    (state.fail error).Sound load entry :=
  ⟨⟨h.chainDistinct, h.loadsDistinct, h.asked⟩, fun hnone => absurd hnone (by simp [Resolution.fail])⟩

private theorem Sound.hold {state next : Resolution} (h : state.Frugal load entry)
    (hnext : next.Sound load entry) (file : ShaderUnit) :
    (state.hold file next).Sound load entry := by
  unfold Resolution.hold
  split
  · exact hnext
  · exact .fail h _

section Step

variable {state : Resolution} {file next : ShaderUnit} {path : String} {rest : List String}
  {outer : List Visit}

private theorem chain_of_visits (hvisits : state.visits = ⟨file, rest⟩ :: outer) :
    state.chain = (outer.map (·.file.path)).reverse ++ [file.path] := by
  simp [chain, files, hvisits, Function.comp_def]

/-- Listing the innermost file moves its path from the chain to the listing. -/
private theorem Sound.list (h : state.Sound load entry) (running : state.failure = none)
    (hvisits : state.visits = ⟨file, []⟩ :: outer) :
    Sound load entry { state with visits := outer, listed := state.listed.add file } := by
  obtain ⟨⟨hchain, hloads, hasked⟩, htracked⟩ := h
  obtain ⟨hplaced, haccounted, hloaded⟩ := htracked running
  rw [chain_of_visits hvisits] at hchain haccounted
  have hall := haccounted.nodup_iff.mp hloads
  have hfresh : file.path ∉ state.listed.paths := by
    intro hmem
    exact (List.nodup_append.mp hall).2.2 _ hmem file.path (by simp) rfl
  refine ⟨⟨?_, hloads, hasked⟩, fun _ => ⟨hplaced.add hfresh, ?_, ?_⟩⟩
  · have hrest := (List.nodup_append.mp hchain).1
    simpa [chain, files, Function.comp_def] using hrest
  · have hmoved : (state.listed.paths ++ ((outer.map (·.file.path)).reverse ++ [file.path])).Perm
        (state.listed.paths ++ [file.path] ++ (outer.map (·.file.path)).reverse) := by
      rw [List.append_assoc]
      exact List.Perm.append_left _ List.perm_append_comm
    simpa [chain, files, Function.comp_def] using haccounted.trans hmoved
  · intro visit hvisit
    exact hloaded visit (by rw [hvisits]; exact List.mem_cons_of_mem _ hvisit)

/-- Passing an include changes nothing but what is still to be visited. -/
private theorem Sound.pass (h : state.Sound load entry) (running : state.failure = none)
    (hvisits : state.visits = ⟨file, path :: rest⟩ :: outer) :
    Sound load entry { state with visits := ⟨file, rest⟩ :: outer } := by
  have hsame : ({ state with visits := ⟨file, rest⟩ :: outer } : Resolution).chain = state.chain := by
    rw [chain_of_visits hvisits, chain_of_visits rfl]
  obtain ⟨hplaced, haccounted, hloaded⟩ := h.tracked running
  refine ⟨⟨?_, h.frugal.loadsDistinct, h.frugal.asked⟩, fun _ => ⟨hplaced, ?_, ?_⟩⟩
  · rw [hsame]
    exact h.frugal.chainDistinct
  · rw [hsame]
    exact haccounted
  · intro visit hvisit
    rcases List.mem_cons.mp hvisit with rfl | houter
    · obtain ⟨hload, htodo⟩ := hloaded ⟨file, path :: rest⟩ (by rw [hvisits]; simp)
      exact ⟨hload, fun _ hmem => htodo (List.mem_cons_of_mem _ hmem)⟩
    · exact hloaded visit (by rw [hvisits]; exact List.mem_cons_of_mem _ houter)

/-- A path that is neither listed nor on the chain may be asked for. -/
private theorem Sound.ask (h : state.Sound load entry) (running : state.failure = none)
    (hvisits : state.visits = ⟨file, path :: rest⟩ :: outer) (offChain : path ∉ state.chain)
    (unlisted : path ∉ state.listed.paths) : (state.ask path).Frugal load entry := by
  obtain ⟨-, haccounted, hloaded⟩ := h.tracked running
  refine ⟨h.frugal.chainDistinct, ?_, ?_⟩
  · refine List.nodup_append.mpr ⟨h.frugal.loadsDistinct, List.nodup_singleton path, ?_⟩
    rintro other hother _ hsame rfl
    rw [List.mem_singleton.mp hsame] at hother
    rcases List.mem_append.mp (haccounted.subset hother) with hlisted | hchain
    · exact unlisted hlisted
    · exact offChain hchain
  · intro other hother
    rcases List.mem_append.mp hother with hold | hnew
    · exact h.frugal.asked other hold
    · rw [List.mem_singleton.mp hnew]
      obtain ⟨hload, htodo⟩ := hloaded ⟨file, path :: rest⟩ (by rw [hvisits]; simp)
      exact .inr ⟨file.path, file, hload, htodo (List.mem_cons_self ..)⟩

/-- A file that was asked for and loaded goes to the end of the chain. -/
private theorem Sound.descend (names : Names load) (h : state.Sound load entry)
    (running : state.failure = none) (hvisits : state.visits = ⟨file, path :: rest⟩ :: outer)
    (offChain : path ∉ state.chain) (unlisted : path ∉ state.listed.paths)
    (loaded : load path = .ok next) :
    Sound load entry { state.ask path with
      visits := ⟨next, next.includes⟩ :: ⟨file, rest⟩ :: outer } := by
  obtain rfl : next.path = path := names path next loaded
  have hasked := h.ask running hvisits offChain unlisted
  have hpassed := (h.pass running hvisits).tracked running
  have hchain : ({ state.ask next.path with
      visits := ⟨next, next.includes⟩ :: ⟨file, rest⟩ :: outer } : Resolution).chain =
        state.chain ++ [next.path] := by
    rw [chain_of_visits hvisits, chain_of_visits rfl]
    simp
  obtain ⟨hplaced, haccounted, -⟩ := h.tracked running
  refine ⟨⟨?_, hasked.loadsDistinct, hasked.asked⟩, fun _ => ⟨hplaced, ?_, ?_⟩⟩
  · rw [hchain]
    refine List.nodup_append.mpr ⟨h.frugal.chainDistinct, List.nodup_singleton _, ?_⟩
    rintro other hother _ hsame rfl
    exact offChain (List.mem_singleton.mp hsame ▸ hother)
  · rw [hchain, ← List.append_assoc]
    exact haccounted.append_right [next.path]
  · intro visit hvisit
    rcases List.mem_cons.mp hvisit with rfl | hold
    · exact ⟨loaded, List.Subset.refl _⟩
    · exact hpassed.loaded visit hold

end Step

/-- **A step preserves the invariant.** -/
theorem Sound.step (names : Names load) {state : Resolution} (h : state.Sound load entry) :
    (state.step load).Sound load entry := by
  unfold Resolution.step
  split
  · rename_i file outer running hvisits
    exact h.list running hvisits
  · rename_i file path rest outer running hvisits
    split
    · exact .fail h.frugal _
    · rename_i hchain
      have offChain : path ∉ state.chain :=
        fun onChain => hchain (List.contains_iff_mem.mpr onChain)
      split
      · exact .hold h.frugal (h.pass running hvisits) _
      · rename_i hnone
        have unlisted := ((h.tracked running).placed.find?_eq_none_iff path).mp hnone
        have hasked := h.ask running hvisits offChain unlisted
        dsimp only
        split
        · exact .fail hasked _
        · rename_i next hload
          exact .hold hasked (h.descend names running hvisits offChain unlisted hload) _
  · exact h

/-- What is asked for frugally is no more than the entry and the paths that files include. -/
theorem Frugal.length_loads_le {state : Resolution} (h : state.Frugal load entry)
    (finite : (named load).Finite) : state.loads.length ≤ 1 + (named load).ncard := by
  classical
  have hsubset : (state.loads.toFinset : Set String) ⊆ insert entry (named load) := by
    intro path hpath
    exact h.asked path (by simpa using hpath)
  calc state.loads.length
      = (state.loads.toFinset : Set String).ncard := by
        rw [Set.ncard_coe_finset, List.toFinset_card_of_nodup h.loadsDistinct]
    _ ≤ (insert entry (named load)).ncard := Set.ncard_le_ncard hsubset (finite.insert entry)
    _ ≤ 1 + (named load).ncard := by
        rw [Nat.add_comm]
        exact Set.ncard_insert_le entry _

/-! ### Where the steps lead -/

/-- Some number of steps leads from one state to another. -/
def Reaches (load : String → Except BuildError ShaderUnit) (state after : Resolution) : Prop :=
  ∃ n, (step load)^[n] state = after

theorem Reaches.refl (state : Resolution) : Reaches load state state := ⟨0, rfl⟩

theorem Reaches.of_step {state after : Resolution} (onward : Reaches load (step load state) after) :
    Reaches load state after := by
  obtain ⟨n, hn⟩ := onward
  exact ⟨n + 1, by rw [Function.iterate_succ_apply, hn]⟩

theorem Reaches.trans {state middle after : Resolution} (first : Reaches load state middle)
    (second : Reaches load middle after) : Reaches load state after := by
  obtain ⟨n, hn⟩ := first
  obtain ⟨m, hm⟩ := second
  exact ⟨m + n, by rw [Function.iterate_add_apply, hn, hm]⟩

/-- The state of a visit that nothing has failed in: `above` are the files that lead to the file. -/
structure At (above : List ShaderUnit) (file : ShaderUnit) (todo : List String) (listed : Listing)
    (outer : List Visit) (state : Resolution) : Prop where
  visits : state.visits = ⟨file, todo⟩ :: outer
  above : (outer.map (·.file)).reverse = above
  listed : state.listed = listed
  running : state.failure = none

private theorem notMem_paths {files : List ShaderUnit} {path : String}
    (h : ∀ other ∈ files, other.path ≠ path) : path ∉ files.map (·.path) := by
  intro hmem
  obtain ⟨other, hother, hpath⟩ := List.mem_map.mp hmem
  exact h other hother hpath

section Visiting

variable {above : List ShaderUnit} {file next : ShaderUnit} {path : String}
  {rest more : List String} {before after : Listing} {outer : List Visit} {state : Resolution}

private theorem At.files (h : At above file rest before outer state) :
    state.files = above ++ [file] := by
  rw [Resolution.files, h.visits, List.map_cons, List.reverse_cons, h.above]

private theorem At.chain (h : At above file rest before outer state) :
    state.chain = (above ++ [file]).map (·.path) := by
  rw [Resolution.chain, h.files]

/-- What a step does with the next include. -/
private theorem At.step_eq (h : At above file (path :: rest) before outer state) :
    step load state =
      if ((above ++ [file]).map (·.path)).contains path then
        state.fail (.includeCycle (Order.cycleAt ((above ++ [file]).map (·.path)) path))
      else
        match before.find? path with
        | some known => state.hold known { state with visits := ⟨file, rest⟩ :: outer }
        | none =>
          match load path with
          | .error error => (state.ask path).fail error
          | .ok next =>
            (state.ask path).hold next
              { state.ask path with visits := ⟨next, next.includes⟩ :: ⟨file, rest⟩ :: outer } := by
  unfold step
  rw [h.running, h.visits]
  dsimp only
  rw [h.chain, h.listed]

private theorem At.hold_eq (h : At above file rest before outer state) (asked : List String)
    (after : Resolution) :
    { state with loads := asked }.hold next after =
      match Ceiling.check (Ceiling.ofChain (above ++ [file])) next with
      | .ok () => after
      | .error error => { state with loads := asked }.fail error := by
  have hfiles : ({ state with loads := asked } : Resolution).files = above ++ [file] := h.files
  rw [hold, hfiles]

/-- A listed include that keeps within the chain is passed. -/
private theorem At.known (h : At above file (path :: rest) before outer state)
    (offChain : path ∉ (above ++ [file]).map (·.path)) (found : before.find? path = some next)
    (checked : Ceiling.check (Ceiling.ofChain (above ++ [file])) next = .ok ()) :
    At above file rest before outer (step load state) := by
  have hstep : step load state = { state with visits := ⟨file, rest⟩ :: outer } := by
    rw [h.step_eq, if_neg (by simpa using offChain), found]
    exact (h.hold_eq state.loads _).trans (by rw [checked])
  rw [hstep]
  exact ⟨rfl, h.above, h.listed, h.running⟩

/-- An include that is not listed and keeps within the chain is descended into. -/
private theorem At.descend (h : At above file (path :: rest) before outer state)
    (offChain : path ∉ (above ++ [file]).map (·.path)) (unlisted : before.find? path = none)
    (loaded : load path = .ok next)
    (checked : Ceiling.check (Ceiling.ofChain (above ++ [file])) next = .ok ()) :
    At (above ++ [file]) next next.includes before (⟨file, rest⟩ :: outer) (step load state) := by
  have hstep : step load state =
      { state.ask path with visits := ⟨next, next.includes⟩ :: ⟨file, rest⟩ :: outer } := by
    rw [h.step_eq, if_neg (by simpa using offChain), unlisted, loaded]
    exact (h.hold_eq (state.loads ++ [path]) _).trans (by rw [checked])
  rw [hstep]
  refine ⟨rfl, ?_, h.listed, h.running⟩
  rw [List.map_cons, List.reverse_cons, h.above]

/-- A file whose includes have been visited is listed. -/
private theorem At.list (h : At (above ++ [file]) next [] before (⟨file, rest⟩ :: outer) state) :
    At above file rest (before.add next) outer (step load state) := by
  have hstep : step load state =
      { state with visits := ⟨file, rest⟩ :: outer, listed := state.listed.add next } := by
    unfold step
    rw [h.running, h.visits]
  have habove := h.above
  rw [List.map_cons, List.reverse_cons] at habove
  rw [hstep]
  exact ⟨rfl, List.append_inj_left' habove rfl, congrArg (·.add next) h.listed, h.running⟩

/-- A path of the chain ends the work with a cycle. -/
private theorem At.fail_cycle (h : At above file (path :: rest) before outer state)
    (onChain : path ∈ (above ++ [file]).map (·.path)) :
    (step load state).failure =
      some (.includeCycle (Order.cycleAt ((above ++ [file]).map (·.path)) path)) := by
  rw [h.step_eq, if_pos (List.contains_iff_mem.mpr onChain)]
  rfl

private theorem At.fail_load (h : At above file (path :: rest) before outer state)
    (offChain : path ∉ (above ++ [file]).map (·.path)) (unlisted : before.find? path = none)
    {error : BuildError} (failed : load path = .error error) :
    (step load state).failure = some error := by
  rw [h.step_eq, if_neg (by simpa using offChain), unlisted, failed]
  rfl

private theorem At.fail_check (h : At above file (path :: rest) before outer state)
    (offChain : path ∉ (above ++ [file]).map (·.path))
    (found : before.find? path = some next ∨ before.find? path = none ∧ load path = .ok next)
    {error : BuildError}
    (checked : Ceiling.check (Ceiling.ofChain (above ++ [file])) next = .error error) :
    (step load state).failure = some error := by
  rw [h.step_eq, if_neg (by simpa using offChain)]
  rcases found with hlisted | ⟨hunlisted, hload⟩
  · rw [hlisted]
    exact congrArg failure ((h.hold_eq state.loads _).trans (by rw [checked]))
  · rw [hunlisted, hload]
    exact congrArg failure ((h.hold_eq (state.loads ++ [path]) _).trans (by rw [checked]))

end Visiting

/-- **A walk is a sequence of steps.** -/
theorem reaches_of_walk {above : List ShaderUnit} {file : ShaderUnit} {todo : List String}
    {before after : Listing} (walk : Walk load above file todo before after) (more : List String)
    {outer : List Visit} {state : Resolution} (h : At above file (todo ++ more) before outer state) :
    ∃ last, Reaches load state last ∧ At above file more after outer last := by
  induction walk generalizing outer state more with
  | done above file listed => exact ⟨state, .refl state, h⟩
  | known offChain found within onward ih =>
      obtain ⟨last, hreaches, hlast⟩ := ih more (h.known (notMem_paths offChain) found
        ((Ceiling.check_ofChain_eq_ok_iff _ _).mpr within))
      exact ⟨last, .of_step hreaches, hlast⟩
  | descend offChain unlisted loaded within below onward ihBelow ihOnward =>
      have hinner := h.descend (notMem_paths offChain) unlisted loaded
        ((Ceiling.check_ofChain_eq_ok_iff _ _).mpr within)
      obtain ⟨walked, hwalked, hdone⟩ := ihBelow [] (by rwa [List.append_nil])
      obtain ⟨last, hreaches, hlast⟩ := ihOnward more hdone.list
      exact ⟨last, .of_step (hwalked.trans (.of_step hreaches)), hlast⟩

/-- **A visit that stops is a sequence of steps that ends with its failure.** -/
theorem reaches_of_stops {above : List ShaderUnit} {file : ShaderUnit} {todo : List String}
    {before : Listing} {error : BuildError} (stops : Stops load above file todo before error)
    {outer : List Visit} {state : Resolution} (h : At above file todo before outer state) :
    ∃ last, Reaches load state last ∧ last.failure = some error := by
  induction stops generalizing outer state with
  | cycle onChain => exact ⟨_, .of_step (.refl _), h.fail_cycle onChain⟩
  | unloaded offChain unlisted failed =>
      exact ⟨_, .of_step (.refl _), h.fail_load offChain unlisted failed⟩
  | exceeds offChain found checked =>
      exact ⟨_, .of_step (.refl _), h.fail_check offChain found checked⟩
  | inside offChain unlisted loaded checked stops ih =>
      obtain ⟨last, hreaches, hlast⟩ := ih (h.descend offChain unlisted loaded checked)
      exact ⟨last, .of_step hreaches, hlast⟩
  | onward walked stops ih =>
      obtain ⟨passed, hwalked, hpassed⟩ := reaches_of_walk walked _ h
      obtain ⟨last, hreaches, hlast⟩ := ih hpassed
      exact ⟨last, hwalked.trans hreaches, hlast⟩

/-- Work that has come to its end is found there from then on. -/
theorem Reaches.exists_result {state last : Resolution} {result : Except BuildError Listing}
    (h : Reaches load state last) (ended : last.result? = some result) :
    ∃ n, ∀ m, n ≤ m → ((step load)^[m] state).result? = some result := by
  obtain ⟨n, hn⟩ := h
  refine ⟨n, fun m hm => ?_⟩
  obtain ⟨more, rfl⟩ := Nat.exists_eq_add_of_le' hm
  rw [Function.iterate_add_apply, hn, Function.iterate_fixed (step_of_result? ended)]
  exact ended

theorem Sound.iterate (names : Names load) {state : Resolution} (h : state.Sound load entry)
    (n : Nat) : ((Resolution.step load)^[n] state).Sound load entry := by
  induction n with
  | zero => exact h
  | succ n ih =>
      rw [Function.iterate_succ_apply']
      exact ih.step names

/-- The state in which a main file has been loaded and none of its includes visited. -/
def start (main : ShaderUnit) : Resolution := ⟨[⟨main, main.includes⟩], .empty, [main.path], none⟩

private theorem at_start (main : ShaderUnit) : At [] main main.includes .empty [] (start main) :=
  ⟨rfl, rfl, rfl, rfl⟩

theorem sound_start {main : ShaderUnit} (loaded : load main.path = .ok main) :
    (start main).Sound load main.path := by
  have hchain : (start main).chain = [main.path] := rfl
  refine ⟨⟨?_, List.nodup_singleton _, ?_⟩, fun _ => ⟨.empty, .refl _, ?_⟩⟩
  · rw [hchain]
    exact List.nodup_singleton _
  · intro path hpath
    exact .inl (List.mem_singleton.mp hpath)
  · intro visit hvisit
    rw [List.mem_singleton.mp hvisit]
    exact ⟨loaded, List.Subset.refl _⟩

end Resolution

namespace Project

open Resolution

variable {project : Project} {settings : Settings}

/-- The steps from a main file on come to the end that putting its files in order has. -/
theorem reaches_order {main : ShaderUnit}
    (loaded : project.loadIncluded settings main.path = .ok main) :
    ∃ last, Reaches (project.loadIncluded settings) (start main) last ∧
      last.result? = some (project.order settings main) := by
  cases horder : project.order settings main with
  | ok listing =>
      obtain ⟨inner, walk, rfl⟩ := walk_of_order horder
      have hstart : At [] main (main.includes ++ []) .empty [] (start main) := by
        rw [List.append_nil]
        exact at_start main
      obtain ⟨walked, hwalked, hdone⟩ := reaches_of_walk walk [] hstart
      refine ⟨_, hwalked.trans (.of_step (.refl _)), ?_⟩
      unfold step
      rw [hdone.running, hdone.visits]
      show some (Except.ok (walked.listed.add main)) = _
      rw [hdone.listed]
  | error error =>
      obtain ⟨last, hreaches, hfailure⟩ :=
        reaches_of_stops (stops_of_order loaded horder) (at_start main)
      refine ⟨last, hreaches, ?_⟩
      unfold result?
      rw [hfailure]

/-- The state of a build once its main file has been asked for. -/
def opening (project : Project) (settings : Settings) (entry : String) : Resolution :=
  match project.loadMain settings entry with
  | .ok main => start main
  | .error error => ⟨[], .empty, [entry], some error⟩

/-- The state of a build a number of steps later. -/
def resolutionAfter (project : Project) (settings : Settings) (entry : String) (n : Nat) :
    Resolution :=
  (step (project.loadIncluded settings))^[n] (project.opening settings entry)

private theorem sound_opening (project : Project) (settings : Settings) (entry : String) :
    (project.opening settings entry).Sound (project.loadIncluded settings) entry := by
  unfold opening
  cases hmain : project.loadMain settings entry with
  | ok main =>
      have hsound := sound_start (loadIncluded_of_loadMain hmain)
      rwa [path_of_loadMain hmain] at hsound
  | error error =>
      refine ⟨⟨List.nodup_nil, List.nodup_singleton _, ?_⟩, fun hnone => absurd hnone (by simp)⟩
      intro path hpath
      exact .inl (List.mem_singleton.mp hpath)

/-- Only finitely many paths are included, because every one is named in a text of the source. -/
theorem finite_named (project : Project) (settings : Settings) :
    (named (project.loadIncluded settings)).Finite := by
  refine (List.finite_toSet (project.source.texts.flatMap ShaderUnit.pathsNamed)).subset ?_
  rintro other ⟨path, hincludes⟩
  exact mem_pathsNamed_of_includes hincludes

/-- **Whatever a build is given, its steps come to an end, with the result of putting the files in
order; at every moment no path is twice on the chain and none has been asked for twice; and at most
one path more has been asked for than files of the source include.** -/
theorem resolution_ends (project : Project) (settings : Settings) (entry : String) :
    (∃ n, ∀ m, n ≤ m → (project.resolutionAfter settings entry m).result? =
      some (project.loadMain settings entry >>= project.order settings)) ∧
      (named (project.loadIncluded settings)).Finite ∧
      ∀ n, (project.resolutionAfter settings entry n).chain.Nodup ∧
        (project.resolutionAfter settings entry n).loads.Nodup ∧
        (project.resolutionAfter settings entry n).loads.length ≤
          1 + (named (project.loadIncluded settings)).ncard := by
  have hfinite := finite_named project settings
  refine ⟨?_, hfinite, fun n => ?_⟩
  · unfold resolutionAfter opening
    cases hmain : project.loadMain settings entry with
    | ok main =>
        obtain ⟨last, hreaches, hended⟩ := reaches_order (loadIncluded_of_loadMain hmain)
        exact hreaches.exists_result hended
    | error error => exact (Reaches.refl _).exists_result rfl
  · have hsound := (sound_opening project settings entry).iterate
      (names_loadIncluded project settings) n
    exact ⟨hsound.frugal.chainDistinct, hsound.frugal.loadsDistinct,
      hsound.frugal.length_loads_le hfinite⟩

end Project

end ShaderLink
