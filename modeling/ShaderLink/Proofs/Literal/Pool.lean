/-
Constants with an index.

Sharing looks for a value among all constants and for a name among all names.  A pool
keeps the answers beside the constants: the place of the first constant of every
value, and the set of the names.  Code that is shared with a pool, piece after piece
and call after call, is what the constants alone make of it, and the index stays the
index of the constants; so no place in it is ever out of range.

A pool tries one candidate for a name after the other and knows no bound.  Every
candidate that it passes over is a name, and no two candidates are the same, so there
are no more steps than names.

What is known of the constants that are added follows from how constants grow.
-/
import Mathlib.Data.List.Induction
import ShaderLink.Proofs.Literal.Sharing

namespace ShaderLink

/-- What a value is looked up by: an integer, or the bits of a number. -/
inductive ValueKey where
  | int (value : Int64)
  | float (bits : UInt32)
  deriving DecidableEq, Hashable

namespace ValueKey

def kind : ValueKey → ConstKind
  | .int _ => .int
  | .float _ => .float

def value : ValueKey → ConstValue
  | .int i => .int i
  | .float bits => .float ⟨bits⟩

end ValueKey

/-- The key of a value; an expression has none. -/
def ConstValue.key? : ConstValue → Option ValueKey
  | .int i => some (.int i)
  | .float x => some (.float x.bits)
  | .expr _ => none

private theorem ConstValue.key?_eq_some_iff {value : ConstValue} {key : ValueKey} :
    value.key? = some key ↔ value = key.value := by
  constructor
  · intro h
    cases value with
    | int i => rw [← Option.some.inj h]; rfl
    | float x => rw [← Option.some.inj h]; rfl
    | expr text => exact absurd h (by simp [key?])
  · intro h
    rw [h]
    cases key with
    | int i => rfl
    | float bits => rfl

namespace Literal

variable {constants later : List Constant} {kind : ConstKind} {key : ValueKey}

/-- The key of a literal in range. -/
def key? (kind : ConstKind) (text : List Char) : Option ValueKey :=
  (value? kind text).bind ConstValue.key?

private theorem key?_of_value? {text : List Char} {value : ConstValue}
    (h : value? kind text = some value) :
    ∃ key, key? kind text = some key ∧ key.kind = kind ∧ key.value = value := by
  rw [key?, h]
  cases kind with
  | int =>
      obtain ⟨i, -, rfl⟩ := Option.map_eq_some_iff.mp h
      exact ⟨.int i, rfl, rfl, rfl⟩
  | float =>
      obtain ⟨x, -, rfl⟩ := Option.map_eq_some_iff.mp h
      exact ⟨.float x.bits, rfl, rfl, rfl⟩

/-! ### Searching for a name -/

private theorem le_size_of_taken {names : Std.HashSet String} {base : String} {k : Nat}
    (h : ∀ j < k, candidate base j ∈ names) : k ≤ names.size := by
  rw [← Std.HashSet.length_toList]
  exact le_length_of_taken fun j hj => Std.HashSet.mem_toList.mpr (h j hj)

private theorem taken_succ {names : Std.HashSet String} {base : String} {k : Nat}
    (tried : ∀ j < k, candidate base j ∈ names) (taken : candidate base k ∈ names) :
    ∀ j < k + 1, candidate base j ∈ names := by
  intro j hj
  rcases Nat.lt_succ_iff_lt_or_eq.mp hj with hlt | rfl
  · exact tried j hlt
  · exact taken

/-- The number of the first candidate that is no name, when those before the `k`-th are names. -/
def search (names : Std.HashSet String) (base : String) (k : Nat)
    (tried : ∀ j < k, candidate base j ∈ names) : Nat :=
  if taken : candidate base k ∈ names then search names base (k + 1) (taken_succ tried taken)
  else k
termination_by names.size - k
decreasing_by
  have hsize := le_size_of_taken (taken_succ tried taken)
  omega

/-- The number of the candidate that a search from the base on arrives at. -/
def firstFree (names : Std.HashSet String) (base : String) : Nat :=
  search names base 0 fun _ h => absurd h (Nat.not_lt_zero _)

theorem search_spec (names : Std.HashSet String) (base : String) (k : Nat)
    (tried : ∀ j < k, candidate base j ∈ names) :
    candidate base (search names base k tried) ∉ names ∧
      ∀ j < search names base k tried, candidate base j ∈ names := by
  fun_induction search names base k tried with
  | case1 k tried taken ih => exact ih
  | case2 k tried free => exact ⟨free, tried⟩

/-- **The search ends within as many steps as there are names, at the first free candidate.** -/
theorem firstFree_spec (names : Std.HashSet String) (base : String) :
    firstFree names base ≤ names.size ∧ candidate base (firstFree names base) ∉ names ∧
      ∀ j < firstFree names base, candidate base j ∈ names := by
  obtain ⟨hfree, hbefore⟩ := search_spec names base 0 fun _ h => absurd h (Nat.not_lt_zero _)
  exact ⟨le_size_of_taken hbefore, hfree, hbefore⟩

/-! ### Pools -/

/-- Constants with the place of the first constant of every value, and with the set of names. -/
structure Pool where
  constants : List Constant
  byValue : Std.HashMap ValueKey Nat
  names : Std.HashSet String

/-- A constant at its place in the index, unless one before it has the same value. -/
def enter (byValue : Std.HashMap ValueKey Nat) (entry : Constant × Nat) :
    Std.HashMap ValueKey Nat :=
  match entry.1.value.key? with
  | some key => byValue.insertIfNew key entry.2
  | none => byValue

namespace Pool

def ofConstants (constants : List Constant) : Pool where
  constants := constants
  byValue := constants.zipIdx.foldl enter ∅
  names := .ofList (constants.map (·.name))

/-- The pool with a constant of a new value behind the others. -/
def add (pool : Pool) (key : ValueKey) (c : Constant) : Pool where
  constants := pool.constants ++ [c]
  byValue := pool.byValue.insert key pool.constants.length
  names := pool.names.insert c.name

/-- The name of the first constant of a value, and the pool with one added if there is none.
Nothing comes of a place in the index that is out of range. -/
def reference (pool : Pool) (key : ValueKey) : Option (String × Pool) :=
  match pool.byValue[key]? with
  | some i => pool.constants[i]?.map fun holder => (holder.name, pool)
  | none =>
    let base := baseName key.kind key.value
    let name := candidate base (firstFree pool.names base)
    some (name, pool.add key ⟨name, key.kind, key.value, generatedOrigin, none⟩)

def sharePiece (kind : ConstKind) (pool : Pool) (piece : Piece) : Option (List Char × Pool) :=
  match piece with
  | .verbatim c => some ([c], pool)
  | .literal found text =>
    match if found = kind then key? kind text else none with
    | some key => do
      let (name, pool) ← pool.reference key
      return (name.toList, pool)
    | none => some (text, pool)

def sharePieces (kind : ConstKind) (pool : Pool) : List Piece → Option (List Char × Pool)
  | [] => some ([], pool)
  | piece :: rest => do
    let (text, pool) ← sharePiece kind pool piece
    let (more, pool) ← sharePieces kind pool rest
    return (text ++ more, pool)

/-- The code with its literals replaced, and the pool then. -/
def normalize (pool : Pool) (code : List Char) : Option (List Char × Pool) := do
  let (code, pool) ← sharePieces .int pool (pieces none 0 code)
  sharePieces .float pool (pieces none 0 code)

/-- One code after the other. -/
def normalizeAll (pool : Pool) : List (List Char) → Option (List (List Char) × Pool)
  | [] => some ([], pool)
  | code :: rest => do
    let (text, pool) ← pool.normalize code
    let (texts, pool) ← pool.normalizeAll rest
    return (text :: texts, pool)

/-! ### The index is that of the constants -/

/-- The places in the index are those of the first constants of values, and the names are those of
the constants. -/
structure Indexed (pool : Pool) : Prop where
  byValue : ∀ key, pool.byValue[key]? = pool.constants.findIdx? (·.value.key? == some key)
  names : ∀ name, name ∈ pool.names ↔ name ∈ pool.constants.map (·.name)

private theorem findIdx?_append_singleton (constants : List Constant) (c : Constant)
    (key : ValueKey) :
    (constants ++ [c]).findIdx? (·.value.key? == some key) =
      (constants.findIdx? (·.value.key? == some key)).or
        (if c.value.key? = some key then some constants.length else none) := by
  rw [List.findIdx?_append, List.findIdx?_singleton]
  by_cases h : c.value.key? = some key
  · simp [h]
  · simp [h]

private theorem getElem?_enter {byValue : Std.HashMap ValueKey Nat} (c : Constant) (key : ValueKey)
    (h : byValue[key]? = constants.findIdx? (·.value.key? == some key)) :
    (enter byValue (c, constants.length))[key]? =
      (constants ++ [c]).findIdx? (·.value.key? == some key) := by
  rw [findIdx?_append_singleton, ← h]
  unfold enter
  cases hc : c.value.key? with
  | none => simp
  | some own =>
      dsimp only
      rw [Std.HashMap.getElem?_insertIfNew]
      by_cases hkey : own = key
      · -- A place that the index has for the key already is the one that stays.
        rw [hkey]
        cases hplace : byValue[key]? with
        | some i => simp [Std.HashMap.mem_iff_isSome_getElem?, hplace]
        | none => simp [Std.HashMap.mem_iff_isSome_getElem?, hplace]
      · simp [hkey]

theorem indexed_ofConstants (constants : List Constant) : (ofConstants constants).Indexed := by
  refine ⟨?_, ?_⟩
  · intro key
    show (constants.zipIdx.foldl enter ∅)[key]? = constants.findIdx? _
    induction constants using List.reverseRecOn with
    | nil => simp
    | append_singleton front c ih =>
        rw [List.zipIdx_append, List.foldl_append, Nat.zero_add]
        exact getElem?_enter c key ih
  · intro name
    show name ∈ Std.HashSet.ofList (constants.map (·.name)) ↔ _
    rw [Std.HashSet.mem_ofList, List.contains_iff_mem]
    exact Iff.rfl

/-- A constant of a new value keeps the index that of the constants. -/
theorem Indexed.add {pool : Pool} (h : pool.Indexed) {c : Constant}
    (hc : c.value.key? = some key) (unheld : pool.byValue[key]? = none) :
    (pool.add key c).Indexed := by
  refine ⟨?_, ?_⟩
  · intro other
    show (pool.byValue.insert key pool.constants.length)[other]? = _
    rw [Std.HashMap.getElem?_insert]
    show _ = (pool.constants ++ [c]).findIdx? _
    rw [findIdx?_append_singleton, ← h.byValue other, hc]
    by_cases hother : key = other
    · rw [← hother, unheld]
      simp
    · simp [hother]
  · intro name
    show name ∈ pool.names.insert c.name ↔ name ∈ (pool.constants ++ [c]).map (·.name)
    rw [Std.HashSet.mem_insert, h.names, beq_iff_eq, List.map_append, List.mem_append,
      List.map_singleton, List.mem_singleton, or_comm, eq_comm]

end Pool

/-! ### What is shared with a pool is what the constants alone make of it -/

/-- Codes one after the other with their literals replaced, and the constants in the end. -/
def shareAll (constants : List Constant) : List (List Char) → List (List Char) × List Constant
  | [] => ([], constants)
  | code :: rest =>
    let (text, constants) := share constants code
    let (texts, constants) := shareAll constants rest
    (text :: texts, constants)

namespace Pool

/-- A run with a pool comes to the result and the constants that are expected, and the index of the
pool is that of these constants. -/
def Follows {α : Type} (run : Option (α × Pool)) (expected : α × List Constant) : Prop :=
  ∃ pool, run = some (expected.1, pool) ∧ pool.constants = expected.2 ∧ pool.Indexed

private theorem Follows.bind {α β : Type} {run : Option (α × Pool)} {expected : α × List Constant}
    {next : α × Pool → Option (β × Pool)} {expected' : β × List Constant}
    (h : Follows run expected)
    (hnext : ∀ pool, pool.constants = expected.2 → pool.Indexed →
      Follows (next (expected.1, pool)) expected') : Follows (run.bind next) expected' := by
  obtain ⟨pool, hrun, hconstants, hindexed⟩ := h
  rw [hrun]
  exact hnext pool hconstants hindexed

private theorem Follows.map {α β : Type} {run : Option (α × Pool)} {expected : α × List Constant}
    (h : Follows run expected) (f : α → β) :
    Follows (run.bind fun result => some (f result.1, result.2)) (f expected.1, expected.2) :=
  h.bind fun pool hconstants hindexed => ⟨pool, rfl, hconstants, hindexed⟩

variable {pool : Pool}

private theorem Indexed.name_eq (h : pool.Indexed) (base : String) :
    candidate base (firstFree pool.names base) =
      freshName (pool.constants.map (·.name)) base := by
  obtain ⟨-, hfree, hbefore⟩ := firstFree_spec pool.names base
  refine (freshName_eq ?_ ?_).symm
  · rw [← h.names]
    exact hfree
  · intro j hj
    rw [← h.names]
    exact hbefore j hj

theorem Indexed.find?_eq (h : pool.Indexed) (key : ValueKey) :
    pool.constants.find? (·.value == key.value) =
      pool.byValue[key]?.bind (pool.constants[·]?) := by
  rw [h.byValue, ← List.find?_eq_bind_findIdx?_getElem?]
  congr 1
  funext c
  rw [Bool.eq_iff_iff, beq_iff_eq, beq_iff_eq, ConstValue.key?_eq_some_iff]

/-- **A pool gives a value the name that the constants give it.** -/
theorem Indexed.reference (h : pool.Indexed) (key : ValueKey) :
    Follows (pool.reference key) (Literal.reference pool.constants key.kind key.value) := by
  unfold Pool.reference Literal.reference
  rw [h.find?_eq]
  cases hplace : pool.byValue[key]? with
  | some i =>
      rw [h.byValue] at hplace
      obtain ⟨hi, -⟩ := List.findIdx?_eq_some_iff_getElem.mp hplace
      dsimp only
      rw [Option.bind_some, List.getElem?_eq_getElem hi]
      exact ⟨pool, rfl, rfl, h⟩
  | none =>
      dsimp only
      rw [Option.bind_none, h.name_eq]
      exact ⟨_, rfl, rfl, h.add (ConstValue.key?_eq_some_iff.mpr rfl) hplace⟩

theorem Indexed.sharePiece (h : pool.Indexed) (kind : ConstKind) (piece : Piece) :
    Follows (pool.sharePiece kind piece) (Literal.sharePiece kind pool.constants piece) := by
  cases piece with
  | verbatim c => exact ⟨pool, rfl, rfl, h⟩
  | literal found text =>
      unfold Pool.sharePiece Literal.sharePiece
      by_cases hkind : found = kind
      · simp only [hkind, if_true]
        cases hvalue : value? kind text with
        | none =>
            rw [key?, hvalue]
            exact ⟨pool, rfl, rfl, h⟩
        | some value =>
            obtain ⟨key, hkey, rfl, rfl⟩ := key?_of_value? hvalue
            rw [hkey]
            exact (h.reference key).map String.toList
      · simp only [hkind, if_false]
        exact ⟨pool, rfl, rfl, h⟩

theorem Indexed.sharePieces (h : pool.Indexed) (kind : ConstKind) (ps : List Piece) :
    Follows (pool.sharePieces kind ps) (Literal.sharePieces kind pool.constants ps) := by
  induction ps generalizing pool with
  | nil => exact ⟨pool, rfl, rfl, h⟩
  | cons piece rest ih =>
      refine (h.sharePiece kind piece).bind fun between hbetween hindexed => ?_
      dsimp only [Literal.sharePieces]
      rw [← hbetween]
      exact (ih hindexed).map (_ ++ ·)

/-- **Code is shared with a pool as it is with the constants alone.** -/
theorem Indexed.normalize (h : pool.Indexed) (code : List Char) :
    Follows (pool.normalize code) (share pool.constants code) := by
  have hints : Follows (pool.sharePieces .int (pieces none 0 code))
      (shareKind .int pool.constants code) := h.sharePieces .int _
  refine hints.bind fun between hbetween hindexed => ?_
  dsimp only [share]
  rw [← hbetween]
  exact hindexed.sharePieces .float _

theorem Indexed.normalizeAll (h : pool.Indexed) (codes : List (List Char)) :
    Follows (pool.normalizeAll codes) (shareAll pool.constants codes) := by
  induction codes generalizing pool with
  | nil => exact ⟨pool, rfl, rfl, h⟩
  | cons code rest ih =>
      refine (h.normalize code).bind fun between hbetween hindexed => ?_
      dsimp only [shareAll]
      rw [← hbetween]
      exact (ih hindexed).map (_ :: ·)

end Pool

/-! ### The constants that are added -/

private theorem grows_shareAll (constants : List Constant) (codes : List (List Char)) :
    Grows constants (shareAll constants codes).2 := by
  induction codes generalizing constants with
  | nil => exact .refl
  | cons code rest ih => exact (grows_share constants code).trans (ih _)

/-- What a constant is that was added to those before it: it alone has its value, and its name is
the first candidate that none of those before it has. -/
structure Minted (before : List Constant) (c : Constant) (behind : List Constant) : Prop where
  alone : ∃ key, c.value.key? = some key ∧ ∀ other ∈ before ++ behind, other.value.key? ≠ some key
  kind : c.value.kind? = some c.kind
  origin : c.origin = generatedOrigin
  name : ∃ k, c.name = candidate (baseName c.kind c.value) k ∧
    candidate (baseName c.kind c.value) k ∉ before.map (·.name) ∧
    ∀ j < k, candidate (baseName c.kind c.value) j ∈ before.map (·.name)

private theorem minted_added {text : List Char} {value : ConstValue}
    (ranged : value? kind text = some value) (unheld : nameOf? constants value = none) :
    Minted constants (added constants kind value) [] := by
  obtain ⟨key, -, rfl, rfl⟩ := key?_of_value? ranged
  refine ⟨⟨key, ConstValue.key?_eq_some_iff.mpr rfl, ?_⟩, kind?_of_value? ranged, rfl, ?_⟩
  · intro other hother hkey
    rw [List.append_nil] at hother
    exact nameOf?_eq_none_iff.mp unheld other hother (ConstValue.key?_eq_some_iff.mp hkey)
  · exact exists_freshName _ _

/-- A constant of another value does not matter behind it. -/
private theorem Minted.append {before behind : List Constant} {c new : Constant}
    (h : Minted before c behind) (other : new.value ≠ c.value) :
    Minted before c (behind ++ [new]) := by
  obtain ⟨⟨key, hkey, halone⟩, hkind, horigin, hname⟩ := h
  refine ⟨⟨key, hkey, ?_⟩, hkind, horigin, hname⟩
  intro another hanother hsame
  rw [← List.append_assoc] at hanother
  rcases List.mem_append.mp hanother with hold | hnew
  · exact halone another hold hsame
  · rw [List.mem_singleton.mp hnew, ConstValue.key?_eq_some_iff] at hsame
    exact other (hsame.trans (ConstValue.key?_eq_some_iff.mp hkey).symm)

/-- **Every constant behind those of the start was added to those before it.** -/
theorem Grows.minted (h : Grows constants later) {before behind : List Constant} {c : Constant}
    (cut : later = before ++ c :: behind) (start : constants.length ≤ before.length) :
    Minted before c behind := by
  induction h generalizing behind with
  | refl =>
      have hlength := congrArg List.length cut
      rw [List.length_append, List.length_cons] at hlength
      omega
  | @added between kind text value grows ranged unheld ih =>
      -- The cut is at the constant added last, or the one that it is at was there already.
      rcases List.eq_nil_or_concat behind with rfl | ⟨behind, new, rfl⟩
      · obtain ⟨rfl, rfl⟩ := List.append_singleton_inj.mp cut
        exact minted_added ranged unheld
      · rw [List.concat_eq_append, ← List.cons_append, ← List.append_assoc] at cut
        obtain ⟨hbetween, rfl⟩ := List.append_singleton_inj.mp cut
        rw [List.concat_eq_append]
        refine (ih hbetween).append ?_
        intro hvalue
        have hc : c ∈ between := by rw [hbetween]; simp
        exact nameOf?_eq_none_iff.mp unheld c hc hvalue.symm

/-! ### Pools stay consistent -/

/-- What a pool is that was made of constants and shared with since. -/
structure Pool.Consistent (start : List Constant) (pool : Pool) : Prop where
  kept : start <+: pool.constants
  distinct : (pool.constants.map (·.name)).Nodup
  names : ∀ name, name ∈ pool.names ↔ ∃ c ∈ pool.constants, c.name = name
  byValue : ∀ key, pool.byValue[key]? = pool.constants.findIdx? (·.value.key? == some key)
  minted : ∀ before c behind, pool.constants = before ++ c :: behind →
    start.length ≤ before.length → Minted before c behind

/-- **Whatever is shared with a pool, its constants, its index and its names belong together, and
what is added is new.  The search for a name ends among all names whatever.** -/
theorem Pool.consistent_normalizeAll {constants : List Constant}
    (distinct : (constants.map (·.name)).Nodup) (codes : List (List Char)) :
    (∃ texts pool, (Pool.ofConstants constants).normalizeAll codes = some (texts, pool) ∧
      shareAll constants codes = (texts, pool.constants) ∧ pool.Consistent constants) ∧
    ∀ (names : Std.HashSet String) (base : String), firstFree names base ≤ names.size ∧
      candidate base (firstFree names base) ∉ names ∧
      ∀ j < firstFree names base, candidate base j ∈ names := by
  refine ⟨?_, firstFree_spec⟩
  obtain ⟨pool, hrun, hconstants, hindexed⟩ := (indexed_ofConstants constants).normalizeAll codes
  have hgrows : Grows constants pool.constants := by
    rw [hconstants]
    exact grows_shareAll constants codes
  refine ⟨_, pool, hrun, Prod.ext rfl hconstants.symm, ?_⟩
  refine ⟨hgrows.isPrefix, hgrows.distinct distinct, ?_, hindexed.byValue, ?_⟩
  · intro name
    rw [hindexed.names, List.mem_map]
  · intro before c behind cut start
    exact hgrows.minted cut start

/-- Constants with the names that an added 6 would be given, two of one value, and an expression
with the name of a number. -/
def mimicked : List Constant :=
  [⟨"I_6", .int, .int 7, "a.glsl", some 1⟩, ⟨"I_6_1", .int, .int 8, "a.glsl", some 2⟩,
    ⟨"EIGHT", .int, .int 8, "b.glsl", some 1⟩, ⟨"F_6_5", .float, .expr "sin(6.5)", "b.glsl", some 2⟩]

def mimicking : List (List Char) :=
  ["6 + 7".toList, "6.5 * 6".toList, "8 - 7.0".toList]

/-- The names that are taken get endings, and the first of two constants stands for their value. -/
theorem mimicked_consistent :
    (mimicked.map (·.name)).Nodup ∧
      ∃ texts pool, (Pool.ofConstants mimicked).normalizeAll mimicking = some (texts, pool) ∧
        texts.map String.ofList = ["I_6_2 + I_6", "F_6_5_1 * I_6_2", "I_6_1 - F_7_0"] ∧
        pool.constants.map (·.name) =
          ["I_6", "I_6_1", "EIGHT", "F_6_5", "I_6_2", "F_6_5_1", "F_7_0"] ∧
        pool.Consistent mimicked := by
  have hdistinct : (mimicked.map (·.name)).Nodup := by decide +kernel
  obtain ⟨⟨texts, pool, hrun, hshare, hconsistent⟩, -⟩ :=
    Pool.consistent_normalizeAll hdistinct mimicking
  have htexts : (shareAll mimicked mimicking).1.map String.ofList =
      ["I_6_2 + I_6", "F_6_5_1 * I_6_2", "I_6_1 - F_7_0"] := by decide +kernel
  have hnames : (shareAll mimicked mimicking).2.map (·.name) =
      ["I_6", "I_6_1", "EIGHT", "F_6_5", "I_6_2", "F_6_5_1", "F_7_0"] := by decide +kernel
  rw [hshare] at htexts hnames
  exact ⟨hdistinct, texts, pool, hrun, htexts, hnames, hconsistent⟩

end Literal

end ShaderLink
