/-
Blocks of conditional compilation.

A block goes from its opening line to the line that closes it, with whole blocks in
between; behind the opening line it stays open for as long as no line closes more
than was opened since (`openBehind`).  It is turned over at each line for that which
stands inside it and in none of its inner blocks (`turned`).

So a point of a file has blocks around it, each of them on or off there, and a name
has a value there: the override, or else what its first declaration says of those
where all blocks around are on.  The blocks depend on values before them and the
values on blocks before them, so both are said at once, by recursion on the lines
before the point.

Nothing here keeps a stack.  That all blocks around a point are on is a statement
about the innermost one and about the point where that is opened
(`allOn_inner`), and a value changes only at a line that gives the name its
first one (`hasValue_append`).
-/
import Mathlib.Logic.Function.Iterate
import ShaderLink.Proofs.Lists
import ShaderLink.Source.Condition

namespace ShaderLink

/-- The directive that a line is, if it is one. -/
def SourceLine.directive? (line : SourceLine) : Option Directive := Directive.read? line.text

namespace Condition

/-! ### Inside a block -/

/-- How many inner blocks are open behind a line that stands inside a block, when so many are before
it; nothing when the line closes the block itself. -/
def depthBehind (depth : Nat) (line : SourceLine) : Option Nat :=
  match line.directive? with
  | some (.test _ _) => some (depth + 1)
  | some .close => if depth = 0 then none else some (depth - 1)
  | _ => some depth

/-- How many inner blocks are open behind lines; nothing when they close the block itself. -/
def openBehind (depth : Nat) : List SourceLine → Option Nat
  | [] => some depth
  | line :: rest => (depthBehind depth line).bind fun next => openBehind next rest

/-- How often lines that stand inside a block turn it over, and not one of its inner blocks. -/
def turned (depth : Nat) : List SourceLine → Nat
  | [] => 0
  | line :: rest =>
    (if depth = 0 ∧ line.directive? = some .otherwise then 1 else 0) +
      match depthBehind depth line with
      | some next => turned next rest
      | none => 0

section Inside

variable {depth after : Nat} {inside more : List SourceLine}

/-- Further blocks that are open before a line stay open behind it. -/
private theorem depthBehind_add {line : SourceLine} (h : depthBehind depth line = some after)
    (more : Nat) : depthBehind (depth + more) line = some (after + more) := by
  unfold depthBehind at h ⊢
  split at h
  · rw [← Option.some.inj h, Nat.add_right_comm]
  · split at h
    · exact absurd h (by simp)
    · rw [← Option.some.inj h, if_neg (by omega), Nat.sub_add_comm (by omega)]
  · rw [← Option.some.inj h]

theorem openBehind_append (depth : Nat) (inside more : List SourceLine) :
    openBehind depth (inside ++ more) =
      (openBehind depth inside).bind fun after => openBehind after more := by
  induction inside generalizing depth with
  | nil => rfl
  | cons line rest ih => simp only [List.cons_append, openBehind, ih, Option.bind_assoc]

theorem openBehind_add (h : openBehind depth inside = some after) (more : Nat) :
    openBehind (depth + more) inside = some (after + more) := by
  induction inside generalizing depth with
  | nil =>
      rw [← Option.some.inj h]
      rfl
  | cons line rest ih =>
      obtain ⟨next, hnext, hrest⟩ := Option.bind_eq_some_iff.mp h
      rw [openBehind, depthBehind_add hnext, Option.bind_some]
      exact ih hrest

theorem turned_append (h : openBehind depth inside = some after) (more : List SourceLine) :
    turned depth (inside ++ more) = turned depth inside + turned after more := by
  induction inside generalizing depth with
  | nil =>
      rw [← Option.some.inj h]
      simp [turned]
  | cons line rest ih =>
      obtain ⟨next, hnext, hrest⟩ := Option.bind_eq_some_iff.mp h
      rw [List.cons_append, turned, turned, hnext]
      dsimp only
      rw [ih hrest, Nat.add_assoc]

/-- Inside an inner block that they leave open, lines do not turn the outer one over. -/
theorem turned_deeper (h : openBehind depth inside = some after) :
    turned (depth + 1) inside = 0 := by
  induction inside generalizing depth with
  | nil => rfl
  | cons line rest ih =>
      obtain ⟨next, hnext, hrest⟩ := Option.bind_eq_some_iff.mp h
      rw [turned, depthBehind_add hnext, if_neg (by omega)]
      dsimp only
      rw [ih hrest]

/-- Lines that close all that they open leave no block open that begins among them. -/
theorem openBehind_eq_none {front : List SourceLine} {opening : SourceLine} {name : String}
    {negated : Bool} (whole : openBehind 0 (front ++ opening :: inside) = some 0)
    (opens : opening.directive? = some (.test name negated)) : openBehind 0 inside = none := by
  rw [openBehind_append] at whole
  obtain ⟨between, -, hbehind⟩ := Option.bind_eq_some_iff.mp whole
  have hopening : depthBehind between opening = some (between + 1) := by rw [depthBehind, opens]
  rw [openBehind, hopening, Option.bind_some] at hbehind
  cases hinside : openBehind 0 inside with
  | none => rfl
  | some inner =>
      have hadd := openBehind_add hinside (between + 1)
      rw [Nat.zero_add, hbehind, Option.some.injEq] at hadd
      omega

end Inside

/-! ### Around a point -/

mutual

/-- All blocks around the point behind the lines are on: the value that the name of the opening line
had there, as it is or negated, and then turned over as often as the block was. -/
def AllOn (overrides : List (String × Bool)) (before : List SourceLine) : Prop :=
  ∀ (outer : List SourceLine) (opening : SourceLine) (inside : List SourceLine) (name : String)
    (negated : Bool) (_ : before = outer ++ opening :: inside),
    opening.directive? = some (.test name negated) → (openBehind 0 inside).isSome = true →
      ∃ value, HasValue overrides outer name value ∧
        (not^[turned 0 inside]) (value != negated) = true
termination_by before.length

/-- The value of a name at the point behind the lines: the override, or else that of the first
declaration of the name at which all blocks around were on. -/
def HasValue (overrides : List (String × Bool)) (before : List SourceLine) (name : String)
    (value : Bool) : Prop :=
  match overrides.lookup name with
  | some set => value = set
  | none =>
    ∃ (earlier : List SourceLine) (line : SourceLine) (later : List SourceLine)
      (_ : before = earlier ++ line :: later),
      line.directive? = some (.declare name value) ∧ AllOn overrides earlier ∧
        ∀ (front : List SourceLine) (other : SourceLine) (back : List SourceLine) (given : Bool)
          (_ : earlier = front ++ other :: back),
          other.directive? = some (.declare name given) → ¬ AllOn overrides front
termination_by before.length

end

section Around

variable {overrides : List (String × Bool)} {before outer inside : List SourceLine}
  {opening line : SourceLine} {name : String} {negated value : Bool}

/-! ### Blocks around a point -/

/-- Where no block is open, all are on. -/
theorem allOn_outermost
    (none : ∀ outer opening inside name negated, before = outer ++ opening :: inside →
      opening.directive? = some (.test name negated) → openBehind 0 inside = none) :
    AllOn overrides before := by
  rw [AllOn]
  intro outer opening inside name negated split opens stays
  rw [none outer opening inside name negated split opens] at stays
  exact absurd stays (by simp)

/-- A block that is open where another is opened stays open in it, and nothing in the other turns
it over. -/
private theorem stays_of_inner (opens : opening.directive? = some (.test name negated))
    (innermost : openBehind 0 inside = some 0) {front : List SourceLine}
    (stays : (openBehind 0 front).isSome = true) :
    (openBehind 0 (front ++ opening :: inside)).isSome = true ∧
      turned 0 (front ++ opening :: inside) = turned 0 front := by
  obtain ⟨depth, hdepth⟩ := Option.isSome_iff_exists.mp stays
  have hopening : depthBehind depth opening = some (depth + 1) := by rw [depthBehind, opens]
  refine ⟨?_, ?_⟩
  · have hinside := openBehind_add innermost (depth + 1)
    rw [Nat.zero_add] at hinside
    rw [openBehind_append, hdepth, Option.bind_some, openBehind, hopening, Option.bind_some,
      hinside]
    rfl
  · have hinside := turned_deeper (openBehind_add innermost depth)
    rw [Nat.zero_add] at hinside
    rw [turned_append hdepth, turned, hopening]
    simp [opens, hinside]

/-- **All blocks around are on when the innermost is, and all were where it is opened.** -/
theorem allOn_inner (opens : opening.directive? = some (.test name negated))
    (innermost : openBehind 0 inside = some 0) :
    AllOn overrides (outer ++ opening :: inside) ↔
      (∃ value, HasValue overrides outer name value ∧
        (not^[turned 0 inside]) (value != negated) = true) ∧ AllOn overrides outer := by
  constructor
  · intro hall
    rw [AllOn] at hall
    refine ⟨hall outer opening inside name negated rfl opens (by rw [innermost]; rfl), ?_⟩
    rw [AllOn]
    intro outer' opening' inside' name' negated' split' opens' stays'
    obtain ⟨hstays, hturned⟩ := stays_of_inner opens innermost stays'
    obtain ⟨value, hvalue, hon⟩ := hall outer' opening' (inside' ++ opening :: inside) name'
      negated' (by rw [split', List.append_assoc, List.cons_append]) opens' hstays
    rw [hturned] at hon
    exact ⟨value, hvalue, hon⟩
  · intro hboth
    obtain ⟨hinner, houter⟩ := hboth
    rw [AllOn] at houter ⊢
    intro outer' opening' inside' name' negated' split' opens' stays'
    rcases cuts_cases split' with ⟨rfl, rfl, rfl⟩ | ⟨between, -, rfl⟩ | ⟨between, rfl, rfl⟩
    · rw [opens, Option.some.injEq, Directive.test.injEq] at opens'
      obtain ⟨rfl, rfl⟩ := opens'
      exact hinner
    · rw [openBehind_eq_none innermost opens'] at stays'
      exact absurd stays' (by simp)
    · rw [openBehind_append] at stays'
      obtain ⟨after, hafter⟩ := Option.isSome_iff_exists.mp stays'
      obtain ⟨depth, hdepth, -⟩ := Option.bind_eq_some_iff.mp hafter
      have hbetween : (openBehind 0 between).isSome = true := by rw [hdepth]; rfl
      rw [(stays_of_inner opens innermost hbetween).2]
      exact houter outer' opening' between name' negated' rfl opens' hbetween

/-! ### Values of names -/

/-- Of the declarations of a name where all blocks are on there is a first one. -/
theorem exists_hasValue (unset : overrides.lookup name = none) {earlier later : List SourceLine}
    (split : before = earlier ++ line :: later)
    (declares : line.directive? = some (.declare name value)) (on : AllOn overrides earlier) :
    ∃ first, HasValue overrides before name first := by
  induction hn : earlier.length using Nat.strongRecOn generalizing earlier line later value with
  | ind n ih =>
      by_cases hfirst : ∃ front other back given, earlier = front ++ other :: back ∧
          other.directive? = some (.declare name given) ∧ AllOn overrides front
      · obtain ⟨front, other, back, given, rfl, hdeclares, hon⟩ := hfirst
        have hsplit : before = front ++ other :: (back ++ line :: later) := by
          rw [split, List.append_assoc, List.cons_append]
        refine ih front.length ?_ hsplit hdeclares hon rfl
        rw [← hn, List.length_append, List.length_cons]
        omega
      · refine ⟨value, ?_⟩
        rw [HasValue, unset]
        refine ⟨earlier, line, later, split, declares, on, ?_⟩
        intro front other back given hsplit hdeclares hon
        exact hfirst ⟨front, other, back, given, hsplit, hdeclares, hon⟩

/-- A name has one value at a point. -/
theorem HasValue.unique {other : Bool} (h : HasValue overrides before name value)
    (hother : HasValue overrides before name other) : value = other := by
  rw [HasValue] at h hother
  cases hset : overrides.lookup name with
  | some set =>
      rw [hset] at h hother
      exact h.trans hother.symm
  | none =>
      rw [hset] at h hother
      obtain ⟨earlier, first, later, split, hdeclares, hon, hfirst⟩ := h
      obtain ⟨earlier', first', later', split', hdeclares', hon', hfirst'⟩ := hother
      rcases cuts_cases (split.symm.trans split') with
        ⟨-, rfl, -⟩ | ⟨back, hsplit, -⟩ | ⟨back, hsplit, -⟩
      · rw [hdeclares, Option.some.injEq, Directive.declare.injEq] at hdeclares'
        exact hdeclares'.2
      · exact absurd hon (hfirst' earlier first back value hsplit hdeclares)
      · exact absurd hon' (hfirst earlier' first' back other hsplit hdeclares')

/-- **A line gives a name a value only as its first declaration, where all blocks are on.** -/
theorem hasValue_append :
    HasValue overrides (before ++ [line]) name value ↔
      HasValue overrides before name value ∨
        (∀ other, ¬ HasValue overrides before name other) ∧
          line.directive? = some (.declare name value) ∧ AllOn overrides before := by
  cases hset : overrides.lookup name with
  | some set =>
      have hvalue (lines : List SourceLine) (given : Bool) :
          HasValue overrides lines name given ↔ given = set := by rw [HasValue, hset]
      simp only [hvalue]
      constructor
      · exact Or.inl
      · intro h
        rcases h with heq | ⟨hnone, -⟩
        · exact heq
        · exact absurd rfl (hnone set)
  | none =>
      constructor
      · intro h
        rw [HasValue, hset] at h
        obtain ⟨earlier, first, later, split, hdeclares, hon, hfirst⟩ := h
        rcases cuts_cases split with ⟨rfl, rfl, -⟩ | ⟨between, -, hnil⟩ | ⟨between, rfl, -⟩
        · refine Or.inr ⟨?_, hdeclares, hon⟩
          intro other hother
          rw [HasValue, hset] at hother
          obtain ⟨front, declaring, back, hsplit, hother, hfront, -⟩ := hother
          exact hfirst front declaring back other hsplit hother hfront
        · exact absurd hnil (by simp)
        · refine Or.inl ?_
          rw [HasValue, hset]
          exact ⟨earlier, first, between, rfl, hdeclares, hon, hfirst⟩
      · intro h
        rw [HasValue, hset]
        rcases h with hbefore | ⟨hnone, hdeclares, hon⟩
        · rw [HasValue, hset] at hbefore
          obtain ⟨earlier, first, later, rfl, hdeclares, hon, hfirst⟩ := hbefore
          exact ⟨earlier, first, later ++ [line], by simp, hdeclares, hon, hfirst⟩
        · refine ⟨before, line, [], rfl, hdeclares, hon, ?_⟩
          intro front other back given hsplit hdeclares' hfront
          obtain ⟨first, hvalue⟩ := exists_hasValue hset hsplit hdeclares' hfront
          exact hnone first hvalue

end Around

end Condition

end ShaderLink
