/-
What the numbers that are set make of a unit.

The settings take part in a unit in two places.  Conditions see their booleans, and see
nothing of them but the boolean of each name; the numbers take the place of initializers,
where a declaration looks for the number of its own name.  No statement is cut another
way for it, and a declared name stands where it stood.

So two units of a text, under settings with the same booleans, have all in common but
their constants, and these go in pairs: one name and one kind each, and the same constant
unless the settings give the name different numbers.
-/
import Mathlib.Data.List.Forall2
import ShaderLink.Proofs.Source.Declarations
import ShaderLink.Proofs.Unit.Constants

namespace ShaderLink

/-! ### Conditions see the boolean of each name -/

namespace Settings

/-- The boolean that a name is set to. -/
def flag? (settings : Settings) (name : String) : Option Bool :=
  (settings.find? name).bind Setting.flag?

/-- What is picked of some settings is found under a name when it is picked of the name's. -/
private theorem lookup_filterMap {β : Type} (pick : Setting → Option β)
    {entries : List (String × Setting)} (name : String) (distinct : (entries.map Prod.fst).Nodup) :
    (entries.filterMap fun (name, value) => (pick value).map (name, ·)).lookup name =
      ((entries.find? (·.1 == name)).map (·.2)).bind pick := by
  induction entries with
  | nil => rfl
  | cons entry rest ih =>
      obtain ⟨first, value⟩ := entry
      obtain ⟨hfresh, hrest⟩ := List.nodup_cons.mp distinct
      have hih := ih hrest
      by_cases hname : first = name
      · have hfind : rest.find? (·.1 == name) = none := by
          refine List.find?_eq_none.mpr fun other hother => ?_
          rw [beq_iff_eq]
          intro hkey
          exact hfresh (List.mem_map.mpr ⟨other, hother, hkey.trans hname.symm⟩)
        rw [hfind] at hih
        cases hpick : pick value with
        | none => simpa [hname, hpick] using hih
        | some found => simp [hname, hpick]
      · have hother : (name == first) = false := by simpa using Ne.symm hname
        cases hpick : pick value with
        | none => simpa [hname, hpick] using hih
        | some found => simpa [hname, hpick, List.lookup_cons, hother] using hih

/-- Conditions look up a name's boolean. -/
private theorem lookup_flags (settings : Settings) (name : String) :
    settings.flags.lookup name = settings.flag? name :=
  lookup_filterMap Setting.flag? name settings.distinct

end Settings

private theorem ShaderUnit.tokensOfText_congr {a b : Settings}
    (booleans : ∀ name, b.flag? name = a.flag? name) (path text : String) :
    tokensOfText b path text = tokensOfText a path text := by
  have hlookup : ∀ name, b.flags.lookup name = a.flags.lookup name := by
    intro name
    rw [Settings.lookup_flags, Settings.lookup_flags, booleans]
  unfold tokensOfText
  simp only [Condition.evaluateConditions_congr fun name _ => hlookup name]

/-! ### Declarations look for the number of their name -/

section Pairs

variable {α : Type} {key : α → String} {Pair : α → α → Prop} {x y : α} {xs ys : List α}

/-- Where entries go in pairs of one key, pairs are put in the same place. -/
private theorem forall₂_insertInto (keyed : ∀ {x y}, Pair x y → key y = key x) (hpair : Pair x y)
    (hpairs : List.Forall₂ Pair xs ys) :
    List.Forall₂ Pair (insertInto key x xs) (insertInto key y ys) := by
  induction hpairs with
  | nil => exact .cons hpair .nil
  | @cons z w xs ys hfirst hrest ih =>
      rw [insertInto, insertInto, keyed hfirst, keyed hpair]
      split
      · exact .cons hpair hrest
      · exact .cons hfirst ih

end Pairs

/-- Constants of one name and kind, which are the same unless something differs for the name. -/
structure Constant.SameBut (differs : String → Prop) (c d : Constant) : Prop where
  name : d.name = c.name
  kind : d.kind = c.kind
  same : d = c ∨ differs c.name

/-- The names that are set to different numbers, or in one of the settings only. -/
def Settings.NumbersDiffer (a b : Settings) (name : String) : Prop :=
  b.number? name ≠ a.number? name

namespace Statement

variable {a b : Settings} {path : String}

theorem sameBut_of_declaredConstant {kind : ConstKind} {keyword name : Token} {initializer : String}
    {c d : Constant} (hc : declaredConstant a path kind keyword name initializer = .ok c)
    (hd : declaredConstant b path kind keyword name initializer = .ok d) :
    c.SameBut (a.NumbersDiffer b) d := by
  have hname := name_of_declaredConstant hc
  refine ⟨(name_of_declaredConstant hd).trans hname.symm,
    (value_of_declaredConstant hd).1.trans (value_of_declaredConstant hc).1.symm, ?_⟩
  rw [hname]
  by_cases hnumber : b.number? name.text = a.number? name.text
  · refine .inl ?_
    unfold declaredConstant at hc hd
    rw [hnumber, hc] at hd
    exact (Except.ok.inj hd).symm
  · exact .inr hnumber

/-- What a statement does to the constants under one of the settings, it does to their partners
under the other. -/
theorem sameBut_of_addConstant {s : Statement} {table next other nextOther : ConstantTable}
    (hpairs : List.Forall₂ (Constant.SameBut (a.NumbersDiffer b)) table.entries other.entries)
    (hnext : s.addConstant a path table = .ok next)
    (hother : s.addConstant b path other = .ok nextOther) :
    List.Forall₂ (Constant.SameBut (a.NumbersDiffer b)) next.entries nextOther.entries := by
  cases s with
  | constant kind keyword name sign first more stop =>
      obtain ⟨c, hc, hnext⟩ := bind_eq_ok_iff.mp hnext
      obtain ⟨d, hd, hother⟩ := bind_eq_ok_iff.mp hother
      rw [← Except.ok.inj hnext, ← Except.ok.inj hother, Table.entries_insert, Table.entries_insert]
      exact forall₂_insertInto Constant.SameBut.name (sameBut_of_declaredConstant hc hd) hpairs
  | _ =>
      rw [← Except.ok.inj hnext, ← Except.ok.inj hother]
      exact hpairs

theorem sameBut_of_foldlM {statements : List Statement}
    {table result other resultOther : ConstantTable}
    (hpairs : List.Forall₂ (Constant.SameBut (a.NumbersDiffer b)) table.entries other.entries)
    (hresult : statements.foldlM (addConstant a path) table = .ok result)
    (hother : statements.foldlM (addConstant b path) other = .ok resultOther) :
    List.Forall₂ (Constant.SameBut (a.NumbersDiffer b)) result.entries resultOther.entries := by
  induction statements generalizing table other with
  | nil =>
      rw [← Except.ok.inj hresult, ← Except.ok.inj hother]
      exact hpairs
  | cons s rest ih =>
      obtain ⟨next, hnext, hrest⟩ := foldlM_cons_eq_ok_iff.mp hresult
      obtain ⟨nextOther, hnextOther, hrestOther⟩ := foldlM_cons_eq_ok_iff.mp hother
      exact ih (sameBut_of_addConstant hpairs hnext hnextOther) hrest hrestOther

end Statement

namespace ShaderUnit

/-- Units that have all in common but constants of names for which something differs. -/
structure SameBut (differs : String → Prop) (x y : ShaderUnit) : Prop where
  path : y.path = x.path
  version : y.version = x.version
  stage : y.stage = x.stage
  precision : y.precision = x.precision
  includes : y.includes = x.includes
  body : y.body = x.body
  /-- The constants, in their order. -/
  constants : List.Forall₂ (Constant.SameBut differs) x.constants.entries y.constants.entries

variable {a b : Settings} {path text : String} {x y : ShaderUnit}

/-- **Under settings with the same booleans, units of a text differ at most in the constants whose
names the settings give different numbers.** -/
theorem sameBut_of_booleans (booleans : ∀ name, b.flag? name = a.flag? name)
    (hx : ofText a path text = .ok x ∨ ofMainText a path text = .ok x)
    (hy : ofText b path text = .ok y ∨ ofMainText b path text = .ok y) :
    x.SameBut (a.NumbersDiffer b) y := by
  have hx : ofText a path text = .ok x := hx.elim id fun hmain => (ofMainText_eq_ok_iff.mp hmain).1
  have hy : ofText b path text = .ok y := hy.elim id fun hmain => (ofMainText_eq_ok_iff.mp hmain).1
  obtain ⟨statements, constants, ⟨tokens, htokens, hcuts⟩, hconstants, rfl⟩ :=
    ofText_eq_ok_iff.mp hx
  obtain ⟨others, partners, ⟨tokens', htokens', hcuts'⟩, hpartners, rfl⟩ := ofText_eq_ok_iff.mp hy
  rw [tokensOfText_congr booleans, htokens] at htokens'
  rw [← Except.ok.inj htokens', hcuts] at hcuts'
  obtain ⟨rfl, -⟩ := Reading.mk.inj hcuts'
  exact ⟨rfl, rfl, rfl, rfl, rfl, rfl, Statement.sameBut_of_foldlM .nil hconstants hpartners⟩

/-- Three constants, two of them in a block. -/
def tunable : String :=
  "#if D\nconst int A = 1;\nconst float B = 2.5;\n#endif\nconst int C = 3;\n"

def dim : Settings := .ofList [("D", .flag true), ("A", .int 4), ("C", .int 7)]

def bright : Settings := .ofList [("A", .int 4), ("B", .int 9), ("C", .int 8), ("D", .flag true)]

/-- The constant that both set to one number is the same, those behind it are not. -/
theorem tunable_sameBut_of_booleans :
    ∃ x y, ofText dim "a" tunable = .ok x ∧ ofText bright "a" tunable = .ok y ∧
      x.SameBut (dim.NumbersDiffer bright) y ∧ x.constants.names = ["A", "B", "C"] ∧
      x.constants.get? "A" = y.constants.get? "A" ∧
      x.constants.get? "B" ≠ y.constants.get? "B" := by
  have hbooleans : ∀ name, bright.flag? name = dim.flag? name := by
    intro name
    rw [← Settings.lookup_flags, ← Settings.lookup_flags,
      show bright.flags = dim.flags by decide +kernel]
  have hfound : (ofText dim "a" tunable >>= fun x => (ofText bright "a" tunable).map fun y =>
      decide (x.constants.names = ["A", "B", "C"] ∧
        x.constants.get? "A" = y.constants.get? "A" ∧
        x.constants.get? "B" ≠ y.constants.get? "B")) = .ok true := by decide +kernel
  obtain ⟨x, hx, hread⟩ := bind_eq_ok_iff.mp hfound
  obtain ⟨y, hy, hvalues⟩ := exists_of_map_eq_ok hread
  exact ⟨x, y, hx, hy, sameBut_of_booleans hbooleans (.inl hx) (.inl hy), of_decide_eq_true hvalues⟩

end ShaderUnit

end ShaderLink
