/-
Build settings.

A setting gives a name a boolean or a number.  Booleans decide conditions, and
numbers replace the values of constants; both live in one table, so a name holds
one or the other and what was set last counts.
-/
import ShaderLink.Constant.Basic
import ShaderLink.Table

namespace ShaderLink

/-- What a name is set to. -/
inductive Setting where
  | flag (value : Bool)
  | int (value : Int64)
  | float (value : Binary32)
  deriving DecidableEq

namespace Setting

def flag? : Setting → Option Bool
  | .flag value => some value
  | _ => none

/-- The value for a constant, when the setting is a number. -/
def number? : Setting → Option ConstValue
  | .flag _ => none
  | .int value => some (.int value)
  | .float value => some (.float value)

end Setting

/-- The settings of a build, in the order in which the names were first set. -/
abbrev Settings := Table (Prod.fst : String × Setting → String)

namespace Settings

def set (settings : Settings) (name : String) (value : Setting) : Settings :=
  settings.insert (name, value)

def find? (settings : Settings) (name : String) : Option Setting :=
  (settings.get? name).map (·.2)

/-- The names that are set to booleans, with their values. -/
def flags (settings : Settings) : List (String × Bool) :=
  settings.entries.filterMap fun (name, value) => value.flag?.map (name, ·)

/-- The names that are set to numbers, with their values. -/
def numbers (settings : Settings) : List (String × ConstValue) :=
  settings.entries.filterMap fun (name, value) => value.number?.map (name, ·)

/-- The number that a name is set to. -/
def number? (settings : Settings) (name : String) : Option ConstValue :=
  (settings.find? name).bind Setting.number?

/-- The settings made by setting names one after another. -/
def ofList (entries : List (String × Setting)) : Settings :=
  entries.foldl Table.insert Table.empty

end Settings

end ShaderLink
