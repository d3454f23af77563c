/-
Constants by name.

A constant table is a table keyed by the constants' names.  Declaring a name
again within one file replaces the constant where it stands; merging the tables
of several files refuses a name that is already taken.
-/
import ShaderLink.Error
import ShaderLink.Table

namespace ShaderLink

/-- Constants with distinct names, in the order in which the names were first declared. -/
abbrev ConstantTable := Table Constant.name

namespace ConstantTable

/-- The table with a constant of a new name; a name already taken is a duplicate. -/
def insertUnique (table : ConstantTable) (c : Constant) : Except BuildError ConstantTable :=
  match table.get? c.name with
  | some taken => .error (.duplicateConstant taken c)
  | none => .ok (table.insert c)

/-- The constants of several tables in order, each name at most once. -/
def mergeAll (tables : List ConstantTable) : Except BuildError ConstantTable :=
  (tables.flatMap (·.entries)).foldlM insertUnique Table.empty

end ConstantTable

end ShaderLink
