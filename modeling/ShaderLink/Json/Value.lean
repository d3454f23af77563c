/-
Reading JSON values.

A value is read whole before its shape is looked at, so a flaw inside it comes
before the complaint that it does not belong where it stands.  The content of
lists and records is checked and dropped: only their being there matters.

Nested values are read by a machine whose state is the stack of brackets still
open and what may come next.  At most 127 brackets may be open at once, the one
of the enclosing document included.
-/
import ShaderLink.Json.Number

namespace ShaderLink

namespace Json

/-- A value without the content of lists and records. -/
inductive Value where
  | null
  | flag (value : Bool)
  | number (value : Number)
  | text (value : List Char)
  | nested
  deriving DecidableEq

/-- A value that opens no bracket. -/
def scalar : List Char → Except Flaw (Value × List Char)
  | [] => .error .truncated
  | c :: rest =>
    if c = '"' then do
      let (content, rest) ← string rest
      .ok (.text content, rest)
    else if c = '-' then do
      let (value, rest) ← number true rest
      .ok (.number value, rest)
    else if c.isDigit then do
      let (value, rest) ← number false (c :: rest)
      .ok (.number value, rest)
    else if c = 'n' then do .ok (.null, ← expectWord ['u', 'l', 'l'] rest)
    else if c = 't' then do .ok (.flag true, ← expectWord ['r', 'u', 'e'] rest)
    else if c = 'f' then do .ok (.flag false, ← expectWord ['a', 'l', 's', 'e'] rest)
    else .error .malformed

/-- The name of an entry, its opening quote already read, with the colon after it. -/
def entryName (text : List Char) : Except Flaw (List Char × List Char) := do
  let (name, rest) ← string text
  .ok (name, ← expectChar ':' (skipBlanks rest))

/-! ### Nested values -/

/-- A bracket that is open. -/
inductive Bracket where
  | list
  | record

/-- What may come next. -/
inductive Expectation where
  | item
  | itemOrEnd
  | name
  | nameOrEnd
  /-- A comma or the end of the innermost bracket. -/
  | next

/-- The brackets that may be open inside a document that is itself a record. -/
def nestingLimit : Nat := 126

/-- The rest of a text after the brackets of the stack are closed.  Each step reads a character at
least, so the length of the text bounds the steps. -/
def closeNested : Nat → List Bracket → Expectation → List Char → Except Flaw (List Char)
  | 0, _, _, _ => .error .truncated
  | _ + 1, [], _, text => .ok text
  | steps + 1, bracket :: outer, expectation, text =>
    let enter (opened : Bracket) (first : Expectation) (rest : List Char) :=
      if nestingLimit ≤ outer.length + 1 then .error .malformed
      else closeNested steps (opened :: bracket :: outer) first rest
    match expectation, bracket, skipBlanks text with
    | _, _, [] => .error .truncated
    | .itemOrEnd, _, ']' :: rest => closeNested steps outer .next rest
    | .nameOrEnd, _, '\x7d' :: rest => closeNested steps outer .next rest
    | .item, _, '[' :: rest | .itemOrEnd, _, '[' :: rest => enter .list .itemOrEnd rest
    | .item, _, '\x7b' :: rest | .itemOrEnd, _, '\x7b' :: rest => enter .record .nameOrEnd rest
    | .item, _, rest | .itemOrEnd, _, rest => do
      let (_, rest) ← scalar rest
      closeNested steps (bracket :: outer) .next rest
    | .name, _, '"' :: rest | .nameOrEnd, _, '"' :: rest => do
      let (_, rest) ← entryName rest
      closeNested steps (bracket :: outer) .item rest
    | .next, .list, ',' :: rest => closeNested steps (bracket :: outer) .item rest
    | .next, .list, ']' :: rest => closeNested steps outer .next rest
    | .next, .record, ',' :: rest => closeNested steps (bracket :: outer) .name rest
    | .next, .record, '\x7d' :: rest => closeNested steps outer .next rest
    | _, _, _ => .error .malformed

/-- The value that a text begins with, after blanks. -/
def value (text : List Char) : Except Flaw (Value × List Char) :=
  match skipBlanks text with
  | '[' :: rest => do .ok (.nested, ← closeNested (rest.length + 1) [.list] .itemOrEnd rest)
  | '\x7b' :: rest => do .ok (.nested, ← closeNested (rest.length + 1) [.record] .nameOrEnd rest)
  | rest => scalar rest

end Json

end ShaderLink
