import FlatSol.Toml.Node
import FlatSol.Toml.Number

/-!
# Reading a TOML document

Values are read to a bounded depth of nesting, and a document line by line. Main statement: reading
ends, since values nest to a depth that shrinks and every line takes a part of the text.
-/

namespace FlatSol.Toml

/-- The number of arrays and braces that may stand inside one another, and one more than the number of
keys that dots may join. -/
def maxDepth : Nat := 79

/-! ### Keys -/

/-- Takes one key, bare or quoted, with the spaces around it. -/
def simpleKey : Reader Text := fun cs =>
  let cs := skipGap cs
  match cs with
  | '"' :: _ | '\'' :: _ => (shortString cs).map fun r => (r.1, skipGap r.2)
  | _ =>
    let key := cs.takeWhile isBareChar
    if key.isEmpty then none else some (key, skipGap (cs.drop key.length))

/-- Takes keys joined by dots: those before the last one, and the last one. -/
def dottedKey : Reader (List Text × Text) := fun cs => do
  let (first, rest) ← simpleKey cs
  let (more, rest) := many (fun cs => (skip ['.'] cs).bind simpleKey) rest
  let keys := first :: more
  if maxDepth < keys.length then none
  let last ← keys.getLast?
  return ((keys.dropLast, last), rest)

/-- Takes a key, the equals sign, and a value. -/
def assignment (value : Reader Node) : Reader (List Text × Text × Node) := fun cs => do
  let ((keys, key), rest) ← dottedKey cs
  let (n, rest) ← value (skipGap (← skip ['='] rest))
  return ((keys, key, n), rest)

/-! ### Values -/

def scalar : Reader Node := fun cs =>
  match cs with
  | '"' :: _ | '\'' :: _ => (string cs).map fun r => (.string r.1, r.2)
  | 't' :: _ => (skip ['t', 'r', 'u', 'e'] cs).map fun rest => (.boolean true, rest)
  | 'f' :: _ => (skip ['f', 'a', 'l', 's', 'e'] cs).map fun rest => (.boolean false, rest)
  | _ => number cs

/-- Takes what `item` takes, any number of times, with commas between. -/
def separated {α : Type} (item : Reader α) (cs : Text) : List α × Text :=
  match item cs with
  | none => ([], cs)
  | some (a, rest) =>
    let more := many (fun cs => (skip [','] cs).bind item) rest
    (a :: more.1, more.2)

/-- Takes the items of an array and its closing bracket; one comma may stand behind the last item. -/
def arrayBody (value : Reader Node) : Reader Node := fun cs => do
  let item : Reader Node := fun cs => (value (skipLines cs)).map fun r => (r.1, skipLines r.2)
  let (items, rest) := separated item cs
  let rest := if items.isEmpty then rest else skipMaybe [','] rest
  return (.array items, ← skip [']'] (skipLines rest))

/-- Takes the assignments of a table in braces and the closing brace. -/
def bracesBody (value : Reader Node) : Reader Node := fun cs => do
  let item : Reader (List Text × Text × Node) := fun cs =>
    (assignment value cs).map fun r => (r.1, skipGap r.2)
  let (pairs, rest) := separated item cs
  return (.table .braces (← Table.ofPairs [] pairs), ← skip ['\x7d'] (skipGap rest))

/-- Takes a value in which arrays and braces nest at most `depth` deep. -/
def value : (depth : Nat) → Reader Node
  | 0, cs => scalar cs
  | depth + 1, cs =>
    match cs with
    | '[' :: rest => arrayBody (value depth) rest
    | '\x7b' :: rest => bracesBody (value depth) rest
    | _ => scalar cs

/-! ### Lines -/

/-- Takes a statement up to the end of its line. -/
def statement : Reader Statement := fun cs =>
  match cs with
  | '[' :: '[' :: rest => do
    let ((keys, key), rest) ← dottedKey rest
    return (.element keys key, ← skip [']', ']'] rest)
  | '[' :: rest => do
    let ((keys, key), rest) ← dottedKey rest
    return (.table keys key, ← skip [']'] rest)
  | _ => do
    let ((keys, key, n), rest) ← assignment (value maxDepth) cs
    return (.assign keys key n, rest)

def line : Reader (List Statement) := fun cs =>
  match lineEnd cs with
  | some (_, rest) => some ([], rest)
  | none => do
    let (s, rest) ← statement (skipGap cs)
    let (_, rest) ← lineEnd rest
    return ([s], rest)

/-- The statements of a text, if all of it can be read. -/
def statements? (cs : Text) : Option (List Statement) :=
  let lines := many line cs
  if lines.2.isEmpty then some lines.1.flatten else none

/-- The document that a text holds. A byte order mark at its front does not count. -/
def parse? (cs : Text) : Option Table :=
  (statements? (skipMaybe ['\ufeff'] cs)).bind (Table.build [] [])

end FlatSol.Toml
