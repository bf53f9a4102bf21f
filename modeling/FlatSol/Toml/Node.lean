import FlatSol.Text.Basic

/-!
# TOML documents

The values of a TOML document, and the statements of which it is made: each statement changes the
table read so far, unless it would define something twice. How a table came to be decides what may
still be added to it.
-/

namespace FlatSol.Toml

inductive Origin
  /-- It is written in braces; nothing can be added to it. -/
  | braces
  /-- It has a header of its own, or is an element of an array of tables, or the document. -/
  | header
  /-- Only headers of tables inside it name it. -/
  | implied
  /-- Dotted keys of an assignment name it. -/
  | dotted
deriving DecidableEq, Repr

/-- A value of a TOML document. Floats and dates keep their text. -/
inductive Node
  | string (t : Text)
  | integer (n : Int)
  | float (t : Text)
  | boolean (b : Bool)
  | datetime (t : Text)
  | array (items : List Node)
  | table (origin : Origin) (entries : List (Text × Node))
  /-- An array of tables that headers add to. -/
  | tables (items : List (List (Text × Node)))

/-- The keys of a table with their values, in the order of their appearance. -/
abbrev Table := List (Text × Node)

namespace Table

def get? (t : Table) (key : Text) : Option Node :=
  (t.find? fun e => e.1 == key).map Prod.snd

/-- The table with the value of a key replaced, or added at the end. -/
def set (t : Table) (key : Text) (n : Node) : Table :=
  if t.any fun e => e.1 == key then t.map fun e => if e.1 == key then (key, n) else e
  else t ++ [(key, n)]

/-- Changes the table that a list of keys leads to. Tables missing on the way are made: by dotted keys
of an assignment (`byKeys`) or by a header. An assignment does not enter a table with a header; both
enter the last element of an array of tables. -/
def descend (byKeys : Bool) (change : Origin → Table → Option Table) :
    List Text → Origin → Table → Option Table
  | [], origin, t => change origin t
  | key :: keys, _, t =>
    match t.get? key with
    | none =>
      let origin := if byKeys then Origin.dotted else .implied
      (descend byKeys change keys origin []).map fun sub => t.set key (.table origin sub)
    | some (.table origin sub) =>
      if origin == .braces || (byKeys && origin == .header) then none
      else (descend byKeys change keys origin sub).map fun sub => t.set key (.table origin sub)
    | some (.tables items) =>
      match items.getLast? with
      | none => none
      | some sub =>
        (descend byKeys change keys .header sub).map fun sub =>
          t.set key (.tables (items.dropLast ++ [sub]))
    | some _ => none

/-- Adds the value of a key behind dotted keys. What the dotted keys lead to is a table that dotted
keys have made, or the table that the assignment stands in. -/
def assign (keys : List Text) (key : Text) (n : Node) (t : Table) : Option Table :=
  descend true
    (fun origin t =>
      if (origin == .dotted) == keys.isEmpty then none
      else
        match t.get? key with
        | some _ => none
        | none => some (t ++ [(key, n)]))
    keys .header t

def openTable (keys : List Text) (key : Text) (t : Table) : Option Table :=
  descend false
    (fun _ t =>
      match t.get? key with
      | none => some (t.set key (.table .header []))
      | some (.table .implied sub) => some (t.set key (.table .header sub))
      | some _ => none)
    keys .header t

/-- Opens a new element of an array of tables by its header. -/
def openElement (keys : List Text) (key : Text) (t : Table) : Option Table :=
  descend false
    (fun _ t =>
      match t.get? key with
      | none => some (t.set key (.tables [[]]))
      | some (.tables items) => some (t.set key (.tables (items ++ [[]])))
      | some _ => none)
    keys .header t

end Table

/-- A statement of a document; its keys stand before the last one. -/
inductive Statement
  | table (keys : List Text) (key : Text)
  | element (keys : List Text) (key : Text)
  | assign (keys : List Text) (key : Text) (value : Node)

/-- The document that statements make of the one read so far, with the keys of the last header. -/
def Table.build (t : Table) (header : List Text) : List Statement → Option Table
  | [] => some t
  | .table keys key :: rest =>
    (t.openTable keys key).bind fun t => build t (keys ++ [key]) rest
  | .element keys key :: rest =>
    (t.openElement keys key).bind fun t => build t (keys ++ [key]) rest
  | .assign keys key value :: rest =>
    (Table.descend false (fun _ sub => sub.assign keys key value) header .header t).bind fun t =>
      build t header rest

/-- The table that assignments inside braces make. -/
def Table.ofPairs (t : Table) : List (List Text × Text × Node) → Option Table
  | [] => some t
  | (keys, key, value) :: rest => (t.assign keys key value).bind fun t => ofPairs t rest

end FlatSol.Toml
