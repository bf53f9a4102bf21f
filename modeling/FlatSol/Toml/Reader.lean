import FlatSol.Text.Basic

/-!
# Readers

A reader takes something from the front of a text and answers it with the rest, or refuses. Here are
the readers for what stands between the values of a TOML document. Main statement: a repeated reader
ends, because it goes on only while the rest gets shorter.
-/

namespace FlatSol.Toml

/-- Takes a value from the front of a text and leaves the rest. -/
abbrev Reader (α : Type) := Text → Option (α × Text)

def many {α : Type} (r : Reader α) (cs : Text) : List α × Text :=
  match r cs with
  | none => ([], cs)
  | some (a, rest) =>
    if _h : rest.length < cs.length then
      let more := many r rest
      (a :: more.1, more.2)
    else ([a], rest)
termination_by cs.length

def skip (front cs : Text) : Option Text :=
  front.isPrefixOf? cs

/-- The text behind a fixed front, or all of it. -/
def skipMaybe (front cs : Text) : Text :=
  (skip front cs).getD cs

/-! ### Character classes -/

def isGap (c : Char) : Bool :=
  c == ' ' || c == '\t'

/-- What a comment may hold: tabs and all but control characters. -/
def isCommentChar (c : Char) : Bool :=
  c == '\t' || (decide (0x20 ≤ c.toNat) && c.toNat != 0x7f)

/-- What a key may hold without quotes. -/
def isBareChar (c : Char) : Bool :=
  c.isAlphanum || c == '-' || c == '_'

/-! ### Between values -/

def skipGap (cs : Text) : Text :=
  cs.dropWhile isGap

def newline? : Text → Option Text
  | '\n' :: rest => some rest
  | '\r' :: '\n' :: rest => some rest
  | _ => none

/-- The text behind a comment, if one starts here. -/
def skipComment : Text → Text
  | '#' :: rest => rest.dropWhile isCommentChar
  | cs => cs

/-- Takes the end of a line: spaces, a comment, and a line break or the end of the text. -/
def lineEnd : Reader Unit := fun cs =>
  match skipComment (skipGap cs) with
  | [] => some ((), [])
  | rest => (newline? rest).map fun rest => ((), rest)

/-- Takes the rest of a line with its line break. -/
def wholeLineEnd : Reader Unit := fun cs =>
  (newline? (skipComment (skipGap cs))).map fun rest => ((), rest)

def skipLines (cs : Text) : Text :=
  skipGap (many wholeLineEnd cs).2

end FlatSol.Toml
