import FlatSol.Toml.Reader

/-!
# Quoted strings

The four kinds of TOML strings: between double quotes, with escapes, or between single quotes, as
they stand; on one line, or over several lines between three quotes.
-/

namespace FlatSol.Toml

/-- What a string may hold, its quote and the backslash apart. -/
def isStringChar (c : Char) : Bool :=
  isCommentChar c

def hexValue? (c : Char) : Option Nat :=
  if c.isDigit then some (c.toNat - 0x30)
  else if decide ('a' ≤ c) && decide (c ≤ 'f') then some (c.toNat - 0x57)
  else if decide ('A' ≤ c) && decide (c ≤ 'F') then some (c.toNat - 0x37)
  else none

def hexNumber? (digits : Text) : Option Nat :=
  digits.foldl (fun n c => n.bind fun n => (hexValue? c).map fun d => 16 * n + d) (some 0)

/-- The character that the digits of an escape give; surrogates are none. -/
def escapedChar? (digits : Text) : Option Char :=
  (hexNumber? digits).bind fun n => if n.isValidChar then some (Char.ofNat n) else none

def shortEscape? : Char → Option Char
  | 'b' => some '\x08'
  | 't' => some '\t'
  | 'n' => some '\n'
  | 'f' => some '\x0c'
  | 'r' => some '\r'
  | '"' => some '"'
  | '\\' => some '\\'
  | _ => none

/-- A character in front of the text that was read behind it. -/
def prepend (c : Char) (r : Text × Text) : Text × Text :=
  (c :: r.1, r.2)

/-- The characters of a string up to its closing double quote. -/
def basicBody : Reader Text
  | [] => none
  | '"' :: rest => some ([], rest)
  | '\\' :: 'u' :: a :: b :: c :: d :: rest => do
    return prepend (← escapedChar? [a, b, c, d]) (← basicBody rest)
  | '\\' :: 'U' :: a :: b :: c :: d :: e :: f :: g :: h :: rest => do
    return prepend (← escapedChar? [a, b, c, d, e, f, g, h]) (← basicBody rest)
  | '\\' :: c :: rest => do return prepend (← shortEscape? c) (← basicBody rest)
  | c :: rest => if c != '\\' && isStringChar c then (basicBody rest).map (prepend c) else none

/-- The characters of a string up to its closing single quote. -/
def literalBody : Reader Text
  | [] => none
  | '\'' :: rest => some ([], rest)
  | c :: rest => if isStringChar c then (literalBody rest).map (prepend c) else none

/-- The characters of a string up to three closing double quotes, before which one or two may stand.
Behind a backslash at the end of a line, white space is dropped (`folding`). -/
def longBasicBody : (folding : Bool) → Reader Text
  | _, [] => none
  | _, '"' :: '"' :: '"' :: '"' :: '"' :: rest => some (['"', '"'], rest)
  | _, '"' :: '"' :: '"' :: '"' :: rest => some (['"'], rest)
  | _, '"' :: '"' :: '"' :: rest => some ([], rest)
  | _, '\\' :: 'u' :: a :: b :: c :: d :: rest => do
    return prepend (← escapedChar? [a, b, c, d]) (← longBasicBody false rest)
  | _, '\\' :: 'U' :: a :: b :: c :: d :: e :: f :: g :: h :: rest => do
    return prepend (← escapedChar? [a, b, c, d, e, f, g, h]) (← longBasicBody false rest)
  | _, '\\' :: c :: rest =>
    if (newline? (skipGap (c :: rest))).isSome then longBasicBody true (c :: rest)
    else do return prepend (← shortEscape? c) (← longBasicBody false rest)
  | folding, '\r' :: '\n' :: rest =>
    if folding then longBasicBody true rest else (longBasicBody false rest).map (prepend '\n')
  | folding, c :: rest =>
    if folding && (isGap c || c == '\n') then longBasicBody true rest
    else if c == '\n' || (c != '\\' && isStringChar c) then
      (longBasicBody false rest).map (prepend c)
    else none

/-- The characters of a string up to three closing single quotes, before which one or two may
stand. -/
def longLiteralBody : Reader Text
  | [] => none
  | '\'' :: '\'' :: '\'' :: '\'' :: '\'' :: rest => some (['\'', '\''], rest)
  | '\'' :: '\'' :: '\'' :: '\'' :: rest => some (['\''], rest)
  | '\'' :: '\'' :: '\'' :: rest => some ([], rest)
  | '\r' :: '\n' :: rest => (longLiteralBody rest).map (prepend '\n')
  | c :: rest =>
    if c == '\n' || isStringChar c then (longLiteralBody rest).map (prepend c) else none

def shortString : Reader Text
  | '"' :: rest => basicBody rest
  | '\'' :: rest => literalBody rest
  | _ => none

/-- Takes a string of any kind. A line break right behind three opening quotes does not count. -/
def string : Reader Text := fun cs =>
  match skip ['"', '"', '"'] cs, skip ['\'', '\'', '\''] cs with
  | some rest, _ => longBasicBody false ((newline? rest).getD rest)
  | none, some rest => longLiteralBody ((newline? rest).getD rest)
  | none, none => shortString cs

end FlatSol.Toml
