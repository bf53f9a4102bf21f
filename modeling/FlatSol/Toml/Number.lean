import FlatSol.Toml.Node
import FlatSol.Toml.Quoted

/-!
# Numbers and dates

The TOML values that start with a digit or a sign: dates and times, floats, and integers of 64 bits.
A float too large for double precision is refused, unless it is negative.
-/

namespace FlatSol.Toml

/-! ### Dates and times -/

/-- Takes a number of exactly so many digits, between two bounds. -/
def fixedDigits (count low high : Nat) : Reader Nat := fun cs =>
  let digits := cs.take count
  if digits.length == count && digits.all Char.isDigit then
    let n := digits.foldl (fun n c => 10 * n + (c.toNat - 0x30)) 0
    if decide (low ≤ n) && decide (n ≤ high) then some (n, cs.drop count) else none
  else none

def daysIn (year month : Nat) : Nat :=
  if month == 2 then
    if year % 4 == 0 && (year % 100 != 0 || year % 400 == 0) then 29 else 28
  else if month == 4 || month == 6 || month == 9 || month == 11 then 30
  else 31

def date? (cs : Text) : Option Text := do
  let (year, cs) ← fixedDigits 4 0 9999 cs
  let (month, cs) ← fixedDigits 2 1 12 (← skip ['-'] cs)
  let (_, cs) ← fixedDigits 2 1 (daysIn year month) (← skip ['-'] cs)
  return cs

/-- The text behind a fraction of a second, or all of it. -/
def skipFraction : Text → Text
  | '.' :: c :: rest => if c.isDigit then rest.dropWhile Char.isDigit else '.' :: c :: rest
  | cs => cs

def time? (cs : Text) : Option Text := do
  let (_, cs) ← fixedDigits 2 0 23 cs
  let (_, cs) ← fixedDigits 2 0 59 (← skip [':'] cs)
  let (_, cs) ← fixedDigits 2 0 60 (← skip [':'] cs)
  return skipFraction cs

/-- The text behind the offset of a time, or all of it. -/
def offset? : Text → Option Text
  | [] => some []
  | c :: rest =>
    if c == 'Z' || c == 'z' then some rest
    else if c == '+' || c == '-' then do
      let (_, cs) ← fixedDigits 2 0 23 rest
      let (_, cs) ← fixedDigits 2 0 59 (← skip [':'] cs)
      return cs
    else some (c :: rest)

/-- Whether a text starts with so many digits and then the mark. -/
def startsWithDigits (count : Nat) (mark : Char) (cs : Text) : Bool :=
  (cs.take count).length == count && (cs.take count).all Char.isDigit &&
    (cs.drop count).head? == some mark

/-- The text behind the time that may follow a date. -/
def timeBehindDate? : Text → Option Text
  | [] => some []
  | c :: rest =>
    if (c == 'T' || c == 't' || c == ' ') && startsWithDigits 2 ':' rest then
      (time? rest).bind offset?
    else some (c :: rest)

/-- The text behind a date, a time, or both. -/
def dateTime? (cs : Text) : Option Text :=
  if startsWithDigits 4 '-' cs then (date? cs).bind timeBehindDate? else time? cs

/-! ### Digits -/

def digits (isDigit : Char → Bool) : Reader Text
  | [] => none
  | c :: rest =>
    if !isDigit c then none
    else
      let tail := many
        (fun
          | '_' :: d :: cs => if isDigit d then some (d, cs) else none
          | d :: cs => if isDigit d then some (d, cs) else none
          | [] => none) rest
      match tail.2 with
      | '_' :: _ => none
      | cs => some (c :: tail.1, cs)

/-- Takes the digits of a decimal integer: a zero alone, or digits that do not start with it. -/
def wholeDigits : Reader Text
  | '0' :: rest => some (['0'], rest)
  | cs => digits Char.isDigit cs

def numberOf (base : Nat) (ds : Text) : Nat :=
  ds.foldl (fun n c => base * n + (hexValue? c).getD 0) 0

/-- Takes a sign; a missing one is a plus. -/
def sign (cs : Text) : Bool × Text :=
  match cs with
  | '-' :: rest => (true, rest)
  | '+' :: rest => (false, rest)
  | _ => (false, cs)

/-! ### Integers -/

def fit (n : Int) : Option Node :=
  if -9223372036854775808 ≤ n ∧ n ≤ 9223372036854775807 then some (.integer n) else none

def isDigitOf (base : Nat) (c : Char) : Bool :=
  match hexValue? c with
  | some d => decide (d < base)
  | none => false

/-- Takes an integer behind the mark of its base. -/
def basedInteger (base : Nat) : Reader Node := fun cs => do
  let (ds, rest) ← digits (isDigitOf base) cs
  return (← fit (numberOf base ds), rest)

/-! ### Floats -/

/-- The least number that is not rounded to a finite double. -/
def doubleBound : Nat :=
  Nat.pow 2 1024 - Nat.pow 2 970

/-- Whether the number written by so many digits, with a power of ten behind it, is too large for a
double. Powers that decide it at once are not computed. -/
def overflows (ds : Text) (power : Int) : Bool :=
  let m := numberOf 10 ds
  if m == 0 then false
  else
    match power with
    | .ofNat e => decide (310 ≤ e) || decide (doubleBound ≤ m * Nat.pow 10 e)
    | .negSucc e => decide (e + 1 < ds.length) && decide (doubleBound * Nat.pow 10 (e + 1) ≤ m)

/-- Takes the exponent of a float; without one, the power is zero. -/
def exponent (cs : Text) : Option (Int × Text) :=
  match cs with
  | c :: rest =>
    if c == 'e' || c == 'E' then do
      let (negative, rest) := sign rest
      let (ds, rest) ← digits Char.isDigit rest
      let n : Int := numberOf 10 ds
      return (if negative then -n else n, rest)
    else some (0, cs)
  | [] => some (0, [])

/-- Takes what makes a float of its whole digits: a fraction, an exponent, or both. The text of the
float is all of `cs` up to the rest. -/
def floatBehind (cs : Text) (negative : Bool) (whole rest : Text) : Option (Node × Text) := do
  let (fraction, rest) ← match rest with
    | '.' :: rest => digits Char.isDigit rest
    | _ => some ([], rest)
  let (power, rest) ← exponent rest
  if !negative && overflows (whole ++ fraction) (power - fraction.length) then none
  return (.float (cs.take (cs.length - rest.length)), rest)

/-- Whether a fraction or an exponent starts here. -/
def startsFloatTail : Text → Bool
  | c :: _ => c == '.' || c == 'e' || c == 'E'
  | [] => false

/-- Takes one of the floats that have a name. -/
def namedFloat (cs : Text) : Option (Node × Text) :=
  let unsigned := (sign cs).2
  match skip ['i', 'n', 'f'] unsigned, skip ['n', 'a', 'n'] unsigned with
  | some rest, _ => some (.float (cs.take (cs.length - rest.length)), rest)
  | none, some rest => some (.float (cs.take (cs.length - rest.length)), rest)
  | none, none => none

/-- Takes a float or a decimal integer. -/
def decimal : Reader Node := fun cs => do
  let (negative, unsigned) := sign cs
  let (ds, rest) ← wholeDigits unsigned
  if startsFloatTail rest then floatBehind cs negative ds rest
  else
    let n : Int := numberOf 10 ds
    return (← fit (if negative then -n else n), rest)

def number : Reader Node := fun cs =>
  if startsWithDigits 4 '-' cs || startsWithDigits 2 ':' cs then
    (dateTime? cs).map fun rest => (.datetime (cs.take (cs.length - rest.length)), rest)
  else
    match cs with
    | '0' :: 'x' :: rest => basedInteger 16 rest
    | '0' :: 'o' :: rest => basedInteger 8 rest
    | '0' :: 'b' :: rest => basedInteger 2 rest
    | _ =>
      match namedFloat cs with
      | some r => some r
      | none => decimal cs

end FlatSol.Toml
