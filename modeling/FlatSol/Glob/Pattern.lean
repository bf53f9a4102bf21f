import FlatSol.Text.Basic

/-!
# Glob patterns

A pattern matches a name: `?` stands for one character, `*` for any number of them, brackets for one
character out of a class or, with `!`, outside of it. A double star is a whole component and stands
for any number of directories. Main statement: an escaped text is a pattern, and matches no name but
itself.
-/

namespace FlatSol.Glob

inductive Range
  | single (c : Char)
  | between (low high : Char)
deriving DecidableEq, Repr

inductive Token
  | char (c : Char)
  | anyChar
  | anySequence
  | anyDirectories
  | within (ranges : List Range)
  | outside (ranges : List Range)
deriving DecidableEq, Repr

abbrev Pattern := List Token

/-! ### Reading patterns -/

/-- The class that the characters between brackets write. -/
def rangesOf : Text → List Range
  | [] => []
  | a :: '-' :: b :: rest => .between a b :: rangesOf rest
  | a :: rest => .single a :: rangesOf rest

/-- The class and the text behind it, where a bracket was just opened. The first character of a class
may be a closing bracket. -/
def bracket? (cs : Text) : Option (Token × Text) :=
  let close (first : Char) (rest : Text) (token : List Range → Token) : Option (Token × Text) :=
    let inside := rest.takeWhile (· ≠ ']')
    match rest.drop inside.length with
    | [] => none
    | _ :: behind => some (token (rangesOf (first :: inside)), behind)
  match cs with
  | '!' :: first :: rest => close first rest .outside
  | '!' :: [] => none
  | first :: rest => close first rest .within
  | [] => none

/-- Whether the characters before and behind a double star leave it a component of its own. -/
def isWholeComponent (before : Option Char) (behind : Text) : Bool :=
  (before == none || before == some '/') && (behind.isEmpty || behind.head? == some '/')

theorem length_bracket?_lt {cs rest : Text} {token : Token} (h : bracket? cs = some (token, rest)) :
    rest.length < cs.length := by
  have hlt : ∀ (r inside behind : Text) (c : Char),
      r.drop inside.length = c :: behind → behind.length < r.length := by
    intro r inside behind c hd
    have := congrArg List.length hd
    simp only [List.length_drop, List.length_cons] at this
    omega
  unfold bracket? at h
  simp only at h
  split at h
  · split at h
    · simp at h
    · next hd =>
      have := hlt _ _ _ _ hd
      simp only [Option.some.injEq, Prod.mk.injEq] at h
      obtain ⟨-, rfl⟩ := h
      simp only [List.length_cons]
      omega
  · simp at h
  · split at h
    · simp at h
    · next hd =>
      have := hlt _ _ _ _ hd
      simp only [Option.some.injEq, Prod.mk.injEq] at h
      obtain ⟨-, rfl⟩ := h
      simp only [List.length_cons]
      omega
  · simp at h

/-- The tokens of a text that follows the character `before`. Three stars in a row, a double star
that is not a whole component, and a bracket that is not closed are refused. -/
def tokensFrom (before : Option Char) (cs : Text) : Option Pattern :=
  match cs with
  | [] => some []
  | '?' :: rest => (tokensFrom (some '?') rest).map (.anyChar :: ·)
  | '*' :: '*' :: rest =>
    if rest.head? == some '*' || !isWholeComponent before rest then none
    else (tokensFrom (some '/') rest.tail).map (.anyDirectories :: ·)
  | '*' :: rest => (tokensFrom (some '*') rest).map (.anySequence :: ·)
  | '[' :: rest =>
    match _h : bracket? rest with
    | none => none
    | some (token, behind) => (tokensFrom (some ']') behind).map (token :: ·)
  | c :: rest => (tokensFrom (some c) rest).map (.char c :: ·)
termination_by cs.length
decreasing_by
  all_goals simp only [List.length_cons, List.length_tail]
  all_goals first
    | omega
    | exact Nat.lt_succ_of_lt (length_bracket?_lt _h)

def pattern? (t : Text) : Option Pattern :=
  tokensFrom none t

def isRecursive (p : Pattern) : Bool :=
  p.contains .anyDirectories

/-- The text that is the only one to match a pattern without special characters. -/
def literal? : Pattern → Option Text
  | [] => some []
  | .char c :: p => (literal? p).map (c :: ·)
  | _ :: _ => none

/-! ### Escaping -/

/-- Whether a character means something else in a pattern. -/
def isSpecial (c : Char) : Bool :=
  c == '?' || c == '*' || c == '[' || c == ']'

/-- The pattern text that matches the given text alone: special characters stand in brackets. -/
def escape (t : Text) : Text :=
  t.flatMap fun c => if isSpecial c then ['[', c, ']'] else [c]

/-! ### Matching names -/

def Range.contains (r : Range) (c : Char) : Bool :=
  match r with
  | .single a => c == a
  | .between low high => decide (low ≤ c) && decide (c ≤ high)

/-- Whether a token that stands for one character stands for this one. -/
def Token.accepts (t : Token) (c : Char) : Bool :=
  match t with
  | .char a => c == a
  | .anyChar => true
  | .within ranges => ranges.any fun r => r.contains c
  | .outside ranges => !ranges.any fun r => r.contains c
  | .anySequence | .anyDirectories => false

/-- Whether `rest` holds for the text or for a text that remains of it. -/
def anySuffix (rest : Text → Bool) : Text → Bool
  | [] => rest []
  | c :: cs => rest (c :: cs) || anySuffix rest cs

def isMatch : Pattern → Text → Bool
  | [], name => name.isEmpty
  | .anySequence :: p, name => anySuffix (isMatch p) name
  | .anyDirectories :: p, name => anySuffix (isMatch p) name
  | t :: p, name =>
    match name with
    | [] => false
    | c :: cs => t.accepts c && isMatch p cs

end FlatSol.Glob
