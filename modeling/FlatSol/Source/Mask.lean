import FlatSol.Text.Basic

/-!
# Masking comments

A source text is read as code, line comments, block comments and quoted literals. The masked text
has one space for every byte of a comment other than a line feed, and is the source text elsewhere,
so that byte offsets and line numbers mean the same in both. Main statement: masking keeps the
number of bytes.
-/

namespace FlatSol

/-- What the next character of a source text belongs to. -/
inductive Region
  | code
  | lineComment
  | blockComment
  /-- A literal, which the character `quote` opened and will close. -/
  | literal (quote : Char)
deriving DecidableEq, Repr

/-- The two characters that open and close literals. -/
def isQuote (c : Char) : Bool :=
  c == '"' || c == '\''

theorem isQuote_iff {c : Char} : isQuote c = true ↔ c = '"' ∨ c = '\'' := by
  simp [isQuote]

namespace Source

/-- What a comment character leaves behind: a line feed stays, any other character becomes one space
for each of its bytes. -/
def blanked (c : Char) : Text :=
  if c = '\n' then ['\n'] else List.replicate c.utf8Size ' '

/-- The masked form of a text that starts inside the given region. A block comment ends at the
first closing mark after its opening mark; a literal ends at its own quote or at the end of the
line, unless a backslash stands before that character. -/
def maskFrom : Region → Text → Text
  | _, [] => []
  | .code, '/' :: '/' :: cs => ' ' :: ' ' :: maskFrom .lineComment cs
  | .code, '/' :: '*' :: cs => ' ' :: ' ' :: maskFrom .blockComment cs
  | .code, c :: cs => c :: maskFrom (if isQuote c then .literal c else .code) cs
  | .lineComment, c :: cs =>
    blanked c ++ maskFrom (if c = '\n' then .code else .lineComment) cs
  | .blockComment, '*' :: '/' :: cs => ' ' :: ' ' :: maskFrom .code cs
  | .blockComment, c :: cs => blanked c ++ maskFrom .blockComment cs
  | .literal q, '\\' :: c :: cs => '\\' :: c :: maskFrom (.literal q) cs
  | .literal q, c :: cs => c :: maskFrom (if c = q ∨ c = '\n' then .code else .literal q) cs

/-- The text with the bytes of its comments blanked out. -/
def mask (t : Text) : Text :=
  maskFrom .code t

theorem byteSize_replicate_space (n : Nat) : Text.byteSize (List.replicate n ' ') = n := by
  induction n with
  | zero => rfl
  | succ n ih =>
    rw [List.replicate_succ, Text.byteSize_cons, ih]
    have : Char.utf8Size ' ' = 1 := by decide
    omega

@[simp] theorem byteSize_blanked (c : Char) : Text.byteSize (blanked c) = c.utf8Size := by
  unfold blanked
  split
  · next h => subst h; rfl
  · exact byteSize_replicate_space _

theorem byteSize_maskFrom (r : Region) (t : Text) :
    Text.byteSize (maskFrom r t) = Text.byteSize t := by
  have space : Char.utf8Size ' ' = 1 := rfl
  have slash : Char.utf8Size '/' = 1 := rfl
  have star : Char.utf8Size '*' = 1 := rfl
  fun_induction maskFrom r t <;> simp_all

theorem byteSize_mask (t : Text) : Text.byteSize (mask t) = Text.byteSize t :=
  byteSize_maskFrom _ _

end Source

end FlatSol
