import FlatSol.Text.Blank

/-!
# Lines

The rest of a line behind a statement, and the trimmed form of a text as a block of lines.
-/

namespace FlatSol

def isMargin (c : Char) : Bool :=
  c == ' ' || c == '\t'

theorem isMargin_iff {c : Char} : isMargin c = true ↔ c = ' ' ∨ c = '\t' := by
  simp [isMargin]

/-- Whether a place that follows the character `before` is the start of a line. -/
def startsLine (before : Option Char) : Bool :=
  match before with
  | none => true
  | some c => c == '\n'

namespace Text

/-- The number of bytes of the line break at the front of a text: a line feed, or a carriage return
followed by one. -/
def lineBreakSize : Text → Nat
  | '\r' :: '\n' :: _ => 2
  | '\n' :: _ => 1
  | _ => 0

/-- The offset where a statement ends that stops at byte `stop`, together with the spaces and tabs
behind it and the line break, if nothing else follows on its line. -/
def lineRestEnd (t : Text) (stop : Nat) : Nat :=
  let rest := dropBytes stop t
  let margin := rest.takeWhile isMargin
  stop + byteSize margin + lineBreakSize (rest.dropWhile isMargin)

theorem le_lineRestEnd (t : Text) (stop : Nat) : stop ≤ lineRestEnd t stop := by
  simp only [lineRestEnd]
  omega

def dropTrailingEmpty : List Text → List Text
  | [] => []
  | l :: ls =>
    match dropTrailingEmpty ls with
    | [] => if l.isEmpty then [] else [l]
    | kept => l :: kept

/-- The text as a block: no line ends in white space, and neither the first line nor the last one
is empty. -/
def asBlock (t : Text) : Text :=
  let lines := (pieces '\n' t).map trimEnd
  joinWith ['\n'] (dropTrailingEmpty (lines.dropWhile List.isEmpty))

end Text

end FlatSol
