import FlatSol.Path.Basic

/-!
# Diagnostics

A warning as it is shown to a person: a headline, the file it concerns, notes, and suggestions.
-/

namespace FlatSol

structure Diagnostic where
  message : Text
  location : Option Path
  notes : List Text
  suggestions : List Text
deriving DecidableEq, Repr

namespace Diagnostic

def unlines (ls : List Text) : Text :=
  ls.flatMap fun l => l ++ ['\n']

def numbered : Nat → List Text → List Text
  | _, [] => []
  | n, s :: ss => ("  ".toList ++ (toString n).toList ++ ". ".toList ++ s) :: numbered (n + 1) ss

/-- The lines for the suggestions: one stands behind its heading, several are numbered below it. -/
def suggestionLines : List Text → List Text
  | [] => []
  | [only] => ["help: ".toList ++ only]
  | many => "help:".toList :: numbered 1 many

/-- The text of a report; each line of it ends in a line feed. -/
def text (d : Diagnostic) : Text :=
  unlines <|
    ["warning: ".toList ++ d.message] ++
    (d.location.toList.map fun p => "  --> ".toList ++ p.text) ++
    (d.notes.map fun n => "  = ".toList ++ n) ++
    suggestionLines d.suggestions

end Diagnostic

end FlatSol
