import FlatSol.Source.Header
import FlatSol.Source.Import
import FlatSol.Text.Cut

/-!
# Header directives and body

A source text falls into its licence line, its version pragma, its other pragmas, and the body: all
that is left when every licence line, every pragma statement and the given spans are cut out.
-/

namespace FlatSol

structure SourceParts where
  license : Option Text
  /-- The first pragma that gives the compiler version. -/
  versionPragma : Option Text
  otherPragmas : List Text
  /-- Everything else, as a block of lines. -/
  body : Text
deriving DecidableEq, Repr

namespace Source

def licenses (t : Text) : List (Found Text) :=
  licenseLine.findAll t

/-- The pragma statements of a source text, each with the rest of its last line. -/
def pragmas (t : Text) : List (Found Pragma) :=
  (pragmaStatement.findAll (mask t)).map fun f =>
    ⟨⟨f.span.start, Text.lineRestEnd t f.span.stop⟩, f.value⟩

/-- The spans that are cut out of a source text: those given, then the licence lines and the pragma
statements. -/
def cutSpans (t : Text) (strip : List Span) : List Span :=
  strip ++ (licenses t).map Found.span ++ (pragmas t).map Found.span

/-- The parts of a source text without the spans `strip`. -/
def split (t : Text) (strip : List Span) : SourceParts :=
  let found := (pragmas t).map Found.value
  let version := found.filter fun p => p.name == versionName
  let other := found.filter fun p => p.name != versionName
  { license := (licenses t).head?.map Found.value
    versionPragma := version.head?.map Pragma.statement
    otherPragmas := (other.map Pragma.statement).eraseDups
    body := Text.asBlock (Text.cut (cutSpans t strip) t) }

/-- The parts of a source text without the spans `strip`, or nothing if those would split a
character or start behind the text. -/
def split? (t : Text) (strip : List Span) : Option SourceParts :=
  if Text.canCut (cutSpans t strip) t then some (split t strip) else none

end Source

end FlatSol
