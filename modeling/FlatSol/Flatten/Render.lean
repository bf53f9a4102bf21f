import FlatSol.Graph.Order
import FlatSol.Path.Relative
import FlatSol.Settings.Basic
import FlatSol.Source.Split

/-!
# The flattened text

The files of a graph are written one after the other, each behind its imports. The header lines come
first: the first licence line, the first version pragma, and each other pragma once. Then come the
bodies, without the imports that are inlined.
-/

namespace FlatSol

structure Rendered where
  text : Text
  /-- The files whose bodies stand in the text, in this order. -/
  files : List Path
  /-- The header lines that differ from the kept ones. -/
  warnings : List Warning

/-- The parts of a file of the graph, without the imports that are not kept. -/
structure Portion where
  path : Path
  parts : SourceParts

namespace Render

/-! ### Imports that are not kept -/

/-- The spans of the imports of one file to be cut out, and the unresolved statements seen so far:
every resolved import is cut, and an unresolved one whose statement was seen before, if those are
written only once. -/
def strips (dedupe : Bool) (text : Text) :
    List Text → List (ImportDirective × Resolution) → List Span × List Text
  | seen, [] => ([], seen)
  | seen, (d, .resolved _) :: rest =>
    let (spans, seen) := strips dedupe text seen rest
    (d.span :: spans, seen)
  | seen, (d, .unresolved _) :: rest =>
    let statement := d.statement text
    if statement ∈ seen then
      let (spans, seen) := strips dedupe text seen rest
      (if dedupe then d.span :: spans else spans, seen)
    else strips dedupe text (statement :: seen) rest

/-- The portions of files in their order, with the unresolved statements seen so far. -/
def portions (dedupe : Bool) : List Text → List SourceFile → List Portion
  | _, [] => []
  | seen, f :: fs =>
    let (spans, seen) := strips dedupe f.text seen f.imports
    ⟨f.path, Source.split f.text spans⟩ :: portions dedupe seen fs

/-! ### Headers -/

def keptLicense (ps : List Portion) : Option Text :=
  ps.findSome? fun p => p.parts.license

def keptVersion (ps : List Portion) : Option Text :=
  ps.findSome? fun p => p.parts.versionPragma

/-- Every other pragma, once. -/
def keptPragmas (ps : List Portion) : List Text :=
  (ps.flatMap fun p => p.parts.otherPragmas).eraseDups

/-- The warning for a header line that differs from the kept one. -/
def conflict (warning : Text → Text → Path → Warning) (kept line : Option Text) (file : Path) :
    List Warning :=
  match kept, line with
  | some k, some l => if k = l then [] else [warning k l file]
  | _, _ => []

/-- The warnings of all files, for the licence before the version pragma in each of them. -/
def conflicts (ps : List Portion) : List Warning :=
  ps.flatMap fun p =>
    conflict .conflictingLicense (keptLicense ps) p.parts.license p.path ++
      conflict .conflictingPragma (keptVersion ps) p.parts.versionPragma p.path

def headerLines (ps : List Portion) : List Text :=
  (keptLicense ps).toList ++ (keptVersion ps).toList ++ keptPragmas ps

/-! ### Bodies -/

def heading (root file : Path) : Text :=
  "// File: ".toList ++ (Path.relative root file).text ++ ['\n']

/-- The body of a portion, below its heading if bodies have one. -/
def block (root : Path) (comments : Bool) (p : Portion) : Text :=
  (if comments then heading root p.path else []) ++ p.parts.body

/-- The blocks with something in them. -/
def blocks (root : Path) (comments : Bool) (ps : List Portion) : List Text :=
  (ps.map (block root comments)).filterMap fun b =>
    if (Text.trim b).isEmpty then none else some (Text.trimEnd b)

/-- The text of header lines and blocks: a blank line between any two of its sections, and a line feed
at the end. -/
def assemble (headers blocks : List Text) : Text :=
  let head := headers.flatMap fun h => h ++ ['\n']
  let gap := if head.isEmpty || blocks.isEmpty then [] else ['\n']
  let all := head ++ gap ++ Text.joinWith ['\n', '\n'] blocks
  if all.isEmpty || all.getLast? == some '\n' then all else all ++ ['\n']

end Render

/-- The flattened text of a graph, in the project at `root`. -/
def render (g : Graph) (root : Path) (s : Settings) : Rendered :=
  let order := g.flattenOrder
  let ps := Render.portions s.dedupeExternalImports [] order
  { text := Render.assemble (Render.headerLines ps) (Render.blocks root s.sourceComments ps)
    files := order.map SourceFile.path
    warnings := Render.conflicts ps }

end FlatSol
