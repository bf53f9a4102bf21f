import FlatSol.Report.Event
import FlatSol.Resolution

/-!
# Import graphs

The files that an entry file reaches by its imports, in the order in which they were discovered, and
the import edges between them.
-/

namespace FlatSol

structure SourceFile where
  location : Location
  text : Text
  /-- The import statements of the text, in order, each with what it leads to. -/
  imports : List (ImportDirective × Resolution)
deriving DecidableEq

def SourceFile.path (f : SourceFile) : Path :=
  f.location.path

structure Graph where
  /-- The files in the order of their discovery; the entry comes first. -/
  files : List SourceFile
  /-- The import edges, from the importing file to the imported one, in the order in which they
  were met; no edge is repeated. -/
  links : List (Location × Location)
  /-- Imports left unresolved, and import cycles. -/
  warnings : List Warning
  events : List Event

namespace Graph

def empty : Graph :=
  ⟨[], [], [], []⟩

def locations (g : Graph) : List Location :=
  g.files.map SourceFile.location

def fileAt? (g : Graph) (l : Location) : Option SourceFile :=
  g.files.find? fun f => f.location == l

/-- The file that a path names by its components. -/
def file? (g : Graph) (p : Path) : Option SourceFile :=
  g.files.find? fun f => f.path.same p

/-- The files that a file imports, in the order of its first import of each. -/
def dependencies (g : Graph) (l : Location) : List Location :=
  (g.links.filter fun e => e.1 == l).map Prod.snd

/-- All import edges, file by file in the order of discovery. -/
def edges (g : Graph) : List (Location × Location) :=
  g.files.flatMap fun f => (g.dependencies f.location).map fun d => (f.location, d)

/-- The graph with one more edge, unless it has the edge already. -/
def link (g : Graph) (source target : Location) : Graph :=
  if (source, target) ∈ g.links then g
  else { g with links := g.links ++ [(source, target)] }

def report (g : Graph) (e : Event) : Graph :=
  { g with events := g.events ++ [e] }

/-- The graph with a warning, which is reported too. -/
def warn (g : Graph) (w : Warning) : Graph :=
  { g with warnings := g.warnings ++ [w], events := g.events ++ [.warned w] }

@[simp] theorem files_link (g : Graph) (s d : Location) : (g.link s d).files = g.files := by
  unfold link
  split <;> rfl

@[simp] theorem files_report (g : Graph) (e : Event) : (g.report e).files = g.files := rfl

@[simp] theorem files_warn (g : Graph) (w : Warning) : (g.warn w).files = g.files := rfl

@[simp] theorem locations_link (g : Graph) (s d : Location) :
    (g.link s d).locations = g.locations := by
  simp [locations]

@[simp] theorem locations_report (g : Graph) (e : Event) :
    (g.report e).locations = g.locations := rfl

@[simp] theorem locations_warn (g : Graph) (w : Warning) :
    (g.warn w).locations = g.locations := rfl

end Graph

end FlatSol
