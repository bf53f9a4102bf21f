import FlatSol.FileTree.Walk
import FlatSol.Report.Event

/-!
# Project roots

A directory is the root of a project when one of the two configuration files stands directly in it.
The root that a path belongs to is found by walking upward through the text of its absolute path.
-/

namespace FlatSol

namespace Project

/-- The configuration file of a project. -/
def configFileName : Text := "truffle-config.js".toList

/-- Its older name, which counts only if the other file is missing. -/
def oldConfigFileName : Text := "truffle.js".toList

/-- The names of configuration files, the one to be preferred first. -/
def configFileNames : List Text :=
  [configFileName, oldConfigFileName]

def findConfigFile (t : FileTree) (dir : Path) : Option Path :=
  (configFileNames.map fun n => dir.join ⟨n⟩).find? t.isFile

def isProject (t : FileTree) (dir : Path) : Bool :=
  (findConfigFile t dir).isSome

/-- The nearest root from a directory upward, and the report of the search. -/
def rootFrom (t : FileTree) (dir : Path) : Option Path × Event :=
  if isProject t dir then (some dir, .rootFound dir)
  else
    match _h : dir.parent? with
    | some parent => rootFrom t parent
    | none => (none, .noRoot dir)
termination_by dir.text.length
decreasing_by exact Path.length_parent? _h

/-- The directory that a search starts from: a file stands for the directory around it. -/
def searchStart (t : FileTree) (start : Path) : Option Path :=
  let start := t.absolute start
  if t.isFile start then start.parent? else some start

/-- The root of the project that a path belongs to, and the reports of the search. -/
def findRoot (t : FileTree) (start : Path) : Option Path × List Event :=
  match searchStart t start with
  | none => (none, [])
  | some dir =>
    let (root, event) := rootFrom t dir
    (root, [event])

end Project

end FlatSol
