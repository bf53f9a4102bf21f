import FlatSol.Digest.Sha256
import FlatSol.FileTree.Write
import FlatSol.Flatten.Render
import FlatSol.Graph.Build
import FlatSol.Project.Contract

/-!
# Flattening a contract

A contract is flattened by building its import graph, rendering it, and writing the text in one step.
The output never takes the place of the entry as the tree stands before the write.
-/

namespace FlatSol

structure Flattened where
  path : Path
  /-- The files whose bodies stand in it, in this order; the entry is the last one. -/
  files : List Path
  warnings : List Warning
  fingerprint : Text
deriving DecidableEq

inductive FlattenError
  | io (e : IoError)
  /-- The output would take the place of the entry. -/
  | wouldOverwrite (entry : Path)
deriving DecidableEq, Repr

def FlattenError.message : FlattenError → Text
  | .io e => e.message
  | .wouldOverwrite entry =>
    "refusing to overwrite ".toList ++ Warning.ticked entry.text ++
      " with its flattened form\n\n".toList ++
      "Set a non-empty `output.suffix` or a separate `output.dir`.".toList

/-- What a flattening leaves behind: the file tree, what was reported, and the result. -/
structure Outcome where
  tree : FileTree
  events : List Event
  result : Except FlattenError Flattened

def fingerprint (text : Text) : Text :=
  Sha256.hexDigest (Text.toBytes text).data.toList

/-- The report of an entry that does not have the extension of contracts. -/
def entryEvents (entry : Path) : List Event :=
  if Contract.isContractPath entry then [] else [.notContract entry]

/-- Flattens the contract `entry` of the project at `root` into one file. -/
def flatten (t : FileTree) (entry root : Path) (s : Settings) : Outcome :=
  let entry := t.normalize entry
  let root := t.normalize root
  match Graph.build t entry root with
  | .error e => ⟨t, entryEvents entry, .error (.io e)⟩
  | .ok g =>
    let rendered := render g root s
    let events := entryEvents entry ++ g.events ++ rendered.warnings.map .warned
    let output := s.outputPath entry root
    if (t.normalize output).same entry then ⟨t, events, .error (.wouldOverwrite entry)⟩
    else
      match t.writeAtomic output rendered.text with
      | (left, .error e) => ⟨left, events, .error (.io e)⟩
      | (written, .ok ()) =>
        { tree := written
          events := events ++ [.flattened rendered.files.length output]
          result := .ok
            { path := output
              files := rendered.files
              warnings := g.warnings ++ rendered.warnings
              fingerprint := fingerprint rendered.text } }

end FlatSol
