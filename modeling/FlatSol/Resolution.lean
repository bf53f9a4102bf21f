import FlatSol.FileTree.Walk
import FlatSol.Report.Warning
import FlatSol.Source.Import

/-!
# Resolving imports

An import path leads to a candidate: seen from the importing file's directory, as it stands, or from
the project root, by its kind. It is resolved if the candidate denotes a regular file under the
project root.
-/

namespace FlatSol

inductive Resolution
  /-- A regular file inside the project. -/
  | resolved (target : Location)
  | unresolved (reason : UnresolvedReason)
deriving DecidableEq, Repr

/-- The path that an import asks for. -/
def importCandidate (path : Text) (fromFile root : Path) : Path :=
  match ImportKind.of path with
  | .relative => (fromFile.parent?.getD ⟨['.']⟩).join ⟨path⟩
  | .absolute => ⟨path⟩
  | .bare => root.join ⟨path⟩

/-- Why an import is unresolved when no file stands behind it. -/
def missingReason (path : Text) : UnresolvedReason :=
  match ImportKind.of path with
  | .bare => .external
  | .relative | .absolute => .notFound

namespace FileTree

def fileLocation? (t : FileTree) (p : Path) : Option Location :=
  (t.canonical? p).filter fun l =>
    match t.get? l with
    | some (.file _) => true
    | _ => false

/-- What an import of the file `fromFile` leads to, in the project at `root`. -/
def resolveImport (t : FileTree) (path : Text) (fromFile root : Path) : Resolution :=
  match t.fileLocation? (importCandidate path fromFile root) with
  | none => .unresolved (missingReason path)
  | some l =>
    if l.path.isInside (t.normalize root) then .resolved l else .unresolved .outsideProject

end FileTree

end FlatSol
