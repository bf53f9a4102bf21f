import FlatSol.FileTree.Walk

/-!
# Reading files

The text of a file, by its path and by its location.
-/

namespace FlatSol.FileTree

def textAt (t : FileTree) (l : Location) : Except Fault Text :=
  match t.get? l with
  | none => .error .notFound
  | some (.file bytes) =>
    match Text.ofBytes? bytes with
    | some text => .ok text
    | none => .error .notUtf8
  | some _ => .error .isDirectory

def readText (t : FileTree) (p : Path) : Except Fault Text := do
  textAt t (← t.resolve .follow p)

/-- The text of a file, or the error that its caller sees. -/
def fileText (t : FileTree) (p : Path) : Except IoError Text :=
  match t.readText p with
  | .ok text => .ok text
  | .error fault => .error ⟨.readFile, p, fault⟩

theorem mem_locations_of_textAt {t : FileTree} {l : Location} {text : Text}
    (h : t.textAt l = .ok text) : l ∈ t.locations := by
  unfold textAt at h
  split at h
  · simp at h
  · next bytes hg =>
    refine mem_locations_of_get? hg ?_
    rintro rfl
    simp at hg
  · simp at h

end FlatSol.FileTree
