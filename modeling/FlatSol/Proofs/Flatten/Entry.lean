import FlatSol.Flatten.Write
import FlatSol.Proofs.FileTree.Footprint
import FlatSol.Proofs.FileTree.Writing
import FlatSol.Proofs.Text.Search

/-!
# Flattening and the entry file

Flattening refuses to write where its entry stands, but decides that in the tree as it is before the
directories of the output are made. If every `..` of the output's path leaves a directory that exists,
the directories that are made cannot bring the path to the entry, and the entry keeps its bytes; else
a new directory can complete a way back to it.
-/

namespace FlatSol

variable {t : FileTree} {entry root : Path} {s : Settings} {l : Location} {bytes : ByteArray}

/-- The tree that flattening leaves behind: that of the write, or the tree as it was. -/
theorem tree_flatten (t : FileTree) (entry root : Path) (s : Settings) :
    (flatten t entry root s).tree =
      match Graph.build t (t.normalize entry) (t.normalize root) with
      | .error _ => t
      | .ok g =>
        let output := s.outputPath (t.normalize entry) (t.normalize root)
        if (t.normalize output).same (t.normalize entry) then t
        else (t.writeAtomic output (render g (t.normalize root) s).text).1 := by
  cases hg : Graph.build t (t.normalize entry) (t.normalize root) with
  | error e => simp only [flatten, hg]
  | ok g =>
    simp only [flatten, hg]
    split
    · rfl
    · split
      · next left e h => rw [h]
      · next written h => rw [h]

theorem Path.same_refl (p : Path) : p.same p = true := by
  simp [same]

/-- The entry of a flattening keeps its bytes, whatever the result, if every `..` of the output's path
leaves a directory that exists. -/
theorem get?_flatten_entry (hw : t.WellFormed) (hl : t.canonical? entry = some l)
    (hf : t.get? l = some (.file bytes))
    (hc : t.ClimbsWithin (s.outputPath (t.normalize entry) (t.normalize root))) :
    (flatten t entry root s).tree.get? l = some (.file bytes) := by
  rw [tree_flatten]
  split
  · exact hf
  · next g hg =>
    simp only
    split
    · exact hf
    · next hsame =>
      generalize s.outputPath (t.normalize entry) (t.normalize root) = p at hc hsame
      have hwrites := FileTree.writes_writeAtomic t p (render g (t.normalize root) s).text
      generalize t.writeAtomic p (render g (t.normalize root) s).text = left at hwrites
      cases hwrites with
      | failed grows => exact grows.kept hf
      | @written made k dir _ place noSlash _ =>
        have hgrows : t.Grows made := .of_ensureDir dir
        by_cases hk : l = k
        · subst hk
          -- nothing was made, so the comparison with the entry saw where the path leads
          obtain rfl := hw.made_eq_of_place hc dir place hf
          have hp := FileTree.canonical_of_place place noSlash hf (fun _ => by simp)
          rw [FileTree.normalize_of_canonical hp, FileTree.normalize_of_canonical hl,
            Path.same_refl] at hsame
          exact absurd rfl hsame
        · simp only
          rw [FileTree.get?_set_of_ne _ _ hk]
          exact hgrows.kept hf

/-- A contract with an empty line at its end, in a directory next to an empty one. -/
def besideTree : FileTree where
  entries :=
    [(["p".toList], .dir), (["o".toList], .dir),
      (["p".toList, "A.sol".toList], .file (Text.toBytes "contract A {}\n\n".toList))]
  workDir := some ["p".toList]

theorem climbsWithin_besideTree : besideTree.ClimbsWithin ⟨"/p/../o/A_flattened.sol".toList⟩ := by
  intro front rest hs
  have hmoves : moves (Path.steps ⟨"/p/../o/A_flattened.sol".toList⟩) =
      [.into "p".toList, .up, .into "o".toList, .into "A_flattened.sol".toList] := by decide
  rw [hmoves] at hs
  obtain rfl : front = [.into "p".toList] := by
    rcases front with _ | ⟨a, _ | ⟨b, _ | ⟨c, _ | ⟨d, front⟩⟩⟩⟩ <;> simp_all
  have hroot : besideTree.Leads ⟨"/p/../o/A_flattened.sol".toList⟩ [] [] :=
    ⟨[], maxLinks, by decide, .done, by decide⟩
  exact ⟨_, hroot.into (by decide) (by decide)⟩

theorem get?_flatten_entry_besideTree :
    besideTree.WellFormed ∧
      besideTree.canonical? ⟨"A.sol".toList⟩ = some ["p".toList, "A.sol".toList] ∧
      (flatten besideTree ⟨"A.sol".toList⟩ ⟨"/p".toList⟩ { dir := some ⟨"../o".toList⟩ }).tree.get?
        ["p".toList, "A.sol".toList] = some (.file (Text.toBytes "contract A {}\n\n".toList)) := by
  have hw : besideTree.WellFormed := by decide
  have hentry : besideTree.canonical? ⟨"A.sol".toList⟩ = some ["p".toList, "A.sol".toList] := by cbv
  refine ⟨hw, hentry, get?_flatten_entry hw hentry (by decide) ?_⟩
  have hpath : Settings.outputPath { dir := some ⟨"../o".toList⟩ }
      (besideTree.normalize ⟨"A.sol".toList⟩) (besideTree.normalize ⟨"/p".toList⟩) =
        ⟨"/p/../o/A_flattened.sol".toList⟩ := by cbv
  rw [hpath]
  exact climbsWithin_besideTree

/-- With an empty suffix, an output directory that goes back from a missing one leads to the entry
once that one is made: the entry is replaced with its flattened form. -/
theorem get?_flatten_entry_missing :
    besideTree.WellFormed ∧
      besideTree.canonical? ⟨"A.sol".toList⟩ = some ["p".toList, "A.sol".toList] ∧
      besideTree.get? ["p".toList, "A.sol".toList] =
        some (.file (Text.toBytes "contract A {}\n\n".toList)) ∧
      (flatten besideTree ⟨"A.sol".toList⟩ ⟨"/p".toList⟩
        { suffix := [], dir := some ⟨"missing/..".toList⟩ }).tree.get?
          ["p".toList, "A.sol".toList] ≠
        some (.file (Text.toBytes "contract A {}\n\n".toList)) := by
  have hleft : (flatten besideTree ⟨"A.sol".toList⟩ ⟨"/p".toList⟩
      { suffix := [], dir := some ⟨"missing/..".toList⟩ }).tree.get?
        ["p".toList, "A.sol".toList] =
      some (.file (Text.toBytes "contract A {}\n".toList)) := by
    rw [tree_flatten]
    cbv
  refine ⟨by decide, by cbv, by decide, ?_⟩
  rw [hleft]
  decide

end FlatSol
