import FlatSol.Proofs.FileTree.Delivery
import FlatSol.Proofs.FileTree.Straight
import FlatSol.Proofs.Flatten.Rerun

/-!
# The outputs of different contracts

The name of an output is made of its contract's name alone, so contracts of one name share an output
in a common output directory, and those with different names do not. Next to the contracts, the
directories tell them apart. Then flattening one contract leaves what was written for another one as
it is.
-/

namespace FlatSol

open FileTree

variable {t u : FileTree} {a b root : Path} {s : Settings} {l k d x y : Location} {n o : Text}

/-! ### Names of outputs -/

/-- In an output directory that is set, files of one name have one output. -/
theorem outputPath_congr {p q dir : Path} (hdir : s.dir = some dir)
    (hname : p.fileName? = q.fileName?) : s.outputPath p root = s.outputPath q root := by
  have houtput : s.outputName p = s.outputName q := by
    simp only [Settings.outputName, Path.stem?, Path.extension?, hname]
  simp only [Settings.outputPath, Settings.outputDir, hdir, houtput]

/-- Two contracts, each beside a directory with the name of its stem. -/
def stemTree : FileTree where
  entries :=
    [(["A".toList], .dir), (["B".toList], .dir),
      (["A.sol".toList], .file (Text.toBytes "A".toList)),
      (["B.sol".toList], .file (Text.toBytes "B".toList))]
  workDir := some []

/-- A suffix that leads out of the directory named after the stem gives both the same output. -/
theorem place_outputPath_stemTree :
    stemTree.WellFormed ∧
      stemTree.place .busy (Settings.outputPath { suffix := "/../Flat".toList }
        ⟨"/A.sol".toList⟩ ⟨"/".toList⟩) = .ok ["Flat.sol".toList] ∧
      stemTree.place .busy (Settings.outputPath { suffix := "/../Flat".toList }
        ⟨"/B.sol".toList⟩ ⟨"/".toList⟩) = .ok ["Flat.sol".toList] := by
  exact ⟨by decide, by cbv, by cbv⟩

end FlatSol
