import FlatSol.Path.Basic

/-!
# Settings

How and where the flattened form of a contract is written.
-/

namespace FlatSol

/-- The settings of a flattening. -/
structure Settings where
  /-- Stands between the stem and the extension of the output's name. -/
  suffix : Text := "_flattened".toList
  /-- The directory of the output; a relative one counts from the project root. Without it, the
  output goes next to the entry file. -/
  dir : Option Path := none
  /-- Whether each body starts with a comment that names its file. -/
  sourceComments : Bool := false
  /-- Whether an import statement left in the output is written only once. -/
  dedupeExternalImports : Bool := true
deriving DecidableEq, Repr

namespace Settings

def fileName : Text := ".truffle-flatten.toml".toList

/-- The name of the output for an entry file: its stem, the suffix, and its extension. -/
def outputName (s : Settings) (entry : Path) : Text :=
  entry.stem?.getD "contract".toList ++ s.suffix ++ '.' :: entry.extension?.getD "sol".toList

def outputDir (s : Settings) (entry root : Path) : Path :=
  match s.dir with
  | some dir => if dir.isAbsolute then dir else root.join dir
  | none => entry.parent?.getD root

def outputPath (s : Settings) (entry root : Path) : Path :=
  (s.outputDir entry root).join ⟨s.outputName entry⟩

end Settings

end FlatSol
