import FlatSol.Flatten.Write
import FlatSol.Glob.Search
import FlatSol.Project.Root
import FlatSol.Settings.Load

/-!
# Projects

A project is its root directory, the configuration file that marks it, the directory of its
contracts, and its settings. It holds no source text: every operation reads the file tree anew.
-/

namespace FlatSol

structure Project where
  root : Path
  /-- The configuration file that marks the root. -/
  configFile : Path
  /-- The directory of the contracts, which may be missing. -/
  contractsDir : Path
  settings : Settings
deriving DecidableEq, Repr

/-- No configuration file stands in this directory. -/
structure ConfigurationNotFound where
  dir : Path
deriving DecidableEq, Repr

namespace ConfigurationNotFound

def message (e : ConfigurationNotFound) : Text :=
  "could not find ".toList ++ Warning.ticked Project.configFileName ++ " or ".toList ++
    Warning.ticked Project.oldConfigFileName ++ " in ".toList ++ Warning.ticked e.dir.text

def code : Text := "truffle_flatten::project::configuration_not_found".toList

def help : Text := "Point at the directory that holds the Truffle configuration file".toList

end ConfigurationNotFound

namespace Project

def contractsDirName : Text := "contracts".toList

/-- The directory that a path asks to open: the one around a file, and otherwise the path itself. -/
def openedDir (t : FileTree) (p : Path) : Path :=
  let p := t.absolute p
  if t.isFile p then p.parent?.getD p else p

/-- Opens the project whose root a path gives, and the reports of it. Directories further up are not
looked at. -/
def openAt (t : FileTree) (p : Path) : Except ConfigurationNotFound Project × List Event :=
  let root := openedDir t p
  match findConfigFile t root with
  | none => (.error ⟨root⟩, [])
  | some configFile =>
    let (settings, events) := Settings.forProject t root
    (.ok ⟨root, configFile, root.join ⟨contractsDirName⟩, settings⟩,
      events ++ [.opened root configFile])

/-- Opens the project that a path belongs to, and the reports of it. -/
def discover (t : FileTree) (start : Path) : Except ConfigurationNotFound Project × List Event :=
  match findRoot t start with
  | (none, events) => (.error ⟨t.absolute start⟩, events)
  | (some root, events) =>
    let (opened, more) := openAt t root
    (opened, events ++ more)

def withSettings (p : Project) (s : Settings) : Project :=
  { p with settings := s }

/-- The contract files directly inside the directory of contracts, in the order of their paths. -/
def listContracts (t : FileTree) (p : Project) : Except Glob.PatternError (List Path) :=
  Glob.filesWithExtension t p.contractsDir Contract.extension

def listEvents (p : Project) (contracts : List Path) : List Event :=
  [.listed contracts.length p.contractsDir]

def flattenContract (t : FileTree) (p : Project) (contract : Path) : Outcome :=
  flatten t contract p.root p.settings

end Project

end FlatSol
