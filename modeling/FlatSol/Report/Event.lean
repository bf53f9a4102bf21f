import FlatSol.FileTree.Fault
import FlatSol.Report.Warning

/-!
# Events

What the library reports while it works, in the order in which it happens.
-/

namespace FlatSol

inductive Level
  | debug
  | info
  | warn
deriving DecidableEq, Repr

inductive SettingsError
  | unreadable (e : IoError)
  /-- The file is no valid TOML, or a setting has the wrong type. -/
  | malformed (file : Path)
deriving DecidableEq, Repr

namespace SettingsError

def message : SettingsError → Text
  | .unreadable e => e.message
  | .malformed file => "failed to parse flatten config: ".toList ++ file.text

/-- The message with the cause that the operating system gives. -/
def chain : SettingsError → Text
  | .unreadable e => e.chain
  | .malformed file => (SettingsError.malformed file).message

end SettingsError

inductive Event
  /-- The file behind an import is read for the first time. -/
  | following (path : Text) (fromFile : Path)
  | unreadable (e : IoError)
  | warned (w : Warning)
  /-- The entry of a flattening does not have the extension of contracts. -/
  | notContract (entry : Path)
  | flattened (count : Nat) (output : Path)
  | settingsIgnored (file : Path) (e : SettingsError)
  | rootFound (root : Path)
  /-- No project root up to this last directory. -/
  | noRoot (last : Path)
  | opened (root configFile : Path)
  | listed (count : Nat) (dir : Path)
deriving DecidableEq, Repr

namespace Event

def level : Event → Level
  | .warned _ | .notContract _ | .settingsIgnored _ _ => .warn
  | .flattened _ _ => .info
  | _ => .debug

def numeral (n : Nat) : Text :=
  (toString n).toList

def message : Event → Text
  | .following path fromFile =>
    "following ".toList ++ Warning.ticked path ++ " from ".toList ++ fromFile.text
  | .unreadable e => e.chain
  | .warned w => w.diagnostic.text
  | .notContract entry => entry.text ++ " is not a `.sol` file".toList
  | .flattened count output =>
    "flattened ".toList ++ numeral count ++ " file(s) into ".toList ++ output.text
  | .settingsIgnored file e =>
    "Failed to load flatten config from ".toList ++ file.text ++ ": ".toList ++ e.chain
  | .rootFound root => "found project root at ".toList ++ root.text
  | .noRoot last => "no project root above ".toList ++ last.text
  | .opened root configFile =>
    "opened project at ".toList ++ root.text ++ " (config: ".toList ++ configFile.text ++ [')']
  | .listed count dir =>
    "found ".toList ++ numeral count ++ " contract(s) in ".toList ++ dir.text

end Event

end FlatSol
