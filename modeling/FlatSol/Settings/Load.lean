import FlatSol.FileTree.Read
import FlatSol.Report.Event
import FlatSol.Settings.Basic
import FlatSol.Toml.Document

/-!
# Settings files

A settings file is a TOML document. Every setting may be left out; keys that mean nothing here are
passed over; a setting of the wrong type makes the whole file invalid.
-/

namespace FlatSol.Settings

/-- The string that a setting holds, or what it is without the setting. -/
def stringOr (missing : Text) : Option Toml.Node → Option Text
  | none => some missing
  | some (.string t) => some t
  | some _ => none

/-- The truth value that a setting holds, or what it is without the setting. -/
def booleanOr (missing : Bool) : Option Toml.Node → Option Bool
  | none => some missing
  | some (.boolean b) => some b
  | some _ => none

def dirOf : Option Toml.Node → Option (Option Path)
  | none => some none
  | some (.string t) => some (some ⟨t⟩)
  | some _ => none

/-- The suffix and the directory in the output settings: a table, or an array that gives them in this
order. A date holds neither. -/
def outputFields : Option Toml.Node → Option (Option Toml.Node × Option Toml.Node)
  | none => some (none, none)
  | some (.table _ entries) => some (Toml.Table.get? entries "suffix".toList,
      Toml.Table.get? entries "dir".toList)
  | some (.array items) => some (items[0]?, items[1]?)
  | some (.tables items) =>
    some (items[0]?.map (.table .header), items[1]?.map (.table .header))
  | some (.datetime _) => some (none, none)
  | some _ => none

def ofTable? (t : Toml.Table) : Option Settings := do
  let base : Settings := {}
  let (suffix, dir) ← outputFields (t.get? "output".toList)
  return {
    suffix := ← stringOr base.suffix suffix
    dir := ← dirOf dir
    sourceComments := ← booleanOr base.sourceComments (t.get? "source_comments".toList)
    dedupeExternalImports :=
      ← booleanOr base.dedupeExternalImports (t.get? "dedupe_external_imports".toList) }

def parse? (text : Text) : Option Settings :=
  (Toml.parse? text).bind ofTable?

def load (t : FileTree) (file : Path) : Except SettingsError Settings :=
  match t.readText file with
  | .error fault => .error (.unreadable ⟨.readSettings, file, fault⟩)
  | .ok text =>
    match parse? text with
    | some s => .ok s
    | none => .error (.malformed file)

/-- The settings of a file, and the defaults without it or if they cannot be read; only the latter is
reported. -/
def loadOrDefault (t : FileTree) (file : Path) : Settings × List Event :=
  if t.pathExists file then
    match load t file with
    | .ok s => (s, [])
    | .error e => ({}, [.settingsIgnored file e])
  else ({}, [])

def forProject (t : FileTree) (root : Path) : Settings × List Event :=
  loadOrDefault t (root.join ⟨fileName⟩)

end FlatSol.Settings
