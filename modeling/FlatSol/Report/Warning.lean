import FlatSol.Report.Diagnostic

/-!
# Warnings

What a flattening skips or overrides. None of it stops a flattening; it is handed back with the
output.
-/

namespace FlatSol

inductive UnresolvedReason
  /-- A relative or absolute path with no file behind it. -/
  | notFound
  | outsideProject
  /-- A path that names a package, with no such file in the project. -/
  | external
  | unreadable
deriving DecidableEq, Repr

def UnresolvedReason.text : UnresolvedReason → Text
  | .notFound => "file not found".toList
  | .outsideProject => "outside the project root".toList
  | .external => "external package".toList
  | .unreadable => "file could not be read".toList

/-- A problem that does not stop a flattening. -/
inductive Warning
  | unresolvedImport (path : Text) (fromFile : Path) (reason : UnresolvedReason)
  /-- Files that import one another in a ring; the last one is the first one again. -/
  | cyclicImport (cycle : List Path)
  | conflictingPragma (kept ignored : Text) (file : Path)
  | conflictingLicense (kept ignored : Text) (file : Path)
deriving DecidableEq, Repr

namespace Warning

def ticked (t : Text) : Text :=
  '\x60' :: t ++ ['\x60']

def message : Warning → Text
  | .unresolvedImport path fromFile reason =>
    "unresolved import ".toList ++ ticked path ++ " in ".toList ++ ticked fromFile.text ++
      " (".toList ++ reason.text ++ [')']
  | .cyclicImport _ => "cyclic import detected".toList
  | .conflictingPragma _ _ file =>
    "conflicting version pragma in ".toList ++ ticked file.text
  | .conflictingLicense _ _ file =>
    "conflicting license identifier in ".toList ++ ticked file.text

def importSuggestions (path : Text) : UnresolvedReason → List Text
  | .external => ["Flatten or vendor the package sources into the project".toList]
  | .outsideProject => ["Move the imported file under the project root".toList]
  | .notFound =>
    ["Check that ".toList ++ ticked path ++ " exists".toList,
      "Relative imports must start with `./` or `../`".toList]
  | .unreadable => ["Check file permissions and that the file is UTF-8".toList]

def conflictNotes (kept ignored : Text) : List Text :=
  ["kept: ".toList ++ kept, "ignored: ".toList ++ ignored]

def diagnostic : Warning → Diagnostic
  | .unresolvedImport path fromFile reason =>
    { message := "unresolved import ".toList ++ ticked path
      location := some fromFile
      notes :=
        ["reason: ".toList ++ reason.text,
          "the import statement is kept in the flattened output".toList]
      suggestions := importSuggestions path reason }
  | .cyclicImport cycle =>
    { message := "cyclic import detected".toList
      location := none
      notes :=
        ["cycle: ".toList ++ Text.joinWith " -> ".toList (cycle.map Path.text),
          "each file is inlined once; the cycle is cut at the repeat".toList]
      suggestions :=
        ["Break the cycle by moving shared declarations into a separate file".toList] }
  | .conflictingPragma kept ignored file =>
    { message := "conflicting `pragma solidity` directives".toList
      location := some file
      notes := conflictNotes kept ignored
      suggestions := ["Align the compiler version range across imported files".toList] }
  | .conflictingLicense kept ignored file =>
    { message := "conflicting SPDX license identifiers".toList
      location := some file
      notes := conflictNotes kept ignored
      suggestions := [] }

end Warning

end FlatSol
