import FlatSol.Path.Basic

/-!
# Contract files
-/

namespace FlatSol.Contract

def extension : Text := "sol".toList

def isContractPath (p : Path) : Bool :=
  p.extension? == some extension

/-- The file name of a contract; empty if its path does not end in a name. -/
def name (p : Path) : Text :=
  p.fileName?.getD []

end FlatSol.Contract
