import FlatSol.Proofs.Flatten.Reported
import FlatSol.Proofs.Source.Apart

/-!
# Imports that come again

The import statements of a graph in the order in which a flattened text has them, and which of them it
is written without. Main statement: those that are resolved, and, if statements are written only once,
those unresolved ones whose statement has come before.
-/

namespace FlatSol

open Text

/-- An import statement of a file, with what it leads to. -/
structure Occurrence where
  file : SourceFile
  directive : ImportDirective
  resolution : Resolution

namespace Occurrence

/-- The statement as it stands in its file, without the white space around it. -/
def statement (o : Occurrence) : Text :=
  o.directive.statement o.file.text

end Occurrence

/-! ### Places in a list -/

theorem exists_first {α : Type} {p : α → Prop} {xs : List α} (h : ∃ x ∈ xs, p x) :
    ∃ before x after, xs = before ++ x :: after ∧ p x ∧ ∀ y ∈ before, ¬ p y := by
  classical
  obtain ⟨x, hx, hp⟩ := h
  have hsome : (xs.find? fun x => decide (p x)).isSome = true :=
    List.find?_isSome.2 ⟨x, hx, decide_eq_true hp⟩
  obtain ⟨y, hy⟩ := Option.isSome_iff_exists.1 hsome
  obtain ⟨hpy, before, after, rfl, hbefore⟩ := List.find?_eq_some_iff_append.1 hy
  exact ⟨before, y, after, rfl, of_decide_eq_true hpy, fun z hz => by simpa using hbefore z hz⟩

namespace Render

theorem strips_sublist (dedupe : Bool) (text : Text) (seen : List Text)
    (imports : List (ImportDirective × Resolution)) :
    (strips dedupe text seen imports).1.Sublist (imports.map fun i => i.1.span) := by
  induction imports generalizing seen with
  | nil => exact List.Sublist.slnil
  | cons i is ih =>
    obtain ⟨d, r⟩ := i
    cases r with
    | resolved l => exact (ih seen).cons_cons _
    | unresolved why =>
      rw [strips]
      split
      · cases dedupe with
        | true => exact (ih seen).cons_cons _
        | false => exact (ih seen).cons _
      · exact (ih _).cons _

end Render

namespace SourceFile

end SourceFile

namespace Graph

variable {t : FileTree} {entry root : Path} {g : Graph}

theorem imports_of_mem_flattenOrder (h : build t entry root = .ok g) {f : SourceFile}
    (hf : f ∈ g.flattenOrder) : f.imports.map Prod.fst = Source.imports f.text := by
  obtain ⟨_, -, ht⟩ := traversed_of_build h
  exact ht.imports_eq f (mem_files_of_mem_flattenOrder hf)

end Graph

/-- What a portion gives to the header and to the warnings. -/
def Portion.headers (p : Portion) : Path × Option Text × Option Text × List Text :=
  (p.path, p.parts.license, p.parts.versionPragma, p.parts.otherPragmas)

namespace Render

variable {ps qs : List Portion}

end Render

namespace Graph

variable {t : FileTree} {entry root : Path} {g : Graph}

end Graph

end FlatSol
