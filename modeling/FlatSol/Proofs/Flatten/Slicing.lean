import FlatSol.Proofs.Flatten.Repeats
import FlatSol.Proofs.Source.Slicing

/-!
# Rendering by slices

Rendering takes the statements of unresolved imports out of the files and splits the files, and looks
the files up in the graph. Main statement: for a built graph nothing of this fails, so the rendered text
is always there.
-/

namespace FlatSol

open Text

namespace Render

/-- The imports to be cut out, or nothing if a statement is no slice of its text. -/
def strips? (dedupe : Bool) (text : Text) :
    List Text → List (ImportDirective × Resolution) → Option (List Span × List Text)
  | seen, [] => some ([], seen)
  | seen, (d, .resolved _) :: rest =>
    (strips? dedupe text seen rest).map fun r => (d.span :: r.1, r.2)
  | seen, (d, .unresolved _) :: rest =>
    (d.statement? text).bind fun statement =>
      if statement ∈ seen then
        (strips? dedupe text seen rest).map fun r =>
          (if dedupe then d.span :: r.1 else r.1, r.2)
      else strips? dedupe text (statement :: seen) rest

/-- The portions of files, or nothing if a slice of one of them is missing. -/
def portions? (dedupe : Bool) : List Text → List SourceFile → Option (List Portion)
  | _, [] => some []
  | seen, f :: fs =>
    (strips? dedupe f.text seen f.imports).bind fun r =>
      (Source.splitSlices? f.text r.1).bind fun parts =>
        (portions? dedupe r.2 fs).map fun ps => ⟨f.path, parts⟩ :: ps

theorem strips?_eq_some (dedupe : Bool) {text : Text} (seen : List Text)
    {imports : List (ImportDirective × Resolution)}
    (h : ∀ i ∈ imports, i.1.statement? text = some (i.1.statement text)) :
    strips? dedupe text seen imports = some (strips dedupe text seen imports) := by
  induction imports generalizing seen with
  | nil => rfl
  | cons i is ih =>
    obtain ⟨hd, his⟩ := List.forall_mem_cons.1 h
    obtain ⟨d, r⟩ := i
    cases r with
    | resolved l => rw [strips?, ih _ his]; rfl
    | unresolved why =>
      rw [strips?, hd, Option.bind_some, strips]
      split
      · rw [ih _ his]; rfl
      · exact ih _ his

theorem portions?_eq_some (dedupe : Bool) (seen : List Text) {files : List SourceFile}
    (h : ∀ f ∈ files, f.imports.map Prod.fst = Source.imports f.text) :
    portions? dedupe seen files = some (portions dedupe seen files) := by
  induction files generalizing seen with
  | nil => rfl
  | cons f fs ih =>
    obtain ⟨hf, hfs⟩ := List.forall_mem_cons.1 h
    have hmem : ∀ i ∈ f.imports, i.1 ∈ Source.imports f.text := fun i hi =>
      hf ▸ List.mem_map_of_mem hi
    have hstrips := strips?_eq_some dedupe seen
      fun i hi => Source.statement?_of_mem_imports (hmem i hi)
    have hfits : ∀ s ∈ (strips dedupe f.text seen f.imports).1, Fits f.text s := by
      intro s hs
      obtain ⟨i, hi, rfl⟩ := List.mem_map.1 ((strips_sublist dedupe f.text seen f.imports).subset hs)
      exact Source.fits_of_mem_imports (hmem i hi)
    rw [portions?, hstrips, Option.bind_some, Source.splitSlices?_of_fits hfits, Option.bind_some,
      ih _ hfs]
    rfl

end Render

/-- The flattened text of a graph, or nothing if a file of the order is not in the graph or a slice of
a file is missing. -/
def render? (g : Graph) (root : Path) (s : Settings) : Option Rendered :=
  (g.orderedLocations.mapM g.fileAt?).bind fun order =>
    (Render.portions? s.dedupeExternalImports [] order).map fun ps =>
      { text := Render.assemble (Render.headerLines ps) (Render.blocks root s.sourceComments ps)
        files := order.map SourceFile.path
        warnings := Render.conflicts ps }

namespace Graph

variable {t : FileTree} {entry root : Path} {g : Graph}

theorem mapM_fileAt?_of_build (hw : t.WellFormed) (h : build t entry root = .ok g) :
    g.orderedLocations.mapM g.fileAt? = some g.flattenOrder := by
  obtain ⟨l, -, ht, hline⟩ := lined_of_build hw h
  have heq : line g.orderedLocations ⟨g, [], []⟩ = g.orderedLocations := by simp [line]
  have hperm : g.orderedLocations.Perm g.locations := heq ▸ hline.perm
  rw [← flattenOrder_map_location ht.nodup hperm, List.mapM_map]
  have hfound := List.mapM_eq_some_map (f := g.fileAt? ∘ SourceFile.location) (g := id)
    fun f hf => fileAt_location ht.nodup (mem_files_of_mem_flattenOrder hf)
  rw [hfound, List.map_id]

/-- The imports of a text have spans that can be sliced out of it, in whatever order and selection, and
so a graph that is built can be rendered, for every project root and all settings. -/
theorem render?_of_build :
    (∀ text : Text, Source.imports? text = some (Source.imports text) ∧
      Sliceable text ((Source.imports text).map ImportDirective.span) ∧
      (∀ d ∈ Source.imports text, d.statement? text = some (d.statement text)) ∧
      ∀ strip : List Span, (∀ s ∈ strip, s ∈ (Source.imports text).map ImportDirective.span) →
        Source.splitSlices? text strip = some (Source.split text strip)) ∧
    ∀ (t : FileTree) (entry root : Path) (g : Graph), t.WellFormed →
      build t entry root = .ok g →
        ∀ (project : Path) (s : Settings), render? g project s = some (render g project s) := by
  refine ⟨fun text => ⟨Source.imports?_eq_some text, Source.sliceable_imports text,
    fun d hd => Source.statement?_of_mem_imports hd, fun strip hstrip => ?_⟩,
    fun t entry root g hw h project s => ?_⟩
  · exact Source.splitSlices?_of_fits fun s hs => (Source.sliceable_imports text).fits s (hstrip s hs)
  · have hportions := Render.portions?_eq_some s.dedupeExternalImports []
      fun f hf => imports_of_mem_flattenOrder h hf
    rw [render?, mapM_fileAt?_of_build hw h, Option.bind_some, hportions]
    rfl

/-- Two imports, the first one behind a comment with a character of two bytes. -/
def accentText : Text :=
  "/*é\n*/ import \"./B.sol\"; // ü\nimport './C.sol';\n".toList

theorem spans_accentText :
    (Source.imports accentText).map ImportDirective.span = [⟨5, 26⟩, ⟨32, 50⟩] := by
  cbv

theorem render?_of_build_ringTree :
    (∀ s ∈ [⟨32, 50⟩, ⟨5, 26⟩],
        s ∈ (Source.imports accentText).map ImportDirective.span) ∧
      Source.splitSlices? accentText [⟨32, 50⟩, ⟨5, 26⟩] =
        some (Source.split accentText [⟨32, 50⟩, ⟨5, 26⟩]) ∧
      ringTree.WellFormed ∧ ∃ g, build ringTree ⟨"A.sol".toList⟩ ⟨"/p".toList⟩ = .ok g ∧
        render? g ⟨"/p".toList⟩ {} = some (render g ⟨"/p".toList⟩ {}) := by
  have hstrip : ∀ s ∈ [⟨32, 50⟩, ⟨5, 26⟩],
      s ∈ (Source.imports accentText).map ImportDirective.span := by
    rw [spans_accentText]
    decide
  obtain ⟨g, hg⟩ := exists_build_ringTree
  exact ⟨hstrip, (render?_of_build.1 accentText).2.2.2 _ hstrip, ringTree_wellFormed, g, hg,
    render?_of_build.2 _ _ _ g ringTree_wellFormed hg _ _⟩

end Graph

end FlatSol
