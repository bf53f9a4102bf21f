import FlatSol.Proofs.Source.Apart
import FlatSol.Proofs.Source.Body

/-!
# Slices of a source text

Statements are found in the masked text and taken out of the text itself, by byte offsets. A slice is
there only if both of its ends lie in the text, between two characters. Main statement: every slice that
is asked for when a text is read and split is there.
-/

namespace FlatSol

open Text

namespace Text

/-- The characters of a span, or nothing if the span does not lie in the text between two characters. -/
def slice? (s : Span) (t : Text) : Option Text :=
  if s.start ≤ s.stop ∧ holds t s = true then some (slice s t) else none

/-- The offset where a statement ends with the rest of its line, or nothing if the text cannot be cut
at the byte where the statement stops. -/
def lineRestEnd? (t : Text) (stop : Nat) : Option Nat :=
  (slice? ⟨stop, byteSize t⟩ t).map fun _ => lineRestEnd t stop

theorem holds_of_fits {t : Text} {s : Span} (h : Fits t s) : holds t s = true := by
  rw [holds, h.start, h.stop]
  rfl

theorem slice?_of_fits {t : Text} {s : Span} (h : Fits t s) : slice? s t = some (slice s t) :=
  if_pos ⟨h.le, holds_of_fits h⟩

theorem le_byteSize_of_isBoundary {t : Text} {n : Nat} (h : isBoundary n t = true) :
    n ≤ byteSize t := by
  obtain ⟨a, b, rfl, rfl⟩ := isBoundary_iff.1 h
  rw [byteSize_append]
  exact Nat.le_add_right _ _

theorem lineRestEnd?_of_isBoundary {t : Text} {stop : Nat} (h : isBoundary stop t = true) :
    lineRestEnd? t stop = some (lineRestEnd t stop) := by
  have hend : isBoundary (byteSize t) t = true := isBoundary_iff.2 ⟨t, [], by simp, rfl⟩
  rw [lineRestEnd?, slice?_of_fits ⟨le_byteSize_of_isBoundary h, h, hend⟩]
  rfl

/-- Spans that can be sliced out of a text one after the other. -/
structure Sliceable (t : Text) (ss : List Span) : Prop where
  nonempty : ∀ s ∈ ss, s.start < s.stop
  inside : ∀ s ∈ ss, s.stop ≤ byteSize t
  /-- Both ends lie between two characters, or at the ends of the text. -/
  fits : ∀ s ∈ ss, Fits t s
  increasing : ss.Pairwise fun r s => r.start < s.start
  disjoint : ss.Pairwise fun r s => r.stop ≤ s.start

end Text

/-- The statement as it stands in the text, or nothing if the text has no such slice. -/
def ImportDirective.statement? (d : ImportDirective) (t : Text) : Option Text :=
  (slice? d.span t).map trim

namespace Source

variable {t : Text} {strip : List Span}

/-! ### Reading and splitting by slices -/

def imports? (t : Text) : Option (List ImportDirective) :=
  (importStatement.findAll (mask t)).mapM fun f =>
    (lineRestEnd? t f.span.stop).map fun stop => ⟨f.value, f.span.start, stop⟩

def pragmas? (t : Text) : Option (List (Found Pragma)) :=
  (pragmaStatement.findAll (mask t)).mapM fun f =>
    (lineRestEnd? t f.span.stop).map fun stop => ⟨⟨f.span.start, stop⟩, f.value⟩

/-- The parts of a source text without the spans `strip`, or nothing if a slice is missing: one behind
a pragma statement, or one of those that are kept. -/
def splitSlices? (t : Text) (strip : List Span) : Option SourceParts :=
  (pragmas? t).bind fun _ => split? t strip

/-! ### The slices are there -/

theorem imports?_eq_some (t : Text) : imports? t = some (imports t) := by
  refine List.mapM_eq_some_map fun f hf => ?_
  rw [lineRestEnd?_of_isBoundary (isBoundary_stop_of_import hf)]
  rfl

theorem pragmas?_eq_some (t : Text) : pragmas? t = some (pragmas t) := by
  refine List.mapM_eq_some_map fun f hf => ?_
  rw [lineRestEnd?_of_isBoundary (isBoundary_stop_of_pragma hf)]
  rfl

theorem splitSlices?_of_fits (h : ∀ s ∈ strip, Fits t s) :
    splitSlices? t strip = some (split t strip) := by
  rw [splitSlices?, pragmas?_eq_some, Option.bind_some, split?_of_fits h]

theorem start_lt_stop_of_mem_imports {d : ImportDirective} (h : d ∈ imports t) :
    d.span.start < d.span.stop := by
  obtain ⟨a, margin, s, b, -, -, -, -, hspan⟩ := exists_of_mem_imports h
  have hle := le_lineRestEnd t (byteSize a + byteSize (margin ++ s.text))
  have hsemicolon : Char.utf8Size ';' = 1 := rfl
  have hsize : 0 < byteSize (margin ++ s.text) := by
    simp only [Statement.text, byteSize_append, byteSize_cons, byteSize_nil]
    omega
  rw [hspan]
  simp only
  omega

theorem sliceable_imports (t : Text) : Sliceable t ((imports t).map ImportDirective.span) := by
  have hfits : ∀ s ∈ (imports t).map ImportDirective.span, Fits t s := by
    intro s hs
    obtain ⟨d, hd, rfl⟩ := List.mem_map.1 hs
    exact fits_of_mem_imports hd
  have hlt : ∀ s ∈ (imports t).map ImportDirective.span, s.start < s.stop := by
    intro s hs
    obtain ⟨d, hd, rfl⟩ := List.mem_map.1 hs
    exact start_lt_stop_of_mem_imports hd
  have hdisjoint : ((imports t).map ImportDirective.span).Pairwise fun r s => r.stop ≤ s.start :=
    List.pairwise_map.2 (pairwise_imports t)
  refine ⟨hlt, fun s hs => le_byteSize_of_isBoundary (hfits s hs).stop, hfits, ?_, hdisjoint⟩
  exact hdisjoint.imp_of_mem fun {r s} hr _ hle => Nat.lt_of_lt_of_le (hlt r hr) hle

theorem statement?_of_mem_imports {d : ImportDirective} (h : d ∈ imports t) :
    d.statement? t = some (d.statement t) := by
  rw [ImportDirective.statement?, slice?_of_fits (fits_of_mem_imports h)]
  rfl

end Source

end FlatSol
