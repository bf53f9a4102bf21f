import FlatSol.Flatten.Render
import FlatSol.Proofs.Source.Seam
import FlatSol.Proofs.Source.Spans
import FlatSol.Proofs.Source.Trim

/-!
# The code of a body and of the header lines

The code of a text is its masked form without white space. The body of a file carries the code of
the file without the statements that are cut, if the cuts do not change how the rest is read.
-/

namespace FlatSol

open Text Scan

namespace Source

/-- The code of a text. -/
def code (t : Text) : Text :=
  squeeze (mask t)

def pragmaSpans (t : Text) : List Span :=
  (pragmas t).map Found.span

/-- The code of a text without the spans `strip` and without its pragma statements. -/
def codeWithout (t : Text) (strip : List Span) : Text :=
  squeeze (cut (strip ++ pragmaSpans t) (mask t))

/-- Cuts that do not change how the rest of a text is read. -/
structure CutsCleanly (t : Text) (strip : List Span) : Prop where
  /-- Every stretch that is cut ends in the state of the reader in which it begins. -/
  seamless : seamless (fun n => !covers (cutSpans t strip) n) 0 .code .code t = true
  /-- In what is kept, no backslash in a literal stands before white space that ends its line. -/
  escapes : escapesHold .code (cut (cutSpans t strip) t) = true

/-- Cuts that leave all code but the statements that are cut. -/
structure KeepsCode (t : Text) (strip : List Span) : Prop extends CutsCleanly t strip where
  /-- The licence lines hold comments only. -/
  licenses : ∀ f ∈ licenses t, ∀ c ∈ slice f.span (mask t), isBlank c = true

/-- Licence lines that hold comments only have no share in the code. -/
theorem squeeze_keep_cutSpans {t : Text} {strip : List Span}
    (h : ∀ f ∈ licenses t, ∀ c ∈ slice f.span (mask t), isBlank c = true) :
    squeeze (keep (fun n => !covers (cutSpans t strip) n) 0 (mask t)) =
      squeeze (keep (fun n => !covers (strip ++ pragmaSpans t) n) 0 (mask t)) := by
  refine squeeze_keep_congr fun a c b ht hne => ?_
  have hlicense : covers ((licenses t).map Found.span) (0 + byteSize a) = true := by
    cases hcase : covers ((licenses t).map Found.span) (0 + byteSize a) with
    | true => rfl
    | false =>
      refine absurd ?_ hne
      rw [cutSpans, covers_append, covers_append, hcase, Bool.or_false, ← covers_append]
      rfl
  obtain ⟨s, hs, hstart, hstop⟩ := covers_eq_true_iff.1 hlicense
  obtain ⟨f, hf, rfl⟩ := List.mem_map.1 hs
  refine h f hf c ?_
  rw [slice_eq_keep (Fits.mask (fits_of_mem_licenses hf)), mem_keep_iff]
  exact ⟨a, b, ht, covers_eq_true_iff.2 ⟨f.span, List.mem_singleton_self _, hstart, hstop⟩⟩

/-- The body of a file is masked like what is kept of the masked text, up to white space at the ends
of lines and empty lines at its ends, and two line feeds behind it lead back into the code. -/
theorem exists_mask_body {t : Text} {strip : List Span} (h : CutsCleanly t strip)
    (hs : ∀ s ∈ strip, Fits t s) (hend : (Scan.code.after t).inBlock = false) :
    (∃ i j, Padded
      (List.replicate i '\n' ++ mask (split t strip).body ++ List.replicate j '\n')
      (keep (fun n => !covers (cutSpans t strip) n) 0 (mask t))) ∧
      Scan.code.after ((split t strip).body ++ ['\n', '\n']) = .code := by
  have hfits := fits_of_mem_cutSpans hs
  have hbody : (split t strip).body = asBlock (keep (fun n => !covers (cutSpans t strip) n) 0 t) := by
    rw [← cut_eq_keep hfits]
    rfl
  have hescapes := h.escapes
  rw [cut_eq_keep hfits] at hescapes
  rw [← after_keep h.seamless] at hend
  have hblock := exists_paint_asBlock hescapes hend
  rw [paint_keep h.seamless (steady_of_fits (a := []) hfits)] at hblock
  rw [hbody, mask_eq_paint, mask_eq_paint]
  exact hblock

theorem code_body {t : Text} {strip : List Span} (h : KeepsCode t strip)
    (hs : ∀ s ∈ strip, Fits t s) (hend : (Scan.code.after t).inBlock = false) :
    code (split t strip).body = codeWithout t strip := by
  obtain ⟨⟨i, j, hlines⟩, -⟩ := exists_mask_body h.toCutsCleanly hs hend
  have hpragmas : ∀ s ∈ strip ++ pragmaSpans t, Fits (mask t) s := by
    intro s hmem
    refine Fits.mask (fits_of_mem_cutSpans hs s ?_)
    rw [cutSpans]
    rcases List.mem_append.1 hmem with hmem | hmem
    · exact List.mem_append_left _ (List.mem_append_left _ hmem)
    · exact List.mem_append_right _ hmem
  have hcode := hlines.squeeze_eq
  rw [squeeze_append, squeeze_append, squeeze_lineFeeds, squeeze_lineFeeds, List.nil_append,
    List.append_nil] at hcode
  rw [code, hcode, squeeze_keep_cutSpans h.licenses, codeWithout, cut_eq_keep hpragmas]

end Source

end FlatSol
