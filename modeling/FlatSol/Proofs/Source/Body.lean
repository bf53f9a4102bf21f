import FlatSol.Proofs.Source.CutEnds
import FlatSol.Proofs.Text.Block

/-!
# The body of a source text

Which characters of a text stay when spans are cut out of it together with its licence lines and its
pragma statements. Main statement: whatever the order of the spans and their overlaps, the body is the
block of the characters that start in none of the stretches that are cut.
-/

namespace FlatSol

open Text

namespace Text

/-! ### Cutting is defined -/

theorem holds_gapsFrom {ss : List Span} {t : Text} (hfits : ∀ s ∈ ss, Fits t s) {cursor : Nat}
    (hcursor : isBoundary cursor t = true) : ∀ g ∈ gapsFrom (byteSize t) cursor ss, holds t g = true := by
  have hsize : isBoundary (byteSize t) t = true := by
    have h := isBoundary_byteSize_append t []
    rwa [List.append_nil] at h
  induction ss generalizing cursor with
  | nil =>
    obtain ⟨a, b, rfl, rfl⟩ := isBoundary_iff.1 hcursor
    have hmin : min (byteSize a) (byteSize (a ++ b)) = byteSize a := by
      rw [byteSize_append]
      omega
    intro g hg
    rw [gapsFrom, List.mem_singleton, hmin] at hg
    rw [hg, holds, hcursor, hsize]
    rfl
  | cons s ss ih =>
    obtain ⟨hs, hss⟩ := List.forall_mem_cons.1 hfits
    have hmax : isBoundary (max cursor s.stop) t = true := by
      rcases Nat.le_total cursor s.stop with hle | hle
      · rw [Nat.max_eq_right hle]
        exact hs.stop
      · rw [Nat.max_eq_left hle]
        exact hcursor
    intro g hg
    rw [gapsFrom] at hg
    split at hg
    · rcases List.mem_cons.1 hg with rfl | hg
      · rw [holds, hcursor, hs.start]
        rfl
      · exact ih hss hmax g hg
    · exact ih hss hmax g hg

theorem canCut_of_fits {ss : List Span} {t : Text} (h : ∀ s ∈ ss, Fits t s) : canCut ss t = true := by
  have hfits : ∀ s ∈ byStart ss, Fits t s := fun s hs => h s (mem_byStart.1 hs)
  exact List.all_eq_true.2 (holds_gapsFrom hfits (isBoundary_byteSize_append [] t))

theorem covers_congr {ss rs : List Span} (h : ∀ s, s ∈ ss ↔ s ∈ rs) (n : Nat) :
    covers ss n = covers rs n := by
  rw [Bool.eq_iff_iff, covers_eq_true_iff, covers_eq_true_iff]
  simp only [h]

end Text

namespace Source

/-! ### The stretch that is cut with a statement -/

/-- The span `e` is the statement `s`, the spaces and tabs behind it, and the line break, if nothing
else follows on its line. -/
structure Extends (t : Text) (s e : Span) : Prop where
  start : e.start = s.start
  exists_rest : ∃ a margin lineBreak b, t = a ++ margin ++ lineBreak ++ b ∧ byteSize a = s.stop ∧
    e.stop = byteSize (a ++ margin ++ lineBreak) ∧ (∀ c ∈ margin, c = ' ' ∨ c = '\t') ∧
      (lineBreak = ['\n'] ∨ lineBreak = ['\r', '\n'] ∨
        (lineBreak = [] ∧ (∀ c ∈ b.head?, c ≠ ' ' ∧ c ≠ '\t' ∧ c ≠ '\n') ∧ ¬ ['\r', '\n'] <+: b))

theorem extends_lineRestEnd {t : Text} {s : Span} (h : isBoundary s.stop t = true) :
    Extends t s ⟨s.start, lineRestEnd t s.stop⟩ :=
  ⟨rfl, exists_append_lineRestEnd h⟩

/-- A pragma statement ends in a semicolon of the masked text. -/
theorem exists_semicolon_of_pragma {t : Text} {f : Found Pragma}
    (h : f ∈ pragmaStatement.findAll (mask t)) : ∃ u v, mask t = u ++ ';' :: v ∧
      f.span.start ≤ byteSize u ∧ f.span.stop = byteSize (u ++ [';']) := by
  obtain ⟨a, b, m, hmask, hm, rfl⟩ := Pattern.exists_of_mem_findAll h
  obtain ⟨-, s, behind, rfl, rfl⟩ := pragmaStatement_eq_some_iff.1 hm
  have htext : a ++ s.text = a ++ pragmaKeyword ++ s.gap ++ s.name ++ s.rest ++ [';'] := by
    simp [PragmaForm.text]
  refine ⟨a ++ pragmaKeyword ++ s.gap ++ s.name ++ s.rest, behind, ?_, ?_, ?_⟩
  · rw [hmask]
    simp [PragmaForm.text]
  · simp only [byteSize_append]
    omega
  · simp only [List.take_left]
    rw [← byteSize_append, htext]

theorem isBoundary_stop_of_pragma {t : Text} {f : Found Pragma}
    (h : f ∈ pragmaStatement.findAll (mask t)) : isBoundary f.span.stop t = true := by
  obtain ⟨u, v, hmask, -, hstop⟩ := exists_semicolon_of_pragma h
  rw [hstop, byteSize_append]
  exact (isBoundary_of_mask_eq hmask (by decide)).2

theorem extends_pragmas (t : Text) : List.Forall₂ (Extends t)
    ((pragmaStatement.findAll (mask t)).map Found.span) ((pragmas t).map Found.span) := by
  rw [pragmas, List.map_map, List.forall₂_map_left_iff, List.forall₂_map_right_iff,
    List.forall₂_same]
  exact fun f hf => extends_lineRestEnd (isBoundary_stop_of_pragma hf)

/-! ### The body -/

/-- What stays of a text: the characters that start in no given span, in no licence line, and in no
pragma statement with the rest of its line. -/
def remains (t : Text) (strip : List Span) : Text :=
  keep (fun n => !covers strip n && !covers ((licenses t).map Found.span) n &&
    !covers ((pragmas t).map Found.span) n) 0 t

theorem cut_cutSpans {t : Text} {strip : List Span} (h : ∀ s ∈ strip, Fits t s) :
    cut (cutSpans t strip) t = remains t strip := by
  rw [cut_eq_keep (fits_of_mem_cutSpans h)]
  refine keep_congr fun n _ _ => ?_
  rw [cutSpans, covers_append, covers_append, Bool.not_or, Bool.not_or]

theorem remains_congr {t : Text} {strip strip' : List Span} (h : ∀ s, s ∈ strip' ↔ s ∈ strip) :
    remains t strip' = remains t strip := by
  refine keep_congr fun n _ _ => ?_
  rw [covers_congr h]

theorem split_congr {t : Text} {strip strip' : List Span} (hfits : ∀ s ∈ strip, Fits t s)
    (h : ∀ s, s ∈ strip' ↔ s ∈ strip) : split t strip' = split t strip := by
  have hfits' : ∀ s ∈ strip', Fits t s := fun s hs => hfits s ((h s).1 hs)
  simp only [split, cut_cutSpans hfits, cut_cutSpans hfits', remains_congr h]

theorem split?_of_fits {t : Text} {strip : List Span} (h : ∀ s ∈ strip, Fits t s) :
    split? t strip = some (split t strip) := by
  rw [split?, if_pos (canCut_of_fits (fits_of_mem_cutSpans h))]

/-- Spans on character boundaries can be cut out of a text in any order, with any overlaps. The body is
the block of the characters that start in no span, no licence line and no pragma statement, which
goes with the blanks behind it and with the line break if nothing else follows on its line. -/
theorem split?_isBlock {t : Text} {strip : List Span} (h : ∀ s ∈ strip, Fits t s) :
    ∃ parts, split? t strip = some parts ∧
      List.Forall₂ (Extends t) ((pragmaStatement.findAll (mask t)).map Found.span)
        ((pragmas t).map Found.span) ∧
      IsBlock (remains t strip) parts.body ∧ squeeze parts.body = squeeze (remains t strip) ∧
      ∀ strip', (∀ s, s ∈ strip' ↔ s ∈ strip) → split? t strip' = some parts := by
  have hbody : (split t strip).body = asBlock (remains t strip) := by
    rw [← cut_cutSpans h]
    rfl
  refine ⟨split t strip, split?_of_fits h, extends_pragmas t, isBlock_iff.2 hbody, ?_, ?_⟩
  · rw [hbody, squeeze_asBlock]
  · intro strip' hmem
    rw [split?_of_fits fun s hs => h s ((hmem s).1 hs), split_congr h hmem]

/-- A pragma statement with a character of two bytes in it, and something else on its line. -/
def besideText : Text :=
  "pragma p é; x\nA".toList

theorem split?_isBlock_besideText :
    (∀ s ∈ [⟨9, 13⟩, ⟨12, 14⟩, ⟨9, 11⟩, ⟨12, 14⟩], Fits besideText s) ∧
      ∃ parts, split? besideText [⟨9, 13⟩, ⟨12, 14⟩, ⟨9, 11⟩, ⟨12, 14⟩] = some parts ∧
        IsBlock "\nA".toList parts.body ∧
          split? besideText [⟨9, 11⟩, ⟨9, 13⟩, ⟨12, 14⟩] = some parts := by
  have hfits : ∀ s ∈ [⟨9, 13⟩, ⟨12, 14⟩, ⟨9, 11⟩, ⟨12, 14⟩], Fits besideText s := by
    intro s hs
    simp only [List.mem_cons, List.not_mem_nil, or_false] at hs
    rcases hs with rfl | rfl | rfl | rfl <;> exact ⟨by decide, by decide, by decide⟩
  have hremains : remains besideText [⟨9, 13⟩, ⟨12, 14⟩, ⟨9, 11⟩, ⟨12, 14⟩] = "\nA".toList := by
    have hlicenses : (licenses besideText).map Found.span = [] := by cbv
    have hpragmas : (pragmas besideText).map Found.span = [⟨0, 13⟩] := by cbv
    rw [remains, hlicenses, hpragmas]
    decide
  obtain ⟨parts, hsplit, -, hblock, -, hsame⟩ := split?_isBlock hfits
  rw [hremains] at hblock
  refine ⟨hfits, parts, hsplit, hblock, hsame _ fun s => ?_⟩
  simp only [List.mem_cons, List.not_mem_nil, or_false]
  tauto

/-- The blank behind a pragma statement goes with it, although something else follows on its line:
without the statement alone, the body would begin with that blank. -/
theorem body_besideText :
    (pragmaStatement.findAll (mask besideText)).map Found.span = [⟨0, 12⟩] ∧
      licenses besideText = [] ∧ endsBlank (dropBytes 12 besideText) = false ∧
        ¬ IsBlock (keep (fun n => !covers [⟨0, 12⟩] n) 0 besideText) (split besideText []).body := by
  have hbody : (split besideText []).body = "x\nA".toList := by cbv
  have hblock : asBlock (keep (fun n => !covers [⟨0, 12⟩] n) 0 besideText) = " x\nA".toList := by cbv
  refine ⟨by cbv, by cbv, by cbv, ?_⟩
  rw [isBlock_iff, hbody, hblock]
  decide

end Source

end FlatSol
