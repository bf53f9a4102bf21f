import FlatSol.Proofs.Flatten.Assemble
import FlatSol.Proofs.Flatten.Portion
import FlatSol.Proofs.Source.HeaderLine
import FlatSol.Proofs.Source.ImportCut

/-!
# The imports left in a body

The body of a file carries the import statements that are not cut, each as it was, if the cuts leave
them whole and let no keyword begin or cease to start a line.
-/

namespace FlatSol

open Text Scan

namespace Source

/-- Cuts that leave the other import statements of a text as they are. -/
structure KeepsImports (t : Text) (strip : List Span) : Prop extends CutsCleanly t strip where
  /-- Every keyword that starts a line starts an import statement. -/
  complete : (scan? 0 0 true (mask t)).isSome = true
  /-- At every place that is kept, an import statement starts in what is kept if and only if one
  starts in the text. -/
  lineStarts : sameStarts (fun n => !covers (cutSpans t strip) n) 0 true true (mask t) = true
  /-- No cut meets an import statement that stays. -/
  untouched : ∀ d ∈ imports t, d.span ∈ strip ∨
    ∀ s ∈ cutSpans t strip, s.stop ≤ d.span.start ∨ d.span.stop ≤ s.start
  /-- The path of an import statement that stays is written on one line. -/
  onOneLine : ∀ d ∈ imports t, d.span ∈ strip ∨ '\n' ∉ d.path

/-- The paths of the imports whose spans are not cut out. -/
def pathsWithout (t : Text) (strip : List Span) : List Text :=
  ((imports t).filter fun d => decide (d.span ∉ strip)).map ImportDirective.path

/-- The offsets of an import statement are cut if its span is one of those cut out, and kept if not. -/
theorem KeepsImports.covers_eq {t : Text} {strip : List Span} (h : KeepsImports t strip)
    {d : ImportDirective} (hd : d ∈ imports t) {k : Nat} (hk : d.span.start ≤ k)
    (hk' : k < d.span.stop) : covers (cutSpans t strip) k = decide (d.span ∈ strip) := by
  by_cases hs : d.span ∈ strip
  · have hcovers : covers (cutSpans t strip) k = true :=
      covers_eq_true_iff.2 ⟨d.span, List.mem_append_left _ (List.mem_append_left _ hs), hk, hk'⟩
    rw [hcovers, decide_eq_true hs]
  · have hcovers : covers (cutSpans t strip) k = false := by
      refine covers_eq_false_iff.2 fun s hsm hsk => ?_
      have hside := (h.untouched d hd).resolve_left hs s hsm
      omega
    rw [hcovers, decide_eq_false hs]

theorem reads_keep_mask {t : Text} {strip : List Span} (h : KeepsImports t strip) :
    Reads true (keep (fun n => !covers (cutSpans t strip) n) 0 (mask t)) (pathsWithout t strip) := by
  obtain ⟨fs, hscan⟩ := Option.isSome_iff_exists.1 h.complete
  have hfs := scanned_of_scan? hscan
  obtain ⟨zs, hall, rfl, hbare⟩ := exists_findAll_of_scanned hfs
  have himports : imports t = zs.map fun z =>
      ⟨z.1.value, z.1.span.start, lineRestEnd t z.1.span.stop⟩ := by
    rw [imports, hall, List.map_map]
    rfl
  -- the statement in a span is kept or cut with the span
  have hwhole : ∀ z ∈ zs, ∀ k, z.2.span.start ≤ k → k < z.2.span.stop →
      (!covers (cutSpans t strip) k) =
        decide ((⟨z.1.span.start, lineRestEnd t z.1.span.stop⟩ : Span) ∉ strip) := by
    intro z hz k hk hk'
    obtain ⟨-, hstart, -, hstop⟩ := hbare z hz
    have hle := le_lineRestEnd t z.1.span.stop
    have hmem : (⟨z.1.value, z.1.span.start, lineRestEnd t z.1.span.stop⟩ : ImportDirective) ∈
        imports t := by
      rw [himports]
      exact List.mem_map_of_mem hz
    rw [hstop] at hk'
    rw [h.covers_eq hmem (Nat.le_trans hstart hk) (Nat.lt_of_lt_of_le hk' hle)]
    exact (decide_not ..).symm
  have hkeep := reads_keep hfs h.lineStarts fun b hb k hk hk' => by
    obtain ⟨z, hz, rfl⟩ := List.mem_map.1 hb
    rw [hwhole z hz k hk hk', hwhole z hz _ (Nat.le_refl _) (hbare z hz).2.2.1]
  have hpaths : pathsWithout t strip =
      ((zs.map Prod.snd).filter fun b => !covers (cutSpans t strip) b.span.start).map
        Found.value := by
    rw [pathsWithout, himports, List.filter_map, List.filter_map, List.map_map, List.map_map]
    have hfilter : zs.filter (fun z => decide
        ((⟨z.1.span.start, lineRestEnd t z.1.span.stop⟩ : Span) ∉ strip)) =
          zs.filter fun z => !covers (cutSpans t strip) z.2.span.start :=
      List.filter_congr fun z hz => (hwhole z hz _ (Nat.le_refl _) (hbare z hz).2.2.1).symm
    exact (congrArg _ hfilter).trans
      (List.map_congr_left fun z hz => (hbare z (List.mem_filter.1 hz).1).1)
  rw [hpaths]
  exact hkeep

theorem reads_of_lineFeeds {n : Nat} {t : Text} {ps : List Text}
    (h : Reads true (List.replicate n '\n' ++ t) ps) : Reads true t ps := by
  induction n with
  | zero => exact h
  | succ n ih => exact ih h.of_lineFeed

theorem reads_of_append_lineFeeds {f : Bool} {n : Nat} {t : Text} {ps : List Text}
    (h : Reads f (t ++ List.replicate n '\n') ps) : Reads f t ps := by
  induction n with
  | zero => simpa using h
  | succ n ih =>
    rw [List.replicate_succ', ← List.append_assoc] at h
    exact ih h.of_append_lineFeed

theorem reads_body {t : Text} {strip : List Span} (h : KeepsImports t strip)
    (hs : ∀ s ∈ strip, Fits t s) (hend : (Scan.code.after t).inBlock = false) :
    Reads true (mask (split t strip).body) (pathsWithout t strip) := by
  obtain ⟨⟨i, j, hlines⟩, -⟩ := exists_mask_body h.toCutsCleanly hs hend
  have hpaths : ∀ p ∈ pathsWithout t strip, '\n' ∉ p := by
    intro p hp
    obtain ⟨d, hd, rfl⟩ := List.mem_map.1 hp
    obtain ⟨hmem, hstay⟩ := List.mem_filter.1 hd
    exact (h.onOneLine d hmem).resolve_left (of_decide_eq_true hstay)
  have hreads := (reads_keep_mask h).of_padded hpaths hlines
  rw [List.append_assoc] at hreads
  exact reads_of_append_lineFeeds (reads_of_lineFeeds hreads)

theorem reads_nil_of_blank {f : Bool} {t : Text} (h : ∀ c ∈ t, isBlank c = true) :
    Reads f t [] :=
  reads_nil_of_ne fun c hc => ne_of_isBlank (h c hc) rfl

theorem lineFeed_notMem_paint {s : Scan} {t : Text} (h : '\n' ∉ t) : '\n' ∉ paint s t := by
  induction t generalizing s with
  | nil => exact List.not_mem_nil
  | cons c cs ih =>
    rw [List.mem_cons, not_or] at h
    rw [paint, List.mem_append, not_or]
    refine ⟨fun hc => ?_, ih h.2⟩
    rcases shown_cases s c cs with hs | hs
    · rw [hs, List.mem_singleton] at hc
      exact h.1 hc
    · rw [hs] at hc
      exact absurd (List.eq_of_mem_replicate hc) (by decide)

theorem reads_nil_of_pragma {t : Text} {f : Found Pragma} (h : f ∈ pragmas t) :
    Reads true (mask f.value.statement) [] := by
  obtain ⟨-, ⟨u, hu⟩, hfeed⟩ := exists_pragma_statement h
  rw [hu, List.mem_cons, not_or] at hfeed
  have hmask : mask ('p' :: u) = 'p' :: paint .code u := by
    rw [mask_eq_paint]
    rfl
  have hstart : (true && startsImport ('p' :: paint .code u)) = false :=
    (Bool.true_and _).trans (startsImport_cons_of_ne (by decide) _)
  rw [hu, hmask]
  exact .skip hstart (reads_nil_of_line (lineFeed_notMem_paint hfeed.2))

end Source

namespace Render

/-- Texts that are joined by empty lines have their import statements one after the other. -/
theorem reads_joinWith {zs : List (Text × List Text)} (h : ∀ z ∈ zs, Source.Reads true z.1 z.2) :
    Source.Reads true (joinWith ['\n', '\n'] (zs.map Prod.fst)) (zs.flatMap Prod.snd) := by
  induction zs with
  | nil => exact .nil true
  | cons z zs ih =>
    obtain ⟨hz, hzs⟩ := List.forall_mem_cons.1 h
    have hrest := ih hzs
    cases zs with
    | nil =>
      rw [List.flatMap_cons, List.flatMap_nil, List.append_nil]
      exact hz
    | cons y ys =>
      have htext : joinWith ['\n', '\n'] ((z :: y :: ys).map Prod.fst) =
          z.1 ++ '\n' :: ('\n' :: joinWith ['\n', '\n'] ((y :: ys).map Prod.fst)) := by
        simp [joinWith]
      rw [htext, List.flatMap_cons]
      refine hz.append_lineFeed ?_
      have hempty := (Source.Reads.nil true).append_lineFeed hrest
      exact hempty

theorem reads_headerText_append {headers : List Text} {t : Text} {ps : List Text}
    (h : ∀ l ∈ headers, Source.Reads true l []) (ht : Source.Reads true t ps) :
    Source.Reads true (headerText headers ++ t) ps := by
  induction headers with
  | nil => exact ht
  | cons l ls ih =>
    obtain ⟨hl, hls⟩ := List.forall_mem_cons.1 h
    have htext : headerText (l :: ls) ++ t = l ++ '\n' :: (headerText ls ++ t) := by
      simp [headerText]
    rw [htext]
    exact hl.append_lineFeed (ih hls)

theorem reads_assemble {headers : List Text} {zs : List (Text × List Text)}
    (hh : ∀ l ∈ headers, Source.Reads true l []) (h : ∀ z ∈ zs, Source.Reads true z.1 z.2) :
    Source.Reads true (assemble headers (zs.map Prod.fst)) (zs.flatMap Prod.snd) := by
  have hsections : Source.Reads true (sections headers (zs.map Prod.fst)) (zs.flatMap Prod.snd) := by
    rw [sections, List.append_assoc]
    refine reads_headerText_append hh ?_
    split
    · exact reads_joinWith h
    · exact (Source.Reads.nil true).append_lineFeed (reads_joinWith h)
  rw [assemble_eq, endLine]
  split
  · exact hsections
  · have hend := hsections.append_lineFeed (Source.Reads.nil true)
    rw [List.append_nil] at hend
    exact hend

end Render

end FlatSol
