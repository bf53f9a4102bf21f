import FlatSol.Proofs.Source.Scan
import FlatSol.Proofs.Source.Statement

/-!
# The spans of statements

Statements are found in the masked text and cut out of the text itself. Masking keeps every byte
offset, so the spans found lie on character boundaries of both.
-/

namespace FlatSol

open Text

namespace Source

theorem isBoundary_mask {n : Nat} {t : Text} (h : isBoundary n t = true) :
    isBoundary n (mask t) = true := by
  obtain ⟨a, b, rfl, rfl⟩ := isBoundary_iff.1 h
  rw [Scan.mask_eq_paint, Scan.paint_append_eq, ← Scan.byteSize_front .code a b]
  exact isBoundary_byteSize_append _ _

theorem Fits.mask {t : Text} {s : Span} (h : Fits t s) : Fits (mask t) s :=
  ⟨h.le, isBoundary_mask h.start, isBoundary_mask h.stop⟩

/-- A character of the masked text other than a space stands between two boundaries of the text. -/
theorem isBoundary_of_mask_eq {t x y : Text} {c : Char} (h : Source.mask t = x ++ c :: y)
    (hc : c ≠ ' ') :
    isBoundary (byteSize x) t = true ∧ isBoundary (byteSize x + c.utf8Size) t = true := by
  rw [Scan.mask_eq_paint] at h
  obtain ⟨a, b, rfl, ha, -⟩ := Scan.exists_of_paint_eq h hc
  refine ⟨isBoundary_iff.2 ⟨a, c :: b, rfl, ha⟩, isBoundary_iff.2 ⟨a ++ [c], b, by simp, ?_⟩⟩
  simp [ha]

/-- Behind an offset, the rest of its line is cut off: the spaces and tabs, and the line break, if
nothing else follows on the line. -/
theorem exists_append_lineRestEnd {t : Text} {n : Nat} (h : isBoundary n t = true) :
    ∃ a margin lineBreak b, t = a ++ margin ++ lineBreak ++ b ∧ byteSize a = n ∧
      lineRestEnd t n = byteSize (a ++ margin ++ lineBreak) ∧ (∀ c ∈ margin, c = ' ' ∨ c = '\t') ∧
      (lineBreak = ['\n'] ∨ lineBreak = ['\r', '\n'] ∨
        (lineBreak = [] ∧ (∀ c ∈ b.head?, c ≠ ' ' ∧ c ≠ '\t' ∧ c ≠ '\n') ∧ ¬ ['\r', '\n'] <+: b)) := by
  obtain ⟨a, r, rfl, rfl⟩ := isBoundary_iff.1 h
  obtain ⟨margin, z, rfl, hmargin, htake, hdrop, hz⟩ :=
    exists_takeWhile_append (p := isMargin) (t := r)
  have hstop : lineRestEnd (a ++ (margin ++ z)) (byteSize a) =
      byteSize (a ++ margin) + lineBreakSize z := by
    rw [lineRestEnd, dropBytes_byteSize_append, htake, hdrop, byteSize_append]
  have hplain : ∀ c ∈ margin, c = ' ' ∨ c = '\t' := fun c hc => isMargin_iff.1 (hmargin c hc)
  obtain ⟨lineBreak, b, hz', hsize, hbreak⟩ : ∃ lineBreak b, z = lineBreak ++ b ∧
      lineBreakSize z = byteSize lineBreak ∧ (lineBreak = ['\n'] ∨ lineBreak = ['\r', '\n'] ∨
        (lineBreak = [] ∧ (∀ c ∈ b.head?, c ≠ ' ' ∧ c ≠ '\t' ∧ c ≠ '\n') ∧ ¬ ['\r', '\n'] <+: b)) := by
    unfold lineBreakSize
    split
    · next v => exact ⟨['\r', '\n'], v, rfl, rfl, .inr (.inl rfl)⟩
    · next v => exact ⟨['\n'], v, rfl, rfl, .inl rfl⟩
    · next hreturn hfeed =>
      refine ⟨[], z, rfl, rfl, .inr (.inr ⟨rfl, fun c hc => ?_, ?_⟩)⟩
      · have hnot : isMargin c = false := hz c hc
        obtain ⟨hspace, htab⟩ : c ≠ ' ' ∧ c ≠ '\t' := by simpa [isMargin] using hnot
        refine ⟨hspace, htab, ?_⟩
        rintro rfl
        obtain ⟨v, rfl⟩ := List.head?_eq_some_iff.1 hc
        exact hfeed v rfl
      · rintro ⟨v, rfl⟩
        exact hreturn v rfl
  refine ⟨a, margin, lineBreak, b, by rw [hz']; simp, rfl, ?_, hplain, hbreak⟩
  rw [hstop, hsize, byteSize_append _ lineBreak]

theorem isBoundary_lineRestEnd {t : Text} {n : Nat} (h : isBoundary n t = true) :
    isBoundary (lineRestEnd t n) t = true := by
  obtain ⟨a, margin, lineBreak, b, ht, -, hend, -⟩ := exists_append_lineRestEnd h
  exact isBoundary_iff.2 ⟨a ++ margin ++ lineBreak, b, ht, hend.symm⟩

/-- A statement found in the masked text, with the rest of its last line, fits the text if it
starts at a boundary. -/
theorem fits_of_mask_eq {t a x b : Text} (h : Source.mask t = a ++ (x ++ [';']) ++ b)
    (ha : isBoundary (byteSize a) t = true) :
    Fits t ⟨byteSize a, lineRestEnd t (byteSize a + byteSize (x ++ [';']))⟩ := by
  have hsemicolon : Source.mask t = (a ++ x) ++ ';' :: b := by rw [h]; simp
  have hstop := (isBoundary_of_mask_eq hsemicolon (by decide)).2
  have hsize : byteSize (a ++ x) + Char.utf8Size ';' = byteSize a + byteSize (x ++ [';']) := by
    simp only [byteSize_append, byteSize_cons, byteSize_nil]
    omega
  rw [hsize] at hstop
  have hle := le_lineRestEnd t (byteSize a + byteSize (x ++ [';']))
  exact ⟨by simp only at *; omega, ha, isBoundary_lineRestEnd hstop⟩

theorem isBoundary_of_startsLine {t a b : Text} (h : Source.mask t = a ++ b)
    (ha : startsLine a.getLast? = true) : isBoundary (byteSize a) t = true := by
  rcases List.eq_nil_or_concat a with rfl | ⟨a, c, rfl⟩
  · exact isBoundary_byteSize_append [] t
  · have hc : c = '\n' := by simpa [startsLine] using ha
    subst hc
    have hbreak : Source.mask t = a ++ '\n' :: b := by rw [h]; simp
    have hstop := (isBoundary_of_mask_eq hbreak (by decide)).2
    rw [List.concat_eq_append, byteSize_append]
    exact hstop

theorem exists_of_mem_imports {t : Text} {d : ImportDirective} (h : d ∈ imports t) :
    ∃ a margin, ∃ s : Statement, ∃ b, mask t = a ++ (margin ++ s.text) ++ b ∧
      startsLine a.getLast? = true ∧ (∀ c ∈ margin, isMargin c = true) ∧ d.path = s.path ∧
        d.span = ⟨byteSize a, lineRestEnd t (byteSize a + byteSize (margin ++ s.text))⟩ := by
  obtain ⟨f, hf, rfl⟩ := List.mem_map.1 h
  obtain ⟨a, b, m, hmask, hm, rfl⟩ := Pattern.exists_of_mem_findAll hf
  obtain ⟨hline, margin, s, behind, hmargin, rfl, rfl⟩ := exists_of_importStatement hm
  refine ⟨a, margin, s, behind, by rw [hmask]; simp, hline, hmargin, rfl, ?_⟩
  rw [List.take_left]

theorem fits_of_mem_imports {t : Text} {d : ImportDirective} (h : d ∈ imports t) :
    Fits t d.span := by
  obtain ⟨a, margin, s, b, hmask, hline, -, -, hspan⟩ := exists_of_mem_imports h
  have htext : margin ++ s.text = (margin ++ (importKeyword ++ s.inside)) ++ [';'] := by
    simp [Statement.text]
  rw [List.append_assoc] at hmask
  have ha := isBoundary_of_startsLine hmask hline
  rw [← List.append_assoc, htext] at hmask
  rw [hspan, htext]
  exact fits_of_mask_eq hmask ha

theorem nodup_imports (t : Text) : ((imports t).map ImportDirective.span).Nodup := by
  have hstart := Pattern.pairwise_start (p := importStatement) (mask t) 0 0 none
  rw [imports, List.map_map, List.Nodup, List.pairwise_map]
  refine hstart.imp fun {f g} hlt heq => ?_
  simp only [Function.comp_apply, Span.mk.injEq] at heq
  omega

theorem exists_of_mem_pragmas {t : Text} {f : Found Pragma} (h : f ∈ pragmas t) :
    ∃ a body b, mask t = a ++ (pragmaKeyword ++ body ++ [';']) ++ b ∧
      f.value.statement = onOneLine (pragmaKeyword ++ body ++ [';']) ∧
        f.span = ⟨byteSize a,
          lineRestEnd t (byteSize a + byteSize (pragmaKeyword ++ body ++ [';']))⟩ := by
  obtain ⟨f, hf, rfl⟩ := List.mem_map.1 h
  obtain ⟨a, b, m, hmask, hm, rfl⟩ := Pattern.exists_of_mem_findAll hf
  obtain ⟨-, s, behind, rfl, rfl⟩ := pragmaStatement_eq_some_iff.1 hm
  have htext : pragmaKeyword ++ (s.gap ++ s.name ++ s.rest) ++ [';'] = s.text := by
    simp [PragmaForm.text]
  refine ⟨a, s.gap ++ s.name ++ s.rest, behind, ?_, ?_, ?_⟩
  · rw [htext, hmask, ← List.append_assoc]
  · rw [htext]
    rfl
  · rw [htext, List.take_left]

theorem fits_of_mem_pragmas {t : Text} {f : Found Pragma} (h : f ∈ pragmas t) :
    Fits t f.span := by
  obtain ⟨a, body, b, hmask, -, hspan⟩ := exists_of_mem_pragmas h
  have hkeyword : mask t = a ++ 'p' :: (pragmaKeyword.tail ++ body ++ [';'] ++ b) := by
    rw [hmask]
    simp [pragmaKeyword]
  rw [hspan]
  exact fits_of_mask_eq hmask (isBoundary_of_mask_eq hkeyword (by decide)).1

theorem fits_of_mem_licenses {t : Text} {f : Found Text} (h : f ∈ licenses t) :
    Fits t f.span := by
  obtain ⟨a, b, m, rfl, -, rfl⟩ := Pattern.exists_of_mem_findAll h
  refine ⟨Nat.le_add_right _ _, isBoundary_byteSize_append a b, isBoundary_iff.2 ?_⟩
  refine ⟨a ++ b.take m.length, b.drop m.length, ?_, byteSize_append _ _⟩
  rw [List.append_assoc, List.take_append_drop]

theorem fits_of_mem_cutSpans {t : Text} {strip : List Span} (h : ∀ s ∈ strip, Fits t s) :
    ∀ s ∈ cutSpans t strip, Fits t s := by
  intro s hs
  rw [cutSpans, List.mem_append, List.mem_append, List.mem_map, List.mem_map] at hs
  rcases hs with (hs | ⟨f, hf, rfl⟩) | ⟨f, hf, rfl⟩
  · exact h s hs
  · exact fits_of_mem_licenses hf
  · exact fits_of_mem_pragmas hf

end Source

end FlatSol
