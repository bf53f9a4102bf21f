import FlatSol.Proofs.Source.HeaderStart

/-!
# Where cuts begin and end

A cut begins at the start of a line, or at the keyword of a pragma. It ends behind a semicolon, behind
white space, or at the end of the text, and the first character in it that is not blank starts a word,
if it is no comment.
-/

namespace FlatSol

open Text

namespace Source

theorem exists_form_of_mem_pragmas {t : Text} {f : Found Pragma} (h : f ∈ pragmas t) :
    ∃ (a : Text) (s : PragmaForm) (b : Text), mask t = a ++ s.text ++ b ∧
      startsWord a.getLast? = true ∧
        f = ⟨⟨byteSize a, lineRestEnd t (byteSize a + byteSize s.text)⟩, s.pragma⟩ := by
  obtain ⟨g, hg, rfl⟩ := List.mem_map.1 h
  obtain ⟨a, b, m, hmask, hm, rfl⟩ := Pattern.exists_of_mem_findAll hg
  obtain ⟨hword, s, behind, rfl, rfl⟩ := pragmaStatement_eq_some_iff.1 hm
  refine ⟨a, s, behind, by rw [hmask, List.append_assoc], hword, ?_⟩
  simp only [List.take_left]

/-! ### Characters of a text and of its masked form -/

theorem mask_append_lineFeed (a b : Text) :
    ∃ y, mask (a ++ '\n' :: b) = mask a ++ '\n' :: y := by
  rw [Scan.mask_eq_paint, Scan.mask_eq_paint, Scan.paint_append_lineFeed]
  exact ⟨_, rfl⟩

/-- What ends where a blank character of the text ends is blank in the masked text. -/
theorem isBlank_of_mask_eq {a b x y : Text} {c d : Char} (h : mask (a ++ c :: b) = x ++ d :: y)
    (hc : isBlank c = true) (hsize : byteSize (x ++ [d]) = byteSize (a ++ [c])) :
    isBlank d = true := by
  have happend : x ++ [d] ++ y = Scan.front .code a (c :: b) ++
      Scan.shown (Scan.code.after a) c b ++ Scan.paint ((Scan.code.after a).next c) b := by
    have hpaint := h
    rw [Scan.mask_eq_paint, Scan.paint_append_eq, Scan.paint] at hpaint
    rw [List.append_assoc, List.append_assoc, hpaint]
    rfl
  have hsame : byteSize (x ++ [d]) =
      byteSize (Scan.front .code a (c :: b) ++ Scan.shown (Scan.code.after a) c b) := by
    rw [hsize, byteSize_append, byteSize_append, Scan.byteSize_front, Scan.byteSize_shown]
    rfl
  obtain ⟨hfront, -⟩ := append_inj_of_byteSize_eq happend hsame
  have hpos : 0 < c.utf8Size := Char.utf8Size_pos c
  rcases Scan.shown_cases (Scan.code.after a) c b with hs | hs
  · rw [hs] at hfront
    obtain rfl : d = c := by simpa using (List.append_inj' hfront rfl).2
    exact hc
  · obtain ⟨k, hk⟩ : ∃ k, c.utf8Size = k + 1 := ⟨c.utf8Size - 1, by omega⟩
    rw [hs, hk, List.replicate_succ', ← List.append_assoc] at hfront
    obtain rfl : d = ' ' := by simpa using (List.append_inj' hfront rfl).2
    rfl

/-! ### The ends of cuts -/

/-- The rest of a line that is cut with a statement is white space. -/
theorem exists_lineRestEnd {t : Text} {n : Nat} (h : isBoundary n t = true) :
    ∃ a w b, t = a ++ w ++ b ∧ byteSize a = n ∧ (∀ c ∈ w, isBlank c = true) ∧
      lineRestEnd t n = byteSize (a ++ w) := by
  obtain ⟨a, margin, lineBreak, b, ht, ha, hend, hmargin, hbreak⟩ := exists_append_lineRestEnd h
  have hblank : ∀ c ∈ lineBreak, isBlank c = true := by
    rcases hbreak with rfl | rfl | ⟨rfl, -⟩ <;> simp [isBlank]
  refine ⟨a, margin ++ lineBreak, b, by simpa using ht, ha, fun c hc => ?_, by simpa using hend⟩
  rcases List.mem_append.1 hc with hc | hc
  · exact isBlank_of_isMargin (isMargin_iff.2 (hmargin c hc))
  · exact hblank c hc

/-- Behind a statement and the rest of its last line, no word stands. -/
theorem isWord_of_lineRestEnd {t u b x y : Text} {d : Char} (hu : mask t = u ++ ';' :: b)
    (h : mask t = x ++ d :: y)
    (hstop : lineRestEnd t (byteSize (u ++ [';'])) = byteSize (x ++ [d])) : isWord d = false := by
  have hboundary := (isBoundary_of_mask_eq hu (by decide)).2
  have hsize : byteSize u + Char.utf8Size ';' = byteSize (u ++ [';']) := by simp
  rw [hsize] at hboundary
  obtain ⟨a, w, v, rfl, ha, hw, hend⟩ := exists_lineRestEnd hboundary
  rw [hend] at hstop
  rcases List.eq_nil_or_concat w with rfl | ⟨w, c, rfl⟩
  · -- nothing was cut behind the semicolon
    have hsame : byteSize (x ++ [d]) = byteSize (u ++ [';']) := by
      rw [← hstop, List.append_nil, ha]
    obtain ⟨-, rfl, -⟩ := cons_inj_of_byteSize_eq (h.symm.trans hu) hsame
    simp [isWord]
  · have htext : a ++ w.concat c ++ v = (a ++ w) ++ c :: v := by simp
    rw [htext] at h
    refine isWord_of_isBlank (isBlank_of_mask_eq h (hw c (by simp)) ?_)
    rw [← hstop]
    simp

variable {t : Text} {strip : List Span}

theorem isWord_of_stop (hstrip : ∀ s ∈ strip, ∃ d ∈ imports t, d.span = s) {s : Span}
    (hs : s ∈ cutSpans t strip) {x y : Text} {d : Char} (h : mask t = x ++ d :: y) (hy : y ≠ [])
    (hstop : s.stop = byteSize (x ++ [d])) : isWord d = false := by
  rw [cutSpans, List.mem_append, List.mem_append, List.mem_map, List.mem_map] at hs
  rcases hs with (hs | ⟨f, hf, rfl⟩) | ⟨f, hf, rfl⟩
  · obtain ⟨e, he, rfl⟩ := hstrip s hs
    obtain ⟨a, margin, st, b, hmask, -, -, -, hspan⟩ := exists_of_mem_imports he
    have hsemicolon : mask t = (a ++ margin ++ importKeyword ++ st.inside) ++ ';' :: b := by
      rw [hmask]
      simp [Statement.text]
    refine isWord_of_lineRestEnd hsemicolon h ?_
    rw [← hstop, hspan]
    simp [Statement.text]
  · obtain ⟨a, line, b, ht, -, hspan, hend⟩ := exists_of_mem_licenses hf
    rw [hspan] at hstop
    rcases hend with ⟨rfl, -⟩ | ⟨u, rfl, -⟩
    · have hsize := byteSize_mask t
      rw [h, ht] at hsize
      have hy0 : byteSize y = 0 := by
        simp only [byteSize_append, byteSize_cons, byteSize_nil] at hsize hstop
        omega
      exact absurd (eq_nil_of_byteSize_eq_zero hy0) hy
    · have htext : t = (a ++ u) ++ '\n' :: b := by rw [ht]; simp
      rw [htext] at h
      refine isWord_of_isBlank (isBlank_of_mask_eq h rfl ?_)
      rw [← hstop]
      simp
  · obtain ⟨a, st, b, hmask, -, rfl⟩ := exists_form_of_mem_pragmas hf
    have hsemicolon : mask t = (a ++ pragmaKeyword ++ st.gap ++ st.name ++ st.rest) ++ ';' :: b := by
      rw [hmask]
      simp [PragmaForm.text]
    refine isWord_of_lineRestEnd hsemicolon h ?_
    rw [← hstop]
    simp [PragmaForm.text]

/-! ### The starts of cuts -/

/-- A cut starts a line, unless it starts at a pragma. -/
theorem start_of_mem_cutSpans (hstrip : ∀ s ∈ strip, ∃ d ∈ imports t, d.span = s) {s : Span}
    (hs : s ∈ cutSpans t strip) : (∃ f ∈ pragmas t, f.span = s) ∨ s.start = 0 ∨
      ∃ a b, t = a ++ '\n' :: b ∧ byteSize (a ++ ['\n']) = s.start := by
  rw [cutSpans, List.mem_append, List.mem_append, List.mem_map, List.mem_map] at hs
  rcases hs with (hs | ⟨f, hf, rfl⟩) | hs
  · obtain ⟨e, he, rfl⟩ := hstrip s hs
    obtain ⟨a, margin, st, b, hmask, hline, -, -, hspan⟩ := exists_of_mem_imports he
    refine .inr ?_
    rw [hspan]
    rcases eq_nil_or_exists_of_startsLine hline with rfl | ⟨a, rfl⟩
    · exact .inl rfl
    · have hfeed : Scan.paint .code t = a ++ '\n' :: (margin ++ st.text ++ b) := by
        rw [← Scan.mask_eq_paint, hmask]
        simp
      obtain ⟨x, y, rfl, hx, -⟩ := Scan.exists_of_paint_eq hfeed (by decide)
      exact .inr ⟨x, y, rfl, by simp [hx]⟩
  · obtain ⟨a, line, b, rfl, hline, hspan, -⟩ := exists_of_mem_licenses hf
    refine .inr ?_
    rw [hspan]
    rcases eq_nil_or_exists_of_startsLine hline with rfl | ⟨a, rfl⟩
    · exact .inl rfl
    · exact .inr ⟨a, line ++ b, by simp, by simp⟩
  · exact .inl hs

/-- The first character in a cut that is not blank starts a word, unless the cut is a licence line. -/
theorem exists_word_of_mem_cutSpans (hstrip : ∀ s ∈ strip, ∃ d ∈ imports t, d.span = s) {s : Span}
    (hs : s ∈ cutSpans t strip) : (∃ f ∈ licenses t, f.span = s) ∨
      ∃ a w c r, mask t = a ++ (w ++ c :: r) ∧ byteSize a = s.start ∧
        (∀ d ∈ w, isBlank d = true) ∧ isWord c = true := by
  rw [cutSpans, List.mem_append, List.mem_append, List.mem_map, List.mem_map] at hs
  rcases hs with (hs | hs) | ⟨f, hf, rfl⟩
  · obtain ⟨e, he, rfl⟩ := hstrip s hs
    obtain ⟨a, margin, st, b, hmask, -, hmargin, -, hspan⟩ := exists_of_mem_imports he
    obtain ⟨u, hu, -⟩ := st.exists_text
    refine .inr ⟨a, margin, 'i', u ++ b, ?_, by rw [hspan],
      fun d hd => isBlank_of_isMargin (hmargin d hd), by decide⟩
    rw [hmask, hu]
    simp
  · exact .inl hs
  · obtain ⟨a, st, b, hmask, -, rfl⟩ := exists_form_of_mem_pragmas hf
    refine .inr ⟨a, [], 'p', pragmaKeyword.tail ++ st.gap ++ st.name ++ st.rest ++ ';' :: b, ?_, rfl,
      by simp, by decide⟩
    rw [hmask]
    simp [PragmaForm.text, pragmaKeyword]

end Source

end FlatSol
