import FlatSol.Proofs.Source.Body
import FlatSol.Proofs.Source.ReadsLines

/-!
# Line ends of a source text

What is found in a text, and what is left of it, when its line feeds are written as a carriage return
and a line feed. The masked texts have the same lines, unless a line feed is escaped in a literal: in its
place the return is escaped then, and the line feed ends the literal. Main statement: else the parts of
the text are the same, and so are the paths of its imports, except for those that run over a line feed.
-/

namespace FlatSol

open Text

namespace Scan

/-! ### Masking -/

/-- Whether no line feed stands behind a backslash in a literal. -/
def feedsHold : Scan → Text → Bool
  | _, [] => true
  | s, c :: cs => !(s.isEscape && c == '\n') && feedsHold (s.next c) cs

theorem any_opens_crlf (t : Text) : (crlf t).head?.any opens = t.head?.any opens := by
  cases t with
  | nil => rfl
  | cons c cs =>
    by_cases hc : c = '\n'
    · subst hc
      rfl
    · rw [crlf_cons hc]
      rfl

theorem shown_return (s : Scan) (t : Text) : ∃ e, shown s '\r' t = [e] ∧ isReturn e = true := by
  rcases shown_cases s '\r' t with h | h
  · exact ⟨'\r', h, rfl⟩
  · exact ⟨' ', h, rfl⟩

/-- Where no line feed is escaped, a return in front of it changes nothing behind it. -/
theorem next_return_lineFeed {s : Scan} (hs : s.quoted = true) (he : s.isEscape = false) :
    (s.next '\r').next '\n' = s.next '\n' :=
  (Trails.next_of_isBlank (k := s) (.inl rfl) hs he rfl (by decide)).next_lineFeed.symm

theorem lineFeed_notMem_shown {s : Scan} {c : Char} (hc : c ≠ '\n') (t : Text) :
    '\n' ∉ shown s c t := by
  intro hmem
  rcases shown_cases s c t with h | h
  · rw [h, List.mem_singleton] at hmem
    exact hc hmem.symm
  · rw [h] at hmem
    exact absurd (List.eq_of_mem_replicate hmem) (by decide)

theorem sameLines_paint {s : Scan} {t : Text} (hs : s.quoted = true) (h : feedsHold s t = true) :
    SameLines Added (paint s t) (paint s (crlf t)) := by
  induction t generalizing s with
  | nil => exact .nil
  | cons c cs ih =>
    obtain ⟨hesc, hrest⟩ := Bool.and_eq_true_iff.1 h
    have hlines := ih (quoted_next hs c) hrest
    by_cases hc : c = '\n'
    · subst hc
      have he : s.isEscape = false := by simpa using hesc
      obtain ⟨e, hshown, hreturn⟩ := shown_return s ('\n' :: crlf cs)
      rw [crlf_lineFeed, paint, paint, paint, shown_lineFeed, shown_lineFeed, hshown,
        next_return_lineFeed hs he]
      exact .line (u := []) (v := [e]) ⟨rfl, e, rfl⟩ (by simp [Returns])
        (by simpa [Returns] using hreturn) hlines
    · have hshown : shown s c (crlf cs) = shown s c cs := shown_congr fun _ => any_opens_crlf cs
      rw [crlf_cons hc, paint, paint, hshown]
      exact (SameLines.refl_of_notMem Added (lineFeed_notMem_shown hc cs)).append hlines

theorem count_takeBytes_spaces (k n : Nat) (t : Text) :
    (takeBytes n (List.replicate k ' ' ++ t)).count '\n' = (takeBytes (n - k) t).count '\n' := by
  have hspace : Char.utf8Size ' ' = 1 := rfl
  induction k generalizing n with
  | zero => rfl
  | succ k ih =>
    rw [List.replicate_succ, List.cons_append]
    cases n with
    | zero => simp
    | succ n =>
      rw [takeBytes, List.count_cons_of_ne (by decide), hspace, Nat.add_sub_cancel, ih,
        Nat.succ_sub_succ]

/-- A text and its masked form have their line feeds at the same offsets. -/
theorem count_takeBytes_paint (s : Scan) (t : Text) (n : Nat) :
    (takeBytes n (paint s t)).count '\n' = (takeBytes n t).count '\n' := by
  induction t generalizing s n with
  | nil => rfl
  | cons c cs ih =>
    cases n with
    | zero => simp
    | succ n =>
      by_cases hc : c = '\n'
      · subst hc
        rw [paint, shown_lineFeed, List.singleton_append, takeBytes, takeBytes, List.count_cons_self,
          List.count_cons_self, ih]
      rw [paint, takeBytes, List.count_cons_of_ne hc]
      rcases shown_cases s c cs with h | h
      · rw [h, List.singleton_append, takeBytes, List.count_cons_of_ne hc, ih]
      · rw [h, count_takeBytes_spaces, ih]

end Scan

namespace Source

theorem sameLines_mask {t : Text} (h : Scan.feedsHold .code t = true) :
    SameLines Added (mask t) (mask (crlf t)) := by
  rw [Scan.mask_eq_paint, Scan.mask_eq_paint]
  exact Scan.sameLines_paint rfl h

theorem movedSpan_mask (t : Text) (s : Span) : movedSpan (mask t) s = movedSpan t s := by
  simp only [movedSpan, moved, Scan.mask_eq_paint, Scan.count_takeBytes_paint]

/-! ### The rest of a line -/

theorem exists_restOfLine {t : Text} (h : '\r' ∉ t) : ∃ z, t = ImportLine.restOfLine t ++ z ∧
    ImportLine.restOfLine (crlf t) = crlf (ImportLine.restOfLine t) := by
  induction t with
  | nil => exact ⟨[], rfl, rfl⟩
  | cons c cs ih =>
    obtain ⟨hreturn, hcs⟩ : '\r' ≠ c ∧ '\r' ∉ cs := by simpa using h
    by_cases hc : c = '\n'
    · subst hc
      exact ⟨cs, rfl, rfl⟩
    rw [crlf_cons hc]
    cases hmargin : isMargin c with
    | true =>
      obtain ⟨z, hz, hrest⟩ := ih hcs
      rw [ImportLine.restOfLine_cons_of_isMargin hmargin,
        ImportLine.restOfLine_cons_of_isMargin hmargin, crlf_cons hc, hrest]
      exact ⟨z, congrArg (c :: ·) hz, rfl⟩
    | false =>
      have hnil : ∀ u, ImportLine.restOfLine (c :: u) = [] := by
        intro u
        simp only [ImportLine.restOfLine, List.takeWhile_cons, List.dropWhile_cons, hmargin,
          Bool.false_eq_true, if_false, List.nil_append]
        unfold ImportLine.lineBreak
        split
        · next heq => exact absurd (List.cons.inj heq).1.symm hreturn
        · next heq => exact absurd (List.cons.inj heq).1 hc
        · rfl
      rw [hnil, hnil]
      exact ⟨c :: cs, rfl, rfl⟩

/-- The rest of a line ends with its line feed, with or without a return. -/
theorem lineRestEnd_crlf {t : Text} {n : Nat} (h : '\r' ∉ t) (hn : isBoundary n t = true) :
    lineRestEnd (crlf t) (moved t n) = moved t (lineRestEnd t n) := by
  obtain ⟨a, b, rfl, rfl⟩ := isBoundary_iff.1 hn
  obtain ⟨z, hz, hrest⟩ := exists_restOfLine fun hmem => h (List.mem_append_right a hmem)
  have hend : moved (a ++ b) (byteSize (a ++ ImportLine.restOfLine b)) =
      byteSize (crlf (a ++ ImportLine.restOfLine b)) := by
    have hwhole : a ++ b = a ++ ImportLine.restOfLine b ++ z := by rw [List.append_assoc, ← hz]
    rw [hwhole, moved_crlf]
  rw [moved_crlf, crlf_append, ImportLine.lineRestEnd_append, ImportLine.lineRestEnd_append, hrest,
    ← byteSize_append, ← byteSize_append, hend, crlf_append]

/-! ### What is found -/

variable {α β γ : Type}

theorem map_eq_of_forall₂ {R : α → β → Prop} {f : α → γ} {g : β → γ} {l : List α} {u : List β}
    (h : List.Forall₂ R l u) (hR : ∀ a b, R a b → g b = f a) : u.map g = l.map f := by
  induction h with
  | nil => rfl
  | cons hab _ ih => rw [List.map_cons, List.map_cons, hR _ _ hab, ih]

theorem map_eq_iff_notMem {f : α → Text} {l u : List α}
    (h : List.Forall₂ (fun d e => SameLines Added (f d) (f e)) l u) :
    u.map f = l.map f ↔ ∀ d ∈ l, '\n' ∉ f d := by
  induction h with
  | nil => simp
  | cons hlines _ ih =>
    rw [List.map_cons, List.map_cons, List.cons.injEq, hlines.eq_iff_notMem, ih,
      List.forall_mem_cons]

/-- A match at the moved offsets. -/
def movedFound (t : Text) (f : Found α) : Found α :=
  ⟨movedSpan t f.span, f.value⟩

/-- Licence lines are found in the text itself, whatever its literals hold. -/
theorem licenses_crlf (t : Text) : licenses (crlf t) = (licenses t).map (movedFound t) := by
  have hfound := Pattern.findAll_added readsLines_license (sameLines_crlf t)
  rw [licenses, licenses, ← List.map_id (licenseLine.findAll (crlf t))]
  refine map_eq_of_forall₂ hfound ?_
  rintro f ⟨span, value⟩ ⟨rfl, rfl⟩
  rfl

section Returns

variable {t : Text} (h : '\r' ∉ t) (hmask : SameLines Added (mask t) (mask (crlf t)))

include h

theorem movedSpan_lineRestEnd {s : Span} (hs : isBoundary s.stop t = true) :
    (⟨(movedSpan t s).start, lineRestEnd (crlf t) (movedSpan t s).stop⟩ : Span) =
      movedSpan t ⟨s.start, lineRestEnd t s.stop⟩ := by
  simp only [movedSpan, lineRestEnd_crlf h hs]

include hmask

/-- The imports stand at the moved offsets, and their paths have the same lines. -/
theorem imports_crlf : List.Forall₂
    (fun d e : ImportDirective => e.span = movedSpan t d.span ∧ SameLines Added d.path e.path)
    (imports t) (imports (crlf t)) := by
  have hfound := (List.forall₂_and_left _ _).2 ⟨fun f hf => isBoundary_stop_of_import hf,
    Pattern.findAll_added readsLines_import hmask⟩
  rw [imports, imports, List.forall₂_map_left_iff, List.forall₂_map_right_iff]
  refine hfound.imp ?_
  rintro f g ⟨hstop, hspan, hpath⟩
  rw [movedSpan_mask] at hspan
  refine ⟨?_, hpath⟩
  simp only [hspan]
  exact movedSpan_lineRestEnd h hstop

theorem pragmas_crlf : pragmas (crlf t) = (pragmas t).map (movedFound t) := by
  have hfound := (List.forall₂_and_left _ _).2 ⟨fun f hf => isBoundary_stop_of_pragma hf,
    Pattern.findAll_added readsLines_pragma hmask⟩
  rw [pragmas, pragmas, List.map_map]
  refine map_eq_of_forall₂ hfound ?_
  rintro f g ⟨hstop, hspan, hvalue⟩
  rw [movedSpan_mask] at hspan
  simp only [Function.comp_apply, movedFound, hspan, ← hvalue, movedSpan_lineRestEnd h hstop]

/-! ### What is left -/

theorem cutSpans_crlf (strip : List Span) :
    cutSpans (crlf t) (strip.map (movedSpan t)) = (cutSpans t strip).map (movedSpan t) := by
  rw [cutSpans, cutSpans, licenses_crlf, pragmas_crlf h hmask]
  simp only [List.map_append, List.map_map]
  rfl

/-- Cut at the moved offsets, a text with returns added falls into the same parts. -/
theorem split_crlf {strip : List Span} (hstrip : ∀ s ∈ strip, Fits t s) :
    split (crlf t) (strip.map (movedSpan t)) = split t strip := by
  have hpragmas : (pragmas (crlf t)).map Found.value = (pragmas t).map Found.value := by
    rw [pragmas_crlf h hmask, List.map_map]
    rfl
  have hlicense : (licenses (crlf t)).head?.map Found.value =
      (licenses t).head?.map Found.value := by
    rw [licenses_crlf, List.head?_map, Option.map_map]
    rfl
  have hbody : asBlock (cut (cutSpans (crlf t) (strip.map (movedSpan t))) (crlf t)) =
      asBlock (cut (cutSpans t strip) t) := by
    rw [cutSpans_crlf h hmask, cut_crlf (fits_of_mem_cutSpans hstrip), asBlock_crlf]
  rw [split, split, hpragmas, hlicense, hbody]

end Returns

/-- If no line feed of a text is escaped in a literal, the parts of the text without its imports do not
depend on whether its lines end in a line feed or in a carriage return and a line feed. Nor do the paths
of the imports, unless one of them runs over a line feed. -/
theorem split?_crlf (t : Text) (hreturn : '\r' ∉ t) (hfeeds : Scan.feedsHold .code t = true) :
    (∃ parts, split? t ((imports t).map ImportDirective.span) = some parts ∧
      split? (crlf t) ((imports (crlf t)).map ImportDirective.span) = some parts) ∧
    ((imports (crlf t)).map ImportDirective.path = (imports t).map ImportDirective.path ↔
      ∀ d ∈ imports t, '\n' ∉ d.path) := by
  have hmask := sameLines_mask hfeeds
  have hfound := imports_crlf hreturn hmask
  have hspans : (imports (crlf t)).map ImportDirective.span =
      ((imports t).map ImportDirective.span).map (movedSpan t) := by
    rw [List.map_map]
    exact map_eq_of_forall₂ hfound fun d e hde => hde.1
  have hfits : ∀ {t : Text}, ∀ s ∈ (imports t).map ImportDirective.span, Fits t s := by
    intro t s hs
    obtain ⟨d, hd, rfl⟩ := List.mem_map.1 hs
    exact fits_of_mem_imports hd
  refine ⟨⟨_, split?_of_fits hfits, ?_⟩, map_eq_iff_notMem (hfound.imp fun d e hde => hde.2)⟩
  rw [split?_of_fits hfits, hspans, split_crlf hreturn hmask hfits]

/-- A text with an import and a line of every kind. -/
def headedText : Text :=
  "// SPDX-License-Identifier: MIT\npragma\nsolidity ^0.8.0;\nimport './B' ;\nA \n".toList

theorem split?_crlf_headed : '\r' ∉ headedText ∧ Scan.feedsHold .code headedText = true ∧
    (imports headedText).map ImportDirective.path = ["./B".toList] ∧
      (imports (crlf headedText)).map ImportDirective.path = ["./B".toList] ∧
        ∃ parts, split? headedText ((imports headedText).map ImportDirective.span) = some parts ∧
          split? (crlf headedText) ((imports (crlf headedText)).map ImportDirective.span) =
            some parts := by
  have hreturn : '\r' ∉ headedText := by decide
  have hfeeds : Scan.feedsHold .code headedText = true := by decide
  have hpaths : (imports headedText).map ImportDirective.path = ["./B".toList] := by cbv
  obtain ⟨hparts, hsame⟩ := split?_crlf headedText hreturn hfeeds
  refine ⟨hreturn, hfeeds, hpaths, ?_, hparts⟩
  rw [← hpaths]
  refine hsame.2 fun d hd => ?_
  have hd' : d.path ∈ ["./B".toList] := hpaths ▸ List.mem_map_of_mem hd
  rw [List.mem_singleton.1 hd']
  decide

/-- A literal that goes on behind an escaped line feed, and an import below it. -/
def escapedText : Text :=
  "s = \"\\\n/*\";\nimport './B';".toList

/-- With returns added, the literal ends in its first line and a comment opens in the second one, so the
statement is not found. A path that runs over a line feed takes the return. -/
theorem imports_crlf_escaped : '\r' ∉ escapedText ∧
    (imports escapedText).map ImportDirective.path = ["./B".toList] ∧
      imports (crlf escapedText) = [] ∧
        (split escapedText ((imports escapedText).map ImportDirective.span)).body =
          "s = \"\\\n/*\";".toList ∧ (split (crlf escapedText) []).body = escapedText ∧
    (imports "import 'a\nb';".toList).map ImportDirective.path = ["a\nb".toList] ∧
      (imports (crlf "import 'a\nb';".toList)).map ImportDirective.path = ["a\r\nb".toList] :=
  ⟨by decide, by cbv, by cbv, by cbv, by cbv, by cbv, by cbv⟩

end Source

end FlatSol
