import FlatSol.Proofs.Flatten.Portion
import FlatSol.Proofs.Source.CutEnds

/-!
# Header lines of a text with cuts

A cut begins at the start of a line or before the keyword of a pragma, and ends behind a semicolon,
white space or a line feed. So what is kept is never joined to a word, and where a pragma begins in
what is kept, one begins in the text. A licence mark may come to the start of a line when the
statement before it is cut; apart from this, what is kept has no licence line and begins no pragma.
-/

namespace FlatSol

open Text Scan

namespace Scan

/-- The states behind the slashes of a mark: inside a comment, or inside a literal. -/
def holdsMark : Scan → Bool
  | .line | .block => true
  | .literal q => isQuote q
  | _ => false

/-- Whether a character ends no line comment, and no block comment or literal by itself. -/
def isPlain (c : Char) : Bool :=
  c != '\n' && c != '*' && c != '\\' && !isQuote c

theorem holdsMark_next {s : Scan} {c : Char} (hs : s.holdsMark = true) (hc : isPlain c = true) :
    (s.next c).holdsMark = true := by
  have hplain : ((c ≠ '\n' ∧ c ≠ '*') ∧ c ≠ '\\') ∧ isQuote c = false := by
    simpa [isPlain] using hc
  obtain ⟨⟨⟨hfeed, hstar⟩, hback⟩, hquote⟩ := hplain
  cases s with
  | line =>
    rw [next, if_neg hfeed]
    rfl
  | block =>
    rw [next, if_neg hstar]
    rfl
  | literal q =>
    have hq : c ≠ q := by
      rintro rfl
      exact Bool.noConfusion (hquote.symm.trans hs)
    have hend : ¬ (c = q ∨ c = '\n') := not_or.2 ⟨hq, hfeed⟩
    rw [next, if_neg hback, if_neg hend]
    exact hs
  | code => exact Bool.noConfusion hs
  | slash => exact Bool.noConfusion hs
  | star => exact Bool.noConfusion hs
  | escape q => exact Bool.noConfusion hs

theorem holdsMark_after {s : Scan} {t : Text} (hs : s.holdsMark = true)
    (ht : ∀ c ∈ t, isPlain c = true) : (s.after t).holdsMark = true := by
  induction t generalizing s with
  | nil => exact hs
  | cons c cs ih =>
    obtain ⟨hc, hcs⟩ := List.forall_mem_cons.1 ht
    exact ih (holdsMark_next hs hc) hcs

/-- Slashes lead out of the code, unless the first one ends a block comment. -/
theorem after_slashes {s : Scan} (hs : s.quoted = true) (hstar : s ≠ .star) :
    s.next '/' ≠ .code ∧ ((s.next '/').next '/').holdsMark = true := by
  have hquote : ∀ q, isQuote q = true → '/' ≠ q := by
    rintro q hq rfl
    exact absurd hq (by decide)
  cases s with
  | code => exact ⟨Scan.noConfusion, rfl⟩
  | slash => exact ⟨Scan.noConfusion, rfl⟩
  | line => exact ⟨Scan.noConfusion, rfl⟩
  | block => exact ⟨Scan.noConfusion, rfl⟩
  | star => exact absurd rfl hstar
  | literal q =>
    have hnext : (Scan.literal q).next '/' = .literal q := by simp [next, hquote q hs]
    rw [hnext, hnext]
    exact ⟨Scan.noConfusion, hs⟩
  | escape q =>
    have hnext : (Scan.literal q).next '/' = .literal q := by simp [next, hquote q hs]
    exact ⟨Scan.noConfusion, by rw [next, hnext]; exact hs⟩

/-- No front of a mark leads into the code. -/
theorem after_mark_ne_code {s : Scan} (hs : s.quoted = true) (hstar : s ≠ .star) {u v w : Text}
    (hu : ∀ c ∈ u, isPlain c = true) (h : '/' :: '/' :: u = v ++ w) (hv : v ≠ []) :
    s.after v ≠ .code := by
  obtain ⟨hfirst, hsecond⟩ := after_slashes hs hstar
  cases v with
  | nil => exact absurd rfl hv
  | cons c cs =>
    obtain ⟨rfl, hcs⟩ := List.cons.inj h
    cases cs with
    | nil => exact hfirst
    | cons d ds =>
      obtain ⟨rfl, rfl⟩ := List.cons.inj hcs
      have hholds := holdsMark_after hsecond fun c hc => hu c (List.mem_append_left w hc)
      intro hcode
      have hafter : ((s.next '/').next '/').after ds = .code := hcode
      rw [hafter] at hholds
      exact Bool.noConfusion hholds

end Scan

namespace Source

variable {t : Text} {strip : List Span}

/-- Whether a byte offset of a text lies in none of the stretches that are cut. -/
def stays (t : Text) (strip : List Span) (n : Nat) : Bool :=
  !covers (cutSpans t strip) n

/-- Cuts that let no header line stay, and bring none about. -/
structure KeepsHeaders (t : Text) (strip : List Span) : Prop extends KeepsCode t strip where
  /-- A licence mark that stays, and starts a line of what is kept, starts its line in the text. -/
  marks : ∀ a b, t = a ++ b → startsMark b = true → stays t strip (byteSize a) = true →
    (lastLine (keep (stays t strip) 0 a)).all isMargin = true → (lastLine a).all isMargin = true
  /-- Where a pragma begins, there is a pragma statement. -/
  complete : ∀ a b, mask t = a ++ b → beginsPragma (lastLine a) b = true →
    (pragmaStatement a.getLast? b).isSome = true
  /-- Every pragma statement starts in the code. -/
  inCode : ∀ f ∈ pragmas t, Scan.code.after (takeBytes f.span.start t) = .code

/-! ### Seams -/

/-- The cut behind a character that stays starts there. -/
theorem exists_start_of_seam {u x y : Text} {c : Char} (hu : u = x ++ c :: y)
    (hfits : ∀ s ∈ cutSpans t strip, Fits u s) (hx : stays t strip (byteSize x) = true)
    (hc : stays t strip (byteSize (x ++ [c])) = false) :
    ∃ s ∈ cutSpans t strip, s.start = byteSize (x ++ [c]) := by
  have hcut : covers (cutSpans t strip) (byteSize (x ++ [c])) = true := by simpa [stays] using hc
  have hstay : covers (cutSpans t strip) (byteSize x) = false := by simpa [stays] using hx
  obtain ⟨s, hs, hstart, hstop⟩ := covers_eq_true_iff.1 hcut
  have hout := covers_eq_false_iff.1 hstay s hs
  have hboundary := not_inside_of_isBoundary (hu ▸ (hfits s hs).start)
  have hpos : 0 < c.utf8Size := Char.utf8Size_pos c
  refine ⟨s, hs, ?_⟩
  simp only [byteSize_append, byteSize_cons, byteSize_nil] at *
  omega

/-- The cut before a character that stays stops there. -/
theorem exists_stop_of_seam {u x y : Text} {c : Char} (hu : u = x ++ c :: y)
    (hfits : ∀ s ∈ cutSpans t strip, Fits u s) (hx : stays t strip (byteSize x) = false)
    (hc : stays t strip (byteSize (x ++ [c])) = true) :
    ∃ s ∈ cutSpans t strip, s.stop = byteSize (x ++ [c]) := by
  have hstay : covers (cutSpans t strip) (byteSize (x ++ [c])) = false := by simpa [stays] using hc
  have hcut : covers (cutSpans t strip) (byteSize x) = true := by simpa [stays] using hx
  obtain ⟨s, hs, hstart, hstop⟩ := covers_eq_true_iff.1 hcut
  have hout := covers_eq_false_iff.1 hstay s hs
  have hboundary := not_inside_of_isBoundary (hu ▸ (hfits s hs).stop)
  have hpos : 0 < c.utf8Size := Char.utf8Size_pos c
  refine ⟨s, hs, ?_⟩
  simp only [byteSize_append, byteSize_cons, byteSize_nil] at *
  omega

theorem fits_of_strip (hstrip : ∀ s ∈ strip, ∃ d ∈ imports t, d.span = s) :
    ∀ s ∈ cutSpans t strip, Fits t s := by
  refine fits_of_mem_cutSpans fun s hs => ?_
  obtain ⟨d, hd, rfl⟩ := hstrip s hs
  exact fits_of_mem_imports hd

/-- In the masked text, no cut begins behind a character of a word. -/
theorem isWord_of_seam (hstrip : ∀ s ∈ strip, ∃ d ∈ imports t, d.span = s) {x y : Text} {d : Char}
    (h : mask t = x ++ d :: y) (hx : stays t strip (byteSize x) = true)
    (hd : stays t strip (byteSize (x ++ [d])) = false) : isWord d = false := by
  have hfits : ∀ s ∈ cutSpans t strip, Fits (mask t) s := fun s hs =>
    Fits.mask (fits_of_strip hstrip s hs)
  obtain ⟨s, hs, hstart⟩ := exists_start_of_seam h hfits hx hd
  rcases start_of_mem_cutSpans hstrip hs with ⟨f, hf, rfl⟩ | hzero | ⟨a, b, rfl, ha⟩
  · obtain ⟨a, st, b, hmask, hword, rfl⟩ := exists_form_of_mem_pragmas hf
    have happend : mask t = x ++ [d] ++ y := by rw [h]; simp
    rw [List.append_assoc] at hmask
    obtain ⟨rfl, -⟩ := append_inj_of_byteSize_eq (hmask.symm.trans happend) hstart
    simpa [startsWord] using hword
  · have hpos : 0 < d.utf8Size := Char.utf8Size_pos d
    simp only [byteSize_append, byteSize_cons, byteSize_nil] at hstart
    omega
  · obtain ⟨z, hz⟩ := mask_append_lineFeed a b
    have hsize : byteSize (mask a ++ ['\n']) = byteSize (x ++ [d]) := by
      rw [← hstart, ← ha, byteSize_append, byteSize_append, byteSize_mask]
    obtain ⟨-, rfl, -⟩ := cons_inj_of_byteSize_eq (hz.symm.trans h) hsize
    decide

/-- In the text, a cut that does not begin at the start of a line begins in the code. -/
theorem after_of_seam (h : KeepsHeaders t strip)
    (hstrip : ∀ s ∈ strip, ∃ d ∈ imports t, d.span = s) {x y : Text} {c : Char}
    (ht : t = x ++ c :: y) (hne : c ≠ '\n') (hx : stays t strip (byteSize x) = true)
    (hc : stays t strip (byteSize (x ++ [c])) = false) : Scan.code.after (x ++ [c]) = .code := by
  obtain ⟨s, hs, hstart⟩ := exists_start_of_seam ht (fits_of_strip hstrip) hx hc
  rcases start_of_mem_cutSpans hstrip hs with ⟨f, hf, rfl⟩ | hzero | ⟨a, b, hab, ha⟩
  · have happend : t = x ++ [c] ++ y := by rw [ht]; simp
    have hcode := h.inCode f hf
    rwa [hstart, happend, takeBytes_byteSize_append] at hcode
  · have hpos : 0 < c.utf8Size := Char.utf8Size_pos c
    simp only [byteSize_append, byteSize_cons, byteSize_nil] at hstart
    omega
  · obtain ⟨-, hfeed, -⟩ := cons_inj_of_byteSize_eq (hab.symm.trans ht) (ha.trans hstart)
    exact absurd hfeed.symm hne

/-! ### What is kept -/

theorem ne_star_of_margin {a : Text} (h : (lastLine a).all isMargin = true) :
    Scan.code.after a ≠ .star := by
  rcases List.eq_nil_or_concat a with rfl | ⟨a, c, rfl⟩
  · exact Scan.noConfusion
  · rw [List.concat_eq_append] at h ⊢
    intro hstar
    rw [after_append] at hstar
    obtain rfl := (eq_of_next _ _).2 hstar
    have hline : lastLine (a ++ ['*']) = lastLine a ++ ['*'] :=
      List.rtakeWhile_concat_pos _ a '*' (by decide)
    rw [hline, List.all_append, Bool.and_eq_true] at h
    exact absurd h.2 (by decide)

theorem isPlain_of_mark {margin : Text} (h : ∀ c ∈ margin, isMargin c = true) :
    ∀ c ∈ margin ++ licenseMark, isPlain c = true := by
  have hmark : ∀ c ∈ licenseMark, isPlain c = true :=
    List.all_eq_true.1 (rfl : licenseMark.all isPlain = true)
  intro c hc
  rcases List.mem_append.1 hc with hc | hc
  · rcases isMargin_iff.1 (h c hc) with rfl | rfl <;> decide
  · exact hmark c hc

/-- A licence mark of what is kept is one of the text: a cut inside it would begin in the code, and
its slashes lead out of the code. -/
theorem exists_mark_of_keep (h : KeepsHeaders t strip)
    (hstrip : ∀ s ∈ strip, ∃ d ∈ imports t, d.span = s) {x y : Text}
    (hxy : keep (stays t strip) 0 t = x ++ y) (hline : (lastLine x).all isMargin = true)
    (hmark : startsMark y = true) :
    ∃ a b, t = a ++ b ∧ keep (stays t strip) 0 a = x ∧ stays t strip (byteSize a) = true ∧
      startsMark b = true := by
  obtain ⟨margin, r, hmargin, rfl⟩ := startsMark_eq_true_iff.1 hmark
  have hplain := isPlain_of_mark hmargin
  obtain ⟨a, b, ht, ha, hstay, hb⟩ := exists_of_keep_eq (y := '/' :: (margin ++ licenseMark) ++ r)
    (c := '/') (x := x) (hxy.trans (by simp))
  rw [Nat.zero_add] at hstay
  have hkept : keep (stays t strip) (byteSize a) ('/' :: b) =
      '/' :: '/' :: (margin ++ licenseMark) ++ r := by
    rw [keep, if_pos hstay]
    simpa using hb
  have hstate : Scan.code.after x = Scan.code.after a := by
    have hseam := h.seamless
    nth_rewrite 2 [ht] at hseam
    rw [← ha]
    exact after_keep_of_kept hseam hstay
  have hstar : Scan.code.after a ≠ .star := hstate ▸ ne_star_of_margin hline
  obtain ⟨r', hr', -, -⟩ := exists_append_of_keep_eq hkept hstay fun v d w z hu hz _ hv => by
    by_contra hcut
    rw [Bool.not_eq_true] at hcut
    have hd : d ≠ '\n' := by
      have hmem : d ∈ '/' :: '/' :: (margin ++ licenseMark) := by rw [hu]; simp
      rintro rfl
      rcases List.mem_cons.1 hmem with hmem | hmem
      · exact absurd hmem (by decide)
      · rcases List.mem_cons.1 hmem with hmem | hmem
        · exact absurd hmem (by decide)
        · exact absurd (hplain _ hmem) (by decide)
    have hplace : t = (a ++ v) ++ d :: z := by rw [ht, hz, List.append_assoc]
    rw [← byteSize_append] at hv hcut
    rw [← List.append_assoc] at hcut
    have hcode := after_of_seam h hstrip hplace hd hv hcut
    rw [List.append_assoc, after_append] at hcode
    exact after_mark_ne_code (quoted_after rfl a) hstar hplain (v := v ++ [d]) (w := w)
      (by rw [hu]; simp) (by simp) hcode
  refine ⟨a, '/' :: b, ht, ha, hstay, ?_⟩
  rw [hr']
  exact startsMark_eq_true_iff.2 ⟨margin, r', hmargin, by simp⟩

/-- What is kept of a text has no licence line. -/
theorem lacks_license_keep (h : KeepsHeaders t strip)
    (hstrip : ∀ s ∈ strip, ∃ d ∈ imports t, d.span = s) :
    Lacks beginsLicense (keep (stays t strip) 0 t) := by
  intro x y hxy
  rw [Bool.eq_false_iff]
  intro hbegins
  obtain ⟨hline, hmark⟩ := Bool.and_eq_true_iff.1 hbegins
  obtain ⟨a, b, rfl, rfl, hstay, hmark'⟩ := exists_mark_of_keep h hstrip hxy hline hmark
  have hstart := h.marks a b rfl hmark' hstay hline
  have hcover := covers_of_beginsLicense (Bool.and_eq_true_iff.2 ⟨hstart, hmark'⟩)
  have hcut : covers (cutSpans (a ++ b) strip) (byteSize a) = true := by
    rw [cutSpans, covers_append, covers_append, hcover, Bool.or_true, Bool.true_or]
  rw [stays, hcut] at hstay
  exact Bool.noConfusion hstay

/-- A word that starts in what is kept starts in the masked text. -/
theorem startsWord_of_keep (hstrip : ∀ s ∈ strip, ∃ d ∈ imports t, d.span = s) {a b : Text}
    (ht : mask t = a ++ b) (hb : b ≠ []) (hstay : stays t strip (byteSize a) = true)
    (h : startsWord (keep (stays t strip) 0 a).getLast? = true) :
    startsWord a.getLast? = true := by
  rcases List.eq_nil_or_concat a with rfl | ⟨a, d, rfl⟩
  · rfl
  · rw [List.concat_eq_append] at *
    have hplace : mask t = a ++ d :: b := by rw [ht]; simp
    rw [List.getLast?_concat]
    cases hd : stays t strip (byteSize a) with
    | true =>
      rw [keep_append, keep, if_pos (by rwa [Nat.zero_add]), keep, List.getLast?_concat] at h
      exact h
    | false =>
      have hfits : ∀ s ∈ cutSpans t strip, Fits (mask t) s := fun s hs =>
        Fits.mask (fits_of_strip hstrip s hs)
      obtain ⟨s, hs, hstop⟩ := exists_stop_of_seam hplace hfits hd hstay
      have hword := isWord_of_stop hstrip hs hplace hb hstop
      simp [startsWord, hword]

/-- Behind a character that stays, the first character that is not blank starts a word if it is cut. -/
theorem isWord_of_cut (h : KeepsHeaders t strip)
    (hstrip : ∀ s ∈ strip, ∃ d ∈ imports t, d.span = s) {x gap y : Text} {d : Char}
    (ht : mask t = x ++ gap ++ d :: y) (hgap : ∀ c ∈ gap, isBlank c = true)
    (hd : isBlank d = false) (hstay : stays t strip (byteSize x) = true)
    (hcut : stays t strip (byteSize (x ++ gap)) = false) : isWord d = true := by
  have hcover : covers (cutSpans t strip) (byteSize (x ++ gap)) = true := by simpa [stays] using hcut
  have hout : covers (cutSpans t strip) (byteSize x) = false := by simpa [stays] using hstay
  obtain ⟨s, hs, hstart, hstop⟩ := covers_eq_true_iff.1 hcover
  have hfirst := covers_eq_false_iff.1 hout s hs
  rw [byteSize_append] at hstart hstop
  rcases exists_word_of_mem_cutSpans hstrip hs with ⟨f, hf, rfl⟩ | ⟨a, w, c, r, hmask, ha, hw, hc⟩
  · -- a licence line is blank in the masked text
    have hmem : d ∈ slice f.span (mask t) := by
      rw [slice_eq_keep (Fits.mask (fits_of_mem_licenses hf)), mem_keep_iff]
      refine ⟨x ++ gap, y, ht, covers_eq_true_iff.2 ⟨f.span, List.mem_singleton_self _, ?_, ?_⟩⟩
      · rw [byteSize_append, Nat.zero_add]
        exact hstart
      · rw [byteSize_append, Nat.zero_add]
        exact hstop
    rw [h.licenses f hf d hmem] at hd
    exact Bool.noConfusion hd
  · -- the cut starts in the gap
    have hle : byteSize x ≤ byteSize a := by omega
    rw [List.append_assoc] at ht
    obtain ⟨z, rfl, hz⟩ := exists_append_of_byteSize_le (ht.symm.trans hmask) hle
    rw [byteSize_append] at ha
    obtain ⟨v, rfl, hv⟩ := exists_append_of_byteSize_le hz.symm (by omega)
    have hblank : ∀ c ∈ v, isBlank c = true := fun c hc => hgap c (List.mem_append_right z hc)
    obtain rfl := head_inj_of_append hv hw hblank (isBlank_of_isWord hc) hd
    exact hc

/-- What follows the keyword of a pragma in what is kept follows it in the masked text. -/
theorem followsKeyword_of_keep (h : KeepsHeaders t strip)
    (hstrip : ∀ s ∈ strip, ∃ d ∈ imports t, d.span = s) {x r : Text} {c : Char}
    (ht : mask t = x ++ c :: r) (hc : isWord c = true) (hstay : stays t strip (byteSize x) = true)
    (hkept : followsKeyword (keep (stays t strip) (byteSize (x ++ [c])) r) = true) :
    followsKeyword r = true := by
  cases r with
  | nil => rfl
  | cons e es =>
    have hnext : stays t strip (byteSize (x ++ [c])) = true := by
      by_contra hcut
      rw [Bool.not_eq_true] at hcut
      rw [isWord_of_seam hstrip ht hstay hcut] at hc
      exact Bool.noConfusion hc
    have hfirst : keep (stays t strip) (byteSize (x ++ [c])) (e :: es) =
        e :: keep (stays t strip) (byteSize (x ++ [c]) + e.utf8Size) es := by
      rw [keep, if_pos hnext]
    rw [followsKeyword_eq_true_iff] at hkept ⊢
    rcases hkept with hnil | ⟨gap, v, hsplit, hne, hgap, hv⟩
    · rw [hfirst] at hnil
      cases hnil
    have he : isBlank e = true := by
      obtain ⟨f, fs, rfl⟩ := List.exists_cons_of_ne_nil hne
      obtain ⟨rfl, -⟩ := List.cons.inj (hfirst.symm.trans hsplit)
      exact hgap e (List.mem_cons_self ..)
    obtain ⟨g, w, hw, hg, htake, -, hhead⟩ := exists_takeWhile_append (p := isBlank) (t := e :: es)
    have hgne : g ≠ [] := by
      rw [← htake, List.takeWhile_cons_of_pos he]
      exact List.cons_ne_nil _ _
    refine .inr ⟨g, w, hw, hgne, hg, fun d hd => ?_⟩
    have hblank := hhead d hd
    cases w with
    | nil => cases hd
    | cons f fs =>
      obtain rfl : f = d := by simpa using hd
      cases hplace : stays t strip (byteSize (x ++ [c] ++ g)) with
      | false =>
        have hmask : mask t = x ++ [c] ++ g ++ f :: fs := by rw [ht, hw]; simp
        exact isWord_of_cut h hstrip hmask hg hblank hnext hplace
      | true =>
        -- kept, it is the first character that is not blank in what is kept
        have hkeep : ∀ d ∈ keep (stays t strip) (byteSize (x ++ [c])) g, isBlank d = true := by
          intro d hd
          obtain ⟨a, b, rfl, -⟩ := mem_keep_iff.1 hd
          exact hg d (by simp)
        rw [hw, keep_append, keep, if_pos (by rwa [← byteSize_append])] at hsplit
        cases v with
        | nil =>
          have hmem : f ∈ gap := by
            rw [List.append_nil] at hsplit
            rw [← hsplit]
            simp
          rw [hgap f hmem] at hblank
          exact Bool.noConfusion hblank
        | cons k ks =>
          have hk := hv k rfl
          obtain rfl := head_inj_of_append hsplit hkeep hgap hblank (isBlank_of_isWord hk)
          exact hk

/-- In what is kept of a text, no pragma begins. -/
theorem lacks_pragma_keep (h : KeepsHeaders t strip)
    (hstrip : ∀ s ∈ strip, ∃ d ∈ imports t, d.span = s) :
    Lacks beginsPragma (keep (stays t strip) 0 (mask t)) := by
  intro x y hxy
  rw [Bool.eq_false_iff]
  intro hbegins
  obtain ⟨hword, r, rfl, hfollows⟩ := beginsPragma_eq_true_iff.1 hbegins
  rw [startsWord_lastLine] at hword
  obtain ⟨a, b, ht, rfl, hstay, hb⟩ := exists_of_keep_eq (c := 'p') (x := x)
    (y := pragmaKeyword.tail ++ r) hxy
  rw [Nat.zero_add] at hstay
  have hkept : keep (stays t strip) (byteSize a) ('p' :: b) = pragmaKeyword ++ r := by
    rw [keep, if_pos hstay]
    simpa [pragmaKeyword] using hb
  have hletters : ∀ c ∈ pragmaKeyword, isWord c = true :=
    List.all_eq_true.1 (rfl : pragmaKeyword.all isWord = true)
  obtain ⟨r', hr', hrest, hplaces⟩ := exists_append_of_keep_eq hkept hstay fun v d w z hu hz _ hv => by
    by_contra hcut
    rw [Bool.not_eq_true] at hcut
    have hplace : mask t = (a ++ v) ++ d :: z := by rw [ht, hz, List.append_assoc]
    rw [← byteSize_append] at hv hcut
    rw [← List.append_assoc] at hcut
    have hd := isWord_of_seam hstrip hplace hv hcut
    rw [hletters d (by rw [hu]; simp)] at hd
    exact Bool.noConfusion hd
  rw [hr'] at ht
  have hfollows' : followsKeyword r' = true := by
    have hlast := hplaces pragmaKeyword.dropLast 'a' [] rfl
    have hplace : mask t = (a ++ pragmaKeyword.dropLast) ++ 'a' :: r' := by
      rw [ht]
      simp [pragmaKeyword]
    rw [← byteSize_append] at hlast
    refine followsKeyword_of_keep h hstrip hplace (by decide) hlast ?_
    have hwhole : a ++ pragmaKeyword.dropLast ++ ['a'] = a ++ pragmaKeyword := by
      simp [pragmaKeyword]
    rw [hwhole, byteSize_append, hrest]
    exact hfollows
  have hstart := startsWord_of_keep hstrip ht (by simp [pragmaKeyword]) hstay hword
  rw [← startsWord_lastLine] at hstart
  have hbegin := beginsPragma_eq_true_iff.2 ⟨hstart, r', rfl, hfollows'⟩
  obtain ⟨m, hm⟩ := Option.isSome_iff_exists.1 (h.complete a _ ht hbegin)
  have hcover := covers_of_pragmaStatement ht hm
  have hcut : covers (cutSpans t strip) (byteSize a) = true := by
    rw [cutSpans, covers_append, hcover, Bool.or_true]
  rw [stays, hcut] at hstay
  exact Bool.noConfusion hstay

end Source

end FlatSol
