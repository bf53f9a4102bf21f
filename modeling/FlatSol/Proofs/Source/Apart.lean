import FlatSol.Proofs.Source.ImportLayout
import FlatSol.Proofs.Source.Spans

/-!
# Import statements lie apart

The spans of the imports of a text, each with the rest of its last line, are in order and do not
overlap: an import starts a line, and the rest of a line ends with its line feed.
-/

namespace FlatSol

open Text

namespace Pattern

variable {α : Type} {p : Pattern α}

/-- A search takes nothing in what a match before it covers. -/
theorem le_start_of_covered (t : Text) (offset covered : Nat) (before : Option Char) :
    ∀ f ∈ p.findFrom offset covered before t,
      offset + byteSize (t.take covered) ≤ f.span.start := by
  induction t generalizing offset covered before with
  | nil => simp [findFrom]
  | cons c cs ih =>
    intro f hf
    cases covered with
    | zero => exact offset_le_start p _ _ _ _ f hf
    | succ k =>
      have hle := ih (offset + c.utf8Size) k (some c) f (by simpa [findFrom] using hf)
      rw [List.take_succ_cons, byteSize_cons, ← Nat.add_assoc]
      exact hle

/-- A match ends where the next one begins, or before. -/
theorem pairwise_stop (t : Text) (offset covered : Nat) (before : Option Char) :
    (p.findFrom offset covered before t).Pairwise fun f g => f.span.stop ≤ g.span.start := by
  induction t generalizing offset covered before with
  | nil => exact .nil
  | cons c cs ih =>
    cases covered with
    | succ k => exact ih _ _ _
    | zero =>
      rw [findFrom]
      split
      · next m _ =>
        refine List.pairwise_cons.2 ⟨fun g hg => ?_, ih _ _ _⟩
        have hle := le_start_of_covered cs _ _ _ g hg
        cases hm : m.length with
        | zero =>
          simp only [List.take_zero, byteSize_nil]
          omega
        | succ k =>
          rw [hm, Nat.add_sub_cancel] at hle
          simp only [List.take_succ_cons, byteSize_cons]
          omega
      · exact ih _ _ _

end Pattern

/-! ### The rest of a line -/

theorem ImportLine.restOfLine_cons_of_isMargin {c : Char} (h : isMargin c = true) (t : Text) :
    ImportLine.restOfLine (c :: t) = c :: ImportLine.restOfLine t := by
  simp [ImportLine.restOfLine, h]

/-- The rest of a line ends with the first line feed, or before. -/
theorem ImportLine.byteSize_restOfLine_le (z y : Text) :
    byteSize (ImportLine.restOfLine (z ++ '\n' :: y)) ≤ byteSize (z ++ ['\n']) := by
  induction z with
  | nil => simp [ImportLine.restOfLine, ImportLine.lineBreak, isMargin]
  | cons c cs ih =>
    cases hc : isMargin c with
    | true =>
      rw [List.cons_append, List.cons_append, restOfLine_cons_of_isMargin hc, byteSize_cons,
        byteSize_cons]
      omega
    | false =>
      have hcr : Char.utf8Size '\r' = 1 := rfl
      have hlf : Char.utf8Size '\n' = 1 := rfl
      simp only [ImportLine.restOfLine, List.cons_append, List.takeWhile_cons, List.dropWhile_cons, hc,
        Bool.false_eq_true, if_false, List.nil_append, byteSize_cons, byteSize_append, byteSize_nil]
      unfold ImportLine.lineBreak
      split
      · next heq =>
        obtain ⟨rfl, -⟩ := List.cons.inj heq
        simp only [byteSize_cons, byteSize_nil]
        omega
      · next heq =>
        obtain ⟨rfl, -⟩ := List.cons.inj heq
        simp only [byteSize_cons, byteSize_nil]
        omega
      · simp

namespace Source

theorem exists_semicolon_of_import {t : Text} {f : Found Text}
    (h : f ∈ importStatement.findAll (mask t)) :
    ∃ u v, mask t = u ++ ';' :: v ∧ f.span.stop = byteSize (u ++ [';']) := by
  obtain ⟨a, b, m, hmask, hm, rfl⟩ := Pattern.exists_of_mem_findAll h
  obtain ⟨-, margin, s, behind, -, rfl, rfl⟩ := exists_of_importStatement hm
  have htext : margin ++ s.text = (margin ++ importKeyword ++ s.inside) ++ [';'] := by
    simp [Statement.text]
  refine ⟨a ++ (margin ++ importKeyword ++ s.inside), behind, by rw [hmask, htext]; simp, ?_⟩
  have hwhole : a ++ (margin ++ importKeyword ++ s.inside) ++ [';'] = a ++ (margin ++ s.text) := by
    rw [htext, List.append_assoc]
  simp only [hwhole, List.take_left, byteSize_append]

theorem isBoundary_stop_of_import {t : Text} {f : Found Text}
    (h : f ∈ importStatement.findAll (mask t)) : isBoundary f.span.stop t = true := by
  obtain ⟨u, v, hmask, hstop⟩ := exists_semicolon_of_import h
  rw [hstop, byteSize_append]
  exact (isBoundary_of_mask_eq hmask (by decide)).2

theorem lineRestEnd_le_of_lineFeed {t x y : Text} {n : Nat} (ht : t = x ++ '\n' :: y)
    (hn : isBoundary n t = true) (hle : n ≤ byteSize x) :
    lineRestEnd t n ≤ byteSize (x ++ ['\n']) := by
  obtain ⟨a, b, rfl, rfl⟩ := isBoundary_iff.1 hn
  obtain ⟨z, rfl, rfl⟩ := exists_append_of_byteSize_le ht hle
  have hrest := ImportLine.byteSize_restOfLine_le z y
  rw [ImportLine.lineRestEnd_append]
  simp only [byteSize_append] at hrest ⊢
  omega

/-- The span of an import ends where the next import begins, or before. -/
theorem pairwise_imports (t : Text) :
    (imports t).Pairwise fun d e => d.span.stop ≤ e.span.start := by
  rw [imports, List.pairwise_map]
  refine (Pattern.pairwise_stop (p := importStatement) (mask t) 0 0 none).imp_of_mem ?_
  intro f g hf hg hle
  obtain ⟨u, v, hu, hsize⟩ := exists_semicolon_of_import hf
  obtain ⟨a, b, m, hmask, hm, rfl⟩ := Pattern.exists_of_mem_findAll hg
  obtain ⟨hline, -⟩ := exists_of_importStatement hm
  rw [hsize] at hle
  rcases eq_nil_or_exists_of_startsLine hline with rfl | ⟨a, rfl⟩
  · have hsemicolon : Char.utf8Size ';' = 1 := rfl
    simp only [byteSize_append, byteSize_cons, byteSize_nil] at hle
    omega
  -- the statement before ends in a semicolon, so the line feed stands behind it
  have happend : u ++ [';'] ++ v = a ++ ['\n'] ++ b := by
    rw [← hmask, hu]
    simp
  obtain ⟨z, hz, -⟩ := exists_append_of_byteSize_le happend hle
  rcases List.eq_nil_or_concat z with rfl | ⟨z, c, rfl⟩
  · simp at hz
  obtain ⟨hfront, -⟩ := List.append_inj' (by simpa using hz : a ++ ['\n'] = u ++ ';' :: z ++ [c]) rfl
  have hbreak : mask t = a ++ '\n' :: b := by rw [hmask]; simp
  rw [Scan.mask_eq_paint] at hbreak
  obtain ⟨x, y, ht, hx, -, -⟩ := Scan.exists_of_paint_eq hbreak (by decide)
  have hstop : f.span.stop ≤ byteSize x := by
    rw [hsize, hx, hfront]
    simp only [byteSize_append, byteSize_cons, byteSize_nil]
    omega
  have hrest := lineRestEnd_le_of_lineFeed ht (isBoundary_stop_of_import hf) hstop
  simp only [byteSize_append, hx] at hrest ⊢
  exact hrest

end Source

end FlatSol
