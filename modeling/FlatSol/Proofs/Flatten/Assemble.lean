import FlatSol.Flatten.Render
import FlatSol.Proofs.Source.Trim

/-!
# Masking a flattened text

The sections of a flattened text are masked one by one, when each leaves the reader in the code
behind the line feeds that follow it.
-/

namespace FlatSol

open Text Scan

namespace Render

def headerText (headers : List Text) : Text :=
  headers.flatMap fun h => h ++ ['\n']

/-- The sections of a flattened text, before its last line is ended. -/
def sections (headers blocks : List Text) : Text :=
  headerText headers ++ (if headers.isEmpty || blocks.isEmpty then [] else ['\n']) ++
    joinWith ['\n', '\n'] blocks

def endLine (t : Text) : Text :=
  if t.isEmpty || t.getLast? == some '\n' then t else t ++ ['\n']

theorem headerText_isEmpty (headers : List Text) :
    (headerText headers).isEmpty = headers.isEmpty := by
  cases headers with
  | nil => rfl
  | cons l ls => cases l <;> rfl

theorem assemble_eq (headers blocks : List Text) :
    assemble headers blocks = endLine (sections headers blocks) := by
  rw [sections, ← headerText_isEmpty]
  rfl

theorem mask_headerText_append {headers : List Text}
    (h : ∀ l ∈ headers, code.after (l ++ ['\n']) = .code) (t : Text) :
    paint code (headerText headers ++ t) =
      headerText (headers.map (paint code)) ++ paint code t := by
  induction headers with
  | nil => rfl
  | cons l ls ih =>
    obtain ⟨hl, hls⟩ := List.forall_mem_cons.1 h
    rw [after_append] at hl
    have hnext : (code.after l).next '\n' = .code := hl
    have htext : headerText (l :: ls) ++ t = l ++ '\n' :: (headerText ls ++ t) := by
      simp [headerText]
    rw [htext, paint_append_lineFeed, hnext, ih hls]
    simp [headerText]

theorem mask_joinWith {blocks : List Text}
    (h : ∀ b ∈ blocks, code.after (b ++ ['\n', '\n']) = .code) :
    paint code (joinWith ['\n', '\n'] blocks) =
      joinWith ['\n', '\n'] (blocks.map (paint code)) := by
  induction blocks with
  | nil => rfl
  | cons b bs ih =>
    obtain ⟨hb, hbs⟩ := List.forall_mem_cons.1 h
    cases bs with
    | nil => rfl
    | cons d ds =>
      rw [after_append] at hb
      have hnext : ((code.after b).next '\n').next '\n' = .code := hb
      have htext : joinWith ['\n', '\n'] (b :: d :: ds) =
          b ++ '\n' :: ([] ++ '\n' :: joinWith ['\n', '\n'] (d :: ds)) := by
        simp [joinWith]
      rw [htext, paint_append_lineFeed, paint_append_lineFeed, after_nil, hnext, ih hbs]
      simp [joinWith, paint]

theorem getLast?_paint {s : Scan} {t : Text} :
    (paint s t).getLast? = some '\n' ↔ t.getLast? = some '\n' := by
  rcases List.eq_nil_or_concat t with rfl | ⟨u, c, rfl⟩
  · rfl
  · rw [List.concat_eq_append, paint_append_eq]
    have hshown : paint (s.after u) [c] = shown (s.after u) c [] := by simp [paint]
    rw [hshown, List.getLast?_concat]
    by_cases hc : c = '\n'
    · simp [hc]
    · rcases shown_cases (s.after u) c [] with hs | hs
      · rw [hs, List.getLast?_concat]
      · have hpos : 0 < c.utf8Size := Char.utf8Size_pos c
        obtain ⟨n, hn⟩ : ∃ n, c.utf8Size = n + 1 := ⟨c.utf8Size - 1, by omega⟩
        rw [hs, hn, List.replicate_succ', ← List.append_assoc, List.getLast?_concat]
        simp [hc]

theorem paint_eq_nil_iff {s : Scan} {t : Text} : paint s t = [] ↔ t = [] := by
  constructor
  · intro h
    have hsize := byteSize_paint s t
    rw [h] at hsize
    exact eq_nil_of_byteSize_eq_zero hsize.symm
  · rintro rfl
    rfl

theorem paint_endLine (s : Scan) (t : Text) : paint s (endLine t) = endLine (paint s t) := by
  have hempty : (paint s t).isEmpty = t.isEmpty := by
    rw [Bool.eq_iff_iff, List.isEmpty_iff, List.isEmpty_iff, paint_eq_nil_iff]
  have hlast : ((paint s t).getLast? == some '\n') = (t.getLast? == some '\n') := by
    rw [Bool.eq_iff_iff, beq_iff_eq, beq_iff_eq, getLast?_paint]
  rw [endLine, endLine, hempty, hlast]
  split
  · rfl
  · exact paint_append_lineFeeds s t 1

theorem mask_assemble {headers blocks : List Text}
    (hh : ∀ l ∈ headers, code.after (l ++ ['\n']) = .code)
    (hb : ∀ b ∈ blocks, code.after (b ++ ['\n', '\n']) = .code) :
    Source.mask (assemble headers blocks) =
      assemble (headers.map Source.mask) (blocks.map Source.mask) := by
  have hmask : Source.mask = paint code := funext mask_eq_paint
  rw [hmask, assemble_eq, assemble_eq, paint_endLine]
  congr 1
  rw [sections, List.append_assoc, mask_headerText_append hh, sections, List.append_assoc,
    List.isEmpty_map, List.isEmpty_map]
  congr 1
  split
  · exact mask_joinWith hb
  · rw [List.singleton_append, paint, shown_lineFeed, List.singleton_append, List.singleton_append]
    exact congrArg _ (mask_joinWith hb)

theorem squeeze_headerText (headers : List Text) :
    squeeze (headerText headers) = headers.flatMap squeeze := by
  induction headers with
  | nil => rfl
  | cons l ls ih =>
    have hfeed : squeeze ['\n'] = [] := rfl
    have htext : headerText (l :: ls) = l ++ ['\n'] ++ headerText ls := rfl
    rw [htext, squeeze_append, squeeze_append, hfeed, ih, List.append_nil]
    rfl

theorem squeeze_joinWith (blocks : List Text) :
    squeeze (joinWith ['\n', '\n'] blocks) = blocks.flatMap squeeze := by
  induction blocks with
  | nil => rfl
  | cons b bs ih =>
    cases bs with
    | nil => simp [joinWith]
    | cons d ds =>
      have hfeeds : squeeze ['\n', '\n'] = [] := rfl
      rw [joinWith, squeeze_append, squeeze_append, hfeeds, ih, List.append_nil]
      rfl

theorem exists_endLine_eq (t : Text) : ∃ j ≤ 1, endLine t = t ++ List.replicate j '\n' := by
  unfold endLine
  split
  · exact ⟨0, by omega, by simp⟩
  · exact ⟨1, by omega, rfl⟩

theorem squeeze_endLine (t : Text) : squeeze (endLine t) = squeeze t := by
  obtain ⟨j, -, hj⟩ := exists_endLine_eq t
  rw [hj, squeeze_append, squeeze_lineFeeds, List.append_nil]

/-- Between the sections of a flattened text stands white space only. -/
theorem squeeze_assemble (headers blocks : List Text) :
    squeeze (assemble headers blocks) = headers.flatMap squeeze ++ blocks.flatMap squeeze := by
  have hgap : squeeze (if headers.isEmpty || blocks.isEmpty then [] else ['\n']) = [] := by
    split <;> rfl
  rw [assemble_eq, squeeze_endLine, sections, squeeze_append, squeeze_append, hgap,
    squeeze_headerText, squeeze_joinWith, List.append_nil]

end Render

end FlatSol
