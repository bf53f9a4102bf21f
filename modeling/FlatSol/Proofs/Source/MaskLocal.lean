import FlatSol.Proofs.Source.ImportForm
import FlatSol.Proofs.Source.Literal

/-!
# Masking a masked text, and a text in parts

A masked text holds no comment: it is read like the text itself, with the blanks of a comment as
characters of code. A text that ends outside comments and literals and the text behind it are masked
each by itself, as long as no comment mark lies across the place where they meet. Main statement:
masking twice is masking once, and the texts that end outside are exactly those that can be masked
apart from what stands behind them.
-/

namespace FlatSol

open Text

/-! ### What is read in the masked text -/

namespace Lexeme

/-- What a lexeme becomes in the reading of the masked text. -/
def uncommented (l : Lexeme) : List Lexeme :=
  if l.isComment then l.masked.map .code else [l]

theorem textOf_map_code (t : Text) : textOf (t.map .code) = t := by
  induction t with
  | nil => rfl
  | cons c cs ih =>
    rw [List.map_cons, textOf_cons, ih]
    rfl

theorem textOf_uncommented (l : Lexeme) : textOf l.uncommented = l.masked := by
  unfold uncommented
  split
  · exact textOf_map_code l.masked
  · next hl =>
    rw [masked, if_neg hl]
    exact List.append_nil l.text

theorem textOf_flatMap_uncommented (ls : List Lexeme) :
    textOf (ls.flatMap uncommented) = ls.flatMap masked := by
  induction ls with
  | nil => rfl
  | cons l ls ih =>
    rw [List.flatMap_cons, textOf_append, textOf_uncommented, ih, List.flatMap_cons]

theorem isComment_of_mem_uncommented {l k : Lexeme} (h : k ∈ l.uncommented) :
    k.isComment = false := by
  unfold uncommented at h
  split at h
  · obtain ⟨c, -, rfl⟩ := List.mem_map.1 h
    rfl
  · next hl =>
    rw [List.mem_singleton.1 h]
    exact Bool.eq_false_iff.2 hl

/-- Masking changes the first character of a text only to a space. -/
theorem head?_flatMap_masked (ls : List Lexeme) :
    (ls.flatMap masked).head? = (textOf ls).head? ∨ (ls.flatMap masked).head? = some ' ' := by
  cases ls with
  | nil => exact .inl rfl
  | cons l ls =>
    cases l with
    | code c => exact .inl rfl
    | lineComment s => exact .inr rfl
    | blockComment s => exact .inr rfl
    | openComment s => exact .inr rfl
    | literal q s e => exact .inl rfl
    | openLiteral q s => exact .inl rfl

/-- A lexeme that is no comment is read in the masked text as well. -/
theorem Before.masked {l : Lexeme} {ls : List Lexeme} (h : l.Before (textOf ls))
    (hl : l.isComment = false) : l.Before (ls.flatMap Lexeme.masked) := by
  cases l with
  | code c =>
    obtain ⟨hq, hmark⟩ := h
    refine ⟨hq, fun hopen => hmark ⟨hopen.1, ?_⟩⟩
    rcases head?_flatMap_masked ls with hhead | hhead
    · rw [← hhead]
      exact hopen.2
    · rw [hhead] at hopen
      exact absurd hopen.2 (by decide)
  | lineComment s => cases hl
  | blockComment s => cases hl
  | openComment s => cases hl
  | literal q s e => exact h
  | openLiteral q s =>
    obtain ⟨hq, hs, hnil⟩ := h
    refine ⟨hq, hs, eq_nil_of_byteSize_eq_zero ?_⟩
    rw [byteSize_flatMap byteSize_masked, hnil, byteSize_nil]

theorem isCodeChar_of_mem_masked {l : Lexeme} (hl : l.isComment = true) {c : Char}
    (hc : c ∈ l.masked) : Source.isCodeChar c = true := by
  have hblank : isBlank c = true := blank_of_mem_masked hl hc
  have hquote : isQuote c = false := Scan.isQuote_of_isBlank hblank
  have hslash : c ≠ '/' := ne_of_isBlank hblank rfl
  simp [Source.isCodeChar, hquote, hslash]

/-- The reading of the masked text. -/
theorem Lexed.uncommented {ls : List Lexeme} (h : Lexed ls) :
    Lexed (ls.flatMap Lexeme.uncommented) := by
  induction ls with
  | nil => trivial
  | cons l ls ih =>
    have htail : Lexed (ls.flatMap Lexeme.uncommented) := ih h.2
    rw [List.flatMap_cons]
    cases hl : l.isComment with
    | true =>
      have hcode : l.masked.all Source.isCodeChar = true :=
        List.all_eq_true.2 fun c hc => isCodeChar_of_mem_masked hl hc
      rw [Lexeme.uncommented, if_pos hl]
      exact Source.lexed_codes_append hcode htail
    | false =>
      have hbefore : l.Before (textOf (ls.flatMap Lexeme.uncommented)) := by
        rw [textOf_flatMap_uncommented]
        exact h.1.masked hl
      rw [Lexeme.uncommented, if_neg (by simp [hl])]
      exact ⟨hbefore, htail⟩

/-- Masking leaves a text without comments as it is. -/
theorem Lexed.mask_eq_self {ls : List Lexeme} (h : Lexed ls) (hnone : ∀ l ∈ ls, l.isComment = false) :
    Source.mask (textOf ls) = textOf ls := by
  rw [h.mask_textOf, textOf]
  refine List.flatMap_congr fun l hl => ?_
  rw [masked, if_neg (by simp [hnone l hl])]

end Lexeme

theorem Source.mask_mask (t : Text) : Source.mask (Source.mask t) = Source.mask t := by
  obtain ⟨ls, hls, rfl⟩ := Lexeme.exists_lexed t
  rw [hls.mask_textOf, ← Lexeme.textOf_flatMap_uncommented]
  refine hls.uncommented.mask_eq_self fun k hk => ?_
  obtain ⟨l, -, hkl⟩ := List.mem_flatMap.1 hk
  exact Lexeme.isComment_of_mem_uncommented hkl

/-! ### Where two texts meet -/

namespace Scan

/-- Neither in a comment nor in a literal. -/
def outside : Scan → Bool
  | .code | .slash => true
  | .line | .block | .star | .literal _ | .escape _ => false

theorem outside_iff {s : Scan} : s.outside = true ↔ s = .code ∨ s = .slash := by
  cases s <;> simp [outside]

theorem getLast?_of_after {t : Text} (h : code.after t = .slash) : t.getLast? = some '/' := by
  rcases List.eq_nil_or_concat t with rfl | ⟨t, c, rfl⟩
  · cases h
  · rw [List.concat_eq_append, after_append] at h
    rw [List.concat_eq_append, List.getLast?_concat, (eq_of_next _ _).1 h]

/-- Some text is masked in a comment or a literal in another way than in code. -/
theorem exists_paint_ne {s : Scan} (hs : s.quoted = true) (hin : s.outside = false) :
    ∃ b : Text, b.head?.any opens = false ∧ paint s b ≠ paint .code b := by
  cases s with
  | code => cases hin
  | slash => cases hin
  | line => exact ⟨['x'], by decide, by decide⟩
  | block => exact ⟨['x'], by decide, by decide⟩
  | star => exact ⟨['x'], by decide, by decide⟩
  -- behind a backslash the space is escaped, and the comment mark still lies in the literal
  | literal q =>
    refine ⟨" //".toList, by decide, ?_⟩
    rcases isQuote_iff.1 hs with rfl | rfl <;> decide
  | escape q =>
    refine ⟨" //".toList, by decide, ?_⟩
    rcases isQuote_iff.1 hs with rfl | rfl <;> decide

end Scan

namespace Source

theorem mask_append {a b : Text} (ha : (Scan.code.after a).outside = true)
    (hmark : ¬ (a.getLast? = some '/' ∧ b.head?.any Scan.opens = true)) :
    mask (a ++ b) = mask a ++ mask b := by
  rcases Scan.outside_iff.1 ha with hcode | hslash
  · exact leaves_of_code hcode b
  · have hb : b.head?.any Scan.opens = false :=
      Bool.eq_false_iff.2 fun hopens => hmark ⟨Scan.getLast?_of_after hslash, hopens⟩
    rw [Scan.mask_eq_paint, Scan.paint_append (.inr (.inr hb)), hslash, Scan.paint_slash hb,
      ← Scan.mask_eq_paint, ← Scan.mask_eq_paint]

/-- A text that ends in a comment or a literal cannot be masked apart from what stands behind it. -/
theorem exists_mask_append_ne {a : Text} (ha : (Scan.code.after a).outside = false) :
    ∃ b : Text, b.head?.any Scan.opens = false ∧ mask (a ++ b) ≠ mask a ++ mask b := by
  have hquoted : (Scan.code.after a).quoted = true := Scan.quoted_after rfl a
  obtain ⟨b, hb, hne⟩ := Scan.exists_paint_ne hquoted ha
  refine ⟨b, hb, fun h => hne ?_⟩
  rw [Scan.mask_eq_paint, Scan.paint_append (.inr (.inr hb)), ← Scan.mask_eq_paint] at h
  rw [List.append_cancel_left h, Scan.mask_eq_paint]

/-- Masking twice is masking once. The texts that end outside comments and literals are exactly those
that are masked apart from all that may stand behind them, as long as the last character of the one and
the first of the other make no comment mark. -/
theorem mask_idempotent_and_local :
    (∀ t, mask (mask t) = mask t) ∧
      ∀ a, (Scan.code.after a).outside = true ↔
        ∀ b, ¬ (a.getLast? = some '/' ∧ b.head?.any Scan.opens = true) →
          mask (a ++ b) = mask a ++ mask b := by
  refine ⟨mask_mask, fun a => ⟨fun ha b hmark => mask_append ha hmark, fun hlocal => ?_⟩⟩
  by_contra ha
  obtain ⟨b, hb, hne⟩ := exists_mask_append_ne (Bool.eq_false_iff.2 ha)
  have hmark : ¬ (a.getLast? = some '/' ∧ b.head?.any Scan.opens = true) := by
    rintro ⟨-, hopens⟩
    exact Bool.noConfusion (hb.symm.trans hopens)
  exact hne (hlocal b hmark)

/-- A comment mark in a literal, and a comment whose last character is a slash. -/
def closedText : Text :=
  "s = '//'; /* é */".toList

theorem mask_idempotent_and_local_closed :
    (Scan.code.after closedText).outside = true ∧
      ¬ (closedText.getLast? = some '/' ∧ "x // c".toList.head?.any Scan.opens = true) ∧
        mask (mask (closedText ++ "x // c".toList)) = "s = '//';         x     ".toList := by
  have hout : (Scan.code.after closedText).outside = true := by decide
  have hmark : ¬ (closedText.getLast? = some '/' ∧
      "x // c".toList.head?.any Scan.opens = true) := by decide
  obtain ⟨hagain, hlocal⟩ := mask_idempotent_and_local
  refine ⟨hout, hmark, ?_⟩
  rw [hagain, (hlocal closedText).1 hout _ hmark]
  decide

end Source

end FlatSol
