import FlatSol.Proofs.Source.Literal
import FlatSol.Proofs.Source.MaskBytes

/-!
# Where statements begin

Main statements: if nothing begins in the text of a literal, then no pragma or import statement is found
that begins in a literal, and no licence line reaches one.
-/

namespace FlatSol

open Text Lexeme

namespace Text

theorem lastLine_append {x z : Text} (hz : '\n' ∉ z) : lastLine (x ++ z) = lastLine x ++ z := by
  induction z using List.reverseRecOn with
  | nil => simp
  | append_singleton z c ih =>
    rw [List.mem_append, List.mem_singleton, not_or] at hz
    rw [← List.append_assoc, ← List.append_assoc, ← ih hz.1]
    exact List.rtakeWhile_concat_pos _ _ c (by simpa using Ne.symm hz.2)

theorem lineFeed_notMem_lastLine (t : Text) : '\n' ∉ lastLine t := by
  intro h
  simpa using List.mem_rtakeWhile_imp h

/-- A line without some character of `x` begins inside `x`. -/
theorem lastLine_append_of_mem {u x : Text} {c : Char} (hc : c ∈ x) (h : c ∉ lastLine (u ++ x)) :
    lastLine (u ++ x) = lastLine x := by
  rcases eq_lastLine_or_exists x with hx | ⟨w, hx⟩
  · have hplain : '\n' ∉ x := by
      rw [hx]
      exact lineFeed_notMem_lastLine x
    rw [lastLine_append hplain] at h
    exact absurd (List.mem_append_right _ hc) h
  · have happend : u ++ x = (u ++ w) ++ '\n' :: lastLine x := by
      rw [List.append_assoc]
      exact congrArg (u ++ ·) hx
    rw [happend, lastLine_append_lineFeed,
      lastLine_of_notMem (lineFeed_notMem_lastLine x)]

end Text

namespace Source

/-- In the text of no literal begins a pragma, an import or a licence line, and no block comment ends
on the line of a licence mark in it. -/
structure PlainLiterals (ls : List Lexeme) : Prop where
  pragmas : ∀ l ∈ ls, l.isLiteral = true → Lacks beginsPragma l.text
  imports : ∀ l ∈ ls, l.isLiteral = true → Lacks beginsImport l.text
  licenses : ∀ l ∈ ls, l.isLiteral = true → Lacks beginsLicense l.text
  comments : ∀ s, .blockComment s ∈ ls → Lacks beginsLicense (lastLine (text (.blockComment s)))

variable {ls : List Lexeme}

/-! ### Statements begin in no literal -/

/-- A place of the masked text that lies in a literal. -/
theorem exists_literal_of_covers (hls : Lexed ls) {a b : Text} (h : mask (textOf ls) = a ++ b)
    (hcover : covers (literalSpans 0 ls) (byteSize a) = true) :
    ∃ l ∈ ls, ∃ rest u x z r, l.isLiteral = true ∧ l.Before rest ∧ l.text = x ++ z ∧ z ≠ [] ∧
      a = u ++ x ∧ b = z ++ r ∧ (rest = [] → r = []) := by
  obtain ⟨s, hs, hle, hlt⟩ := covers_eq_true_iff.1 hcover
  obtain ⟨before, l, behind, rfl, hl, hstart, hstop⟩ := exists_of_mem_literalSpans hs
  rw [hls.mask_textOf] at h
  obtain ⟨x, z, rfl, htext, hz, rfl⟩ := exists_append_of_lexeme byteSize_masked h (by omega)
    (by omega)
  rw [masked_of_isLiteral hl] at htext
  refine ⟨l, by simp, textOf behind, before.flatMap masked, x, z, behind.flatMap masked, hl,
    hls.before_of_append, htext, hz, rfl, rfl, fun hnil => ?_⟩
  apply eq_nil_of_byteSize_eq_zero
  rw [byteSize_flatMap byteSize_masked, hnil, byteSize_nil]

theorem literal_pragma_start (hls : Lexed ls) (h : PlainLiterals ls) {f : Found Pragma}
    (hf : f ∈ pragmaStatement.findAll (mask (textOf ls))) :
    covers (literalSpans 0 ls) f.span.start = false := by
  obtain ⟨a, b, m, hmask, hm, rfl⟩ := Pattern.exists_of_mem_findAll hf
  rw [Bool.eq_false_iff]
  intro hcover
  obtain ⟨l, hl, rest, u, x, z, r, hlit, hbefore, htext, hz, rfl, rfl, hr⟩ :=
    exists_literal_of_covers hls hmask hcover
  obtain ⟨hword, v, hv, hfollows⟩ := beginsPragma_eq_true_iff.1 (beginsPragma_of_pragmaStatement hm)
  have hx : x ≠ [] := by
    obtain ⟨c, cs, rfl⟩ := List.exists_cons_of_ne_nil hz
    obtain rfl : c = 'p' := (List.cons.inj hv).1
    exact ne_nil_of_isLiteral hbefore hlit htext rfl
  have hplace : beginsPragma (lastLine x) (z ++ r) = true := by
    refine beginsPragma_eq_true_iff.2 ⟨?_, v, hv, hfollows⟩
    rw [startsWord_lastLine, List.getLast?_append_of_ne_nil _ hx] at hword
    rwa [startsWord_lastLine]
  have hin := closed_beginsPragma.of_append hbefore hlit htext hz hr hplace
  rw [h.pragmas l hl hlit x z htext] at hin
  cases hin

/-- A pragma begins in no comment, which is blank in the masked text. -/
theorem not_inComment_pragma_start (hls : Lexed ls) {f : Found Pragma}
    (hf : f ∈ pragmaStatement.findAll (mask (textOf ls))) : ¬ InComment ls f.span.start := by
  obtain ⟨a, b, m, hmask, hm, rfl⟩ := Pattern.exists_of_mem_findAll hf
  obtain ⟨-, v, hv, -⟩ := beginsPragma_eq_true_iff.1 (beginsPragma_of_pragmaStatement hm)
  rintro ⟨before, l, behind, rfl, hl, hle, hlt⟩
  rw [hls.mask_textOf] at hmask
  obtain ⟨x, z, -, hmasked, hz, rfl⟩ := exists_append_of_lexeme byteSize_masked hmask hle hlt
  obtain ⟨c, cs, rfl⟩ := List.exists_cons_of_ne_nil hz
  obtain rfl : c = 'p' := (List.cons.inj hv).1
  have hblank := blank_of_mem_masked hl (c := 'p') (by rw [hmasked]; simp)
  exact absurd hblank (by decide)

/-- A literal does not end in a margin, as that holds no character that closes one. -/
theorem exists_append_margin {l : Lexeme} {rest x z r margin v : Text} (hl : l.Before rest)
    (hlit : l.isLiteral = true) (htext : l.text = x ++ z) (hz : z ≠ []) (hr : rest = [] → r = [])
    (hmargin : ∀ c ∈ margin, isMargin c = true) (hv : v ≠ []) (h : margin ++ v = z ++ r) :
    ∃ y, z = margin ++ y ∧ y ≠ [] ∧ v = y ++ r := by
  rcases eq_nil_or_exists_close hl hlit htext hz with hnil | ⟨w, e, rfl, he⟩
  · obtain rfl := hr hnil
    rw [List.append_nil] at h
    exact ⟨v, h.symm, hv, (List.append_nil v).symm⟩
  · have hnot : e ∉ margin := fun hmem => by
      have hm := hmargin e hmem
      rw [isMargin_of_closes he] at hm
      cases hm
    rw [List.append_assoc] at h
    obtain ⟨y, rfl, rfl⟩ := exists_of_append_eq_append_cons h hnot
    exact ⟨y ++ [e], by simp, by simp, by simp⟩

theorem literal_import_start (hls : Lexed ls) (h : PlainLiterals ls) {f : Found Text}
    (hf : f ∈ importStatement.findAll (mask (textOf ls))) :
    covers (literalSpans 0 ls) f.span.start = false := by
  obtain ⟨a, b, m, hmask, hm, rfl⟩ := Pattern.exists_of_mem_findAll hf
  obtain ⟨hline, margin, s, behind, hmargin, rfl, -⟩ := exists_of_importStatement hm
  obtain ⟨w, hw, -⟩ := s.exists_text
  rw [Bool.eq_false_iff]
  intro hcover
  obtain ⟨l, hl, rest, u, x, z, r, hlit, hbefore, htext, hz, rfl, hb, hr⟩ :=
    exists_literal_of_covers hls hmask hcover
  rw [List.append_assoc] at hb
  obtain ⟨y, rfl, hyne, hy⟩ := exists_append_margin hbefore hlit htext hz hr hmargin
    (by rw [hw]; exact List.cons_ne_nil _ _) hb
  have hx : x ≠ [] := by
    obtain ⟨c, cs, rfl⟩ := List.exists_cons_of_ne_nil hyne
    rw [hw] at hy
    obtain rfl : 'i' = c := (List.cons.inj hy).1
    cases margin with
    | nil => exact ne_nil_of_isLiteral hbefore hlit htext rfl
    | cons d ds =>
      exact ne_nil_of_isLiteral hbefore hlit htext
        (Scan.isQuote_of_isBlank (isBlank_of_isMargin (hmargin d (List.mem_cons_self ..))))
  have hstart : startsLine x.getLast? = true := by
    rwa [List.getLast?_append_of_ne_nil _ hx] at hline
  have hplace : beginsImport (lastLine (x ++ margin)) (y ++ r) = true := by
    rw [lastLine_append_of_startsLine hstart,
      lastLine_of_notMem (lineFeed_notMem_of_isMargin hmargin), ← hy]
    exact Bool.and_eq_true_iff.2 ⟨List.all_eq_true.2 hmargin, s.startsImport_text behind⟩
  rw [← List.append_assoc] at htext
  have hin := closed_beginsImport.of_append hbefore hlit htext hyne hr hplace
  rw [h.imports l hl hlit _ y htext] at hin
  cases hin

/-! ### Licence lines reach no literal -/

theorem startsMark_append {t : Text} (h : startsMark t = true) (u : Text) :
    startsMark (t ++ u) = true := by
  obtain ⟨gap, r, hgap, rfl⟩ := startsMark_eq_true_iff.1 h
  exact startsMark_eq_true_iff.2 ⟨gap, r ++ u, hgap, by simp⟩

/-- A licence line from the start of its line on. -/
structure MarkedLine (t a margin line b : Text) : Prop where
  text_eq : t = a ++ margin ++ line ++ b
  starts : startsLine a.getLast? = true
  margin_isMargin : ∀ c ∈ margin, isMargin c = true
  mark : startsMark line = true
  plain : '\n' ∉ line
  ends : ∀ c ∈ b.head?, c = '\n'

theorem exists_markedLine {t : Text} {f : Found Text} (h : f ∈ licenses t) :
    ∃ a margin line b, MarkedLine t a margin line b ∧ f.span.start = byteSize a ∧
      f.span.stop = byteSize (a ++ margin ++ line ++ b.take 1) := by
  obtain ⟨a, b, m, rfl, hm, rfl⟩ := Pattern.exists_of_mem_findAll h
  obtain ⟨hline, hmark, rfl⟩ := licenseLine_eq_some_iff.1 hm
  obtain ⟨margin, u, rfl, hmargin, -, hdrop, -⟩ := exists_takeWhile_append (p := isMargin) (t := b)
  obtain ⟨line, v, rfl, hplain, -, -, hv⟩ :=
    exists_takeWhile_append (p := fun c => decide (c ≠ '\n')) (t := u)
  have hfeed : '\n' ∉ line := fun hmem => by simpa using hplain '\n' hmem
  have hends : ∀ c ∈ v.head?, c = '\n' := fun c hc => by simpa using hv c hc
  rw [hdrop] at hmark
  have hmark' : startsMark line = true := by
    cases v with
    | nil => rwa [List.append_nil] at hmark
    | cons c cs =>
      obtain rfl : c = '\n' := hends c rfl
      have hbegins : beginsLicense [] (line ++ '\n' :: cs) = true := hmark
      exact beginning_license.of_append_lineFeed hbegins
  refine ⟨a, margin, line, v, ⟨by simp, hline, hmargin, hmark', hfeed, hends⟩, rfl, ?_⟩
  have hfirst : '\n' ∉ margin ++ line := by
    rw [List.mem_append, not_or]
    exact ⟨lineFeed_notMem_of_isMargin hmargin, hfeed⟩
  have htake : (margin ++ (line ++ v)).take (firstLine (margin ++ (line ++ v))).length =
      margin ++ line ++ v.take 1 := by
    have hsplit : margin ++ line ++ v = margin ++ line ++ v.take 1 ++ v.drop 1 := by
      rw [List.append_assoc _ (v.take 1), List.take_append_drop]
    rw [← List.append_assoc, firstLine_append hfirst hends, hsplit]
    exact List.take_left ..
  simp only [htake, byteSize_append, Nat.add_assoc]

/-- A licence line whose mark stands in the lexeme `l`, behind `x`. -/
structure MarkIn (before : List Lexeme) (l : Lexeme) (behind : List Lexeme)
    (a margin line b x z : Text) : Prop
    extends MarkedLine (textOf (before ++ l :: behind)) a margin line b where
  place : a ++ margin = textOf before ++ x
  lexeme : l.text = x ++ '/' :: z
  rest : line ++ b = '/' :: z ++ textOf behind

theorem MarkedLine.exists_markIn {a margin line b : Text}
    (h : MarkedLine (textOf ls) a margin line b) :
    ∃ before l behind x z, ls = before ++ l :: behind ∧ MarkIn before l behind a margin line b x z := by
  obtain ⟨gap, r, -, hline⟩ := startsMark_eq_true_iff.1 h.mark
  have hslash : textOf ls = (a ++ margin) ++ '/' :: ('/' :: gap ++ licenseMark ++ r ++ b) := by
    rw [h.text_eq, hline]
    simp
  obtain ⟨before, l, behind, rfl, hle, hlt⟩ := Lexeme.exists_lexeme hslash
  obtain ⟨x, z, hx, htext, hz, hb⟩ := exists_append_of_lexeme (f := text) (fun _ => rfl)
    (h.text_eq.trans (List.append_assoc ..)) hle hlt
  obtain ⟨c, cs, rfl⟩ := List.exists_cons_of_ne_nil hz
  obtain rfl : '/' = c := by
    rw [hline] at hb
    exact (List.cons.inj hb).1
  exact ⟨before, l, behind, x, cs, rfl, h, hx, htext, hb⟩

/-- A line goes to its line feed, which is cut with it. -/
theorem byteSize_line_le {line b u v : Text} (h : line ++ b = u ++ '\n' :: v) (hplain : '\n' ∉ line) :
    byteSize (line ++ b.take 1) ≤ byteSize u + 1 := by
  obtain ⟨w, rfl, rfl⟩ := exists_of_append_eq_append_cons h hplain
  have hone : Char.utf8Size '\n' = 1 := rfl
  rw [byteSize_append, byteSize_append]
  cases w with
  | nil => simp [hone]
  | cons d ds => simp; omega

namespace MarkIn

variable {before behind : List Lexeme} {l : Lexeme} {a margin line b x z : Text}

/-- The line of the mark begins in the lexeme that holds it, if that holds more than a margin before
the mark. -/
theorem lastLine_eq (h : MarkIn before l behind a margin line b x z) {c : Char} (hc : c ∈ x)
    (hnot : isMargin c = false) : lastLine x = margin := by
  have hmargin : lastLine (textOf before ++ x) = margin := by
    rw [← h.place, lastLine_append_of_startsLine h.starts,
      lastLine_of_notMem (lineFeed_notMem_of_isMargin h.margin_isMargin)]
  rw [← lastLine_append_of_mem hc, hmargin]
  rw [hmargin]
  intro hmem
  rw [h.margin_isMargin c hmem] at hnot
  cases hnot

theorem isLiteral_eq_false (h : MarkIn before l behind a margin line b x z)
    (hls : Lexed (before ++ l :: behind)) (hplain : PlainLiterals (before ++ l :: behind)) :
    l.isLiteral = false := by
  rw [Bool.eq_false_iff]
  intro hlit
  have hbefore := hls.before_of_append
  obtain ⟨q, u, hq, hquote⟩ := exists_quote_of_isLiteral hbefore hlit
  have hx : x ≠ [] := ne_nil_of_isLiteral hbefore hlit h.lexeme rfl
  have hmem : q ∈ x := by
    obtain ⟨c, cs, rfl⟩ := List.exists_cons_of_ne_nil hx
    obtain rfl : q = c := (List.cons.inj (hq.symm.trans h.lexeme)).1
    exact List.mem_cons_self ..
  have hnot : isMargin q = false := isMargin_of_closes (by simp [closes, hquote])
  have hmark := startsMark_append h.mark b
  rw [h.rest] at hmark
  have hbegins : beginsLicense (lastLine x) ('/' :: z ++ textOf behind) = true := by
    rw [h.lastLine_eq hmem hnot]
    exact Bool.and_eq_true_iff.2 ⟨List.all_eq_true.2 h.margin_isMargin, hmark⟩
  have hin := closed_beginsLicense.of_append hbefore hlit h.lexeme (List.cons_ne_nil _ _) id hbegins
  rw [hplain.licenses l (by simp) hlit x _ h.lexeme] at hin
  cases hin

/-- A literal before the mark ends before the margin. -/
theorem stop_le_of_mem (h : MarkIn before l behind a margin line b x z)
    (hls : Lexed (before ++ l :: behind)) {s : Span} (hs : s ∈ literalSpans 0 before) :
    s.stop ≤ byteSize a := by
  obtain ⟨front, k, back, rfl, hk, -, hstop⟩ := exists_of_mem_literalSpans hs
  rw [List.append_assoc, List.cons_append] at hls
  have hrest : textOf (back ++ l :: behind) ≠ [] := by
    rw [textOf_append, textOf_cons]
    simp [l.text_ne_nil]
  obtain ⟨u, e, hu, he⟩ := (eq_nil_or_exists_close hls.before_of_append hk
    (List.nil_append _).symm k.text_ne_nil).resolve_left hrest
  by_contra hlt
  rw [Nat.not_le, hstop, Nat.zero_add] at hlt
  -- the last character of the literal stands in the margin
  have happend : a ++ margin = (textOf front ++ k.text) ++ (textOf back ++ x) := by
    rw [h.place, textOf_append, textOf_cons]
    simp
  obtain ⟨w, hw, hmargin⟩ := exists_append_of_byteSize_le happend (by rw [byteSize_append]; omega)
  have hne : w ≠ [] := by
    rintro rfl
    rw [List.append_nil] at hw
    rw [← hw, byteSize_append] at hlt
    omega
  obtain ⟨v, d, rfl⟩ := (List.eq_nil_or_concat w).resolve_left hne
  rw [hu, List.concat_eq_append, ← List.append_assoc, ← List.append_assoc] at hw
  obtain ⟨-, hde⟩ := List.append_inj' hw rfl
  obtain rfl : e = d := (List.cons.inj hde).1
  have hm := h.margin_isMargin e (by rw [hmargin]; simp)
  rw [isMargin_of_closes he] at hm
  cases hm

/-- A mark that begins in a block comment, on a line of that, stands in it whole. -/
theorem startsMark_of_blockComment {c : Text}
    (h : MarkIn before (.blockComment c) behind a margin line b x z) (hline : lastLine x = margin) :
    startsMark ('/' :: z) = true := by
  have hlong := startsMark_append h.mark b
  have hends : x ++ '/' :: z = ('/' :: '*' :: c) ++ blockEnd := by rw [← h.lexeme]; simp [text]
  rw [h.rest] at hlong
  rcases List.append_eq_append_iff.1 hends with ⟨w, -, hw⟩ | ⟨w, rfl, hw⟩
  · have hfront : '/' :: z = w ++ ['*'] ++ ['/'] := by rw [hw]; simp [blockEnd]
    rw [hfront, List.append_assoc, List.append_assoc] at hlong
    rw [hfront]
    exact startsMark_append (startsMark_of_append_cons rfl (by decide) hlong) _
  · -- the star at the end of the comment would stand in the margin
    exfalso
    cases w with
    | nil => cases hw
    | cons d ds =>
      obtain rfl : '*' = d := (List.cons.inj hw).1
      have hstar : '\n' ∉ '*' :: ds := fun hmem => by
        have hend : '\n' ∈ blockEnd := by
          rw [hw]
          exact List.mem_append_left _ hmem
        exact absurd hend (by decide)
      rw [lastLine_append hstar] at hline
      have hm := h.margin_isMargin '*' (by rw [← hline]; simp)
      exact absurd hm (by decide)

/-- A block comment that holds the mark goes on behind its line. -/
theorem lineFeed_mem_of_blockComment {c : Text}
    (h : MarkIn before (.blockComment c) behind a margin line b x z)
    (hplain : PlainLiterals (before ++ .blockComment c :: behind)) : '\n' ∈ '/' :: z := by
  by_contra hfeed
  have hslash : '/' ∈ x := by
    obtain ⟨gap, r, -, hline⟩ := startsMark_eq_true_iff.1 h.mark
    have hrest := h.rest
    cases x with
    | nil =>
      obtain rfl : '*' :: (c ++ blockEnd) = z := (List.cons.inj h.lexeme).2
      rw [hline] at hrest
      cases hrest
    | cons d ds =>
      obtain rfl : '/' = d := (List.cons.inj h.lexeme).1
      exact List.mem_cons_self ..
  have hline := h.lastLine_eq hslash rfl
  have hlast : lastLine (text (.blockComment c)) = margin ++ '/' :: z := by
    rw [h.lexeme, lastLine_append hfeed, hline]
  have hbegins := hplain.comments c (by simp) margin ('/' :: z) hlast
  have hmargin : lastLine margin = margin :=
    lastLine_of_notMem (lineFeed_notMem_of_isMargin h.margin_isMargin)
  rw [beginsLicense, hmargin, List.all_eq_true.2 h.margin_isMargin,
    h.startsMark_of_blockComment hline] at hbegins
  cases hbegins

/-- The line ends in the lexeme that holds the mark, unless a line feed or nothing follows that. -/
theorem line_ends (h : MarkIn before l behind a margin line b x z)
    (hls : Lexed (before ++ l :: behind)) (hplain : PlainLiterals (before ++ l :: behind)) :
    behind = [] ∨ '\n' ∈ '/' :: z ∨ (textOf behind).head? = some '\n' := by
  have hbefore := hls.before_of_append
  have hempty : textOf behind = [] → behind = [] := by
    intro hnil
    cases behind with
    | nil => rfl
    | cons k ks => exact absurd (List.append_eq_nil_iff.1 hnil).1 k.text_ne_nil
  have hlit := h.isLiteral_eq_false hls hplain
  cases l with
  | code c =>
    -- the lexeme is the first slash of the mark, which would start a comment
    obtain ⟨gap, r, -, hline⟩ := startsMark_eq_true_iff.1 h.mark
    have hlexeme := h.lexeme
    have hrest := h.rest
    obtain ⟨rfl, rfl, rfl⟩ : x = [] ∧ c = '/' ∧ z = [] := by
      cases x with
      | nil => simpa [text] using hlexeme
      | cons d ds => simp [text] at hlexeme
    rw [hline] at hrest
    have htail : '/' :: (gap ++ licenseMark ++ r ++ b) = textOf behind := by
      simpa using (List.cons.inj hrest).2
    have hhead : (textOf behind).head? = some '/' := by
      rw [← htail]
      rfl
    exact absurd ⟨rfl, .inl hhead⟩ hbefore.2
  | lineComment c => exact hbefore.2.imp hempty .inr
  | blockComment c => exact .inr (.inl (h.lineFeed_mem_of_blockComment hplain))
  | openComment c => exact .inl (hempty hbefore.2)
  | literal q c e => cases hlit
  | openLiteral q c => cases hlit

/-- A literal behind the mark begins on a later line. -/
theorem le_start_of_mem (h : MarkIn before l behind a margin line b x z)
    (hls : Lexed (before ++ l :: behind)) (hplain : PlainLiterals (before ++ l :: behind)) {s : Span}
    (hs : s ∈ literalSpans (byteSize (textOf before) + byteSize l.text) behind) :
    byteSize (a ++ margin ++ line ++ b.take 1) ≤ s.start := by
  have hends := h.line_ends hls hplain
  obtain ⟨front, k, back, rfl, hk, hstart, -⟩ := exists_of_mem_literalSpans hs
  have hsize : byteSize (textOf before) + byteSize l.text =
      byteSize (a ++ margin) + byteSize ('/' :: z) := by
    rw [h.place, h.lexeme, byteSize_append, byteSize_append, Nat.add_assoc]
  have htotal : byteSize (a ++ margin ++ line ++ b.take 1) =
      byteSize (a ++ margin) + byteSize (line ++ b.take 1) := by
    rw [List.append_assoc, byteSize_append]
  have hrest := h.rest
  rcases hends with hnil | hfeed | hhead
  · cases front <;> cases hnil
  · obtain ⟨u, v, huv⟩ := List.append_of_mem hfeed
    rw [huv, List.append_assoc] at hrest
    have hle := byteSize_line_le hrest h.plain
    have hone : Char.utf8Size '\n' = 1 := rfl
    rw [huv, byteSize_append u, byteSize_cons, hone] at hsize
    omega
  · obtain ⟨v, hv⟩ := List.head?_eq_some_iff.1 hhead
    rw [hv] at hrest
    have hle := byteSize_line_le hrest h.plain
    -- no literal begins with the line feed, so another lexeme holds it
    have hfront : front ≠ [] := by
      rintro rfl
      have hbefore : k.Before (textOf back) := by
        have hall : before ++ l :: ([] ++ k :: back) = (before ++ [l]) ++ k :: back := by simp
        rw [hall] at hls
        exact hls.before_of_append
      obtain ⟨q, u, hq, hquote⟩ := exists_quote_of_isLiteral hbefore hk
      rw [List.nil_append, textOf_cons, hq] at hv
      obtain rfl : q = '\n' := (List.cons.inj hv).1
      exact absurd hquote (by decide)
    obtain ⟨d, ds, rfl⟩ := List.exists_cons_of_ne_nil hfront
    have hpos : 0 < byteSize d.text :=
      Nat.pos_of_ne_zero fun hzero => d.text_ne_nil (eq_nil_of_byteSize_eq_zero hzero)
    rw [textOf_cons, byteSize_append] at hstart
    omega

end MarkIn

theorem literal_license_apart (hls : Lexed ls) (h : PlainLiterals ls) {f : Found Text}
    (hf : f ∈ licenses (textOf ls)) {s : Span} (hs : s ∈ literalSpans 0 ls) :
    f.span.stop ≤ s.start ∨ s.stop ≤ f.span.start := by
  obtain ⟨a, margin, line, b, hmarked, hstart, hstop⟩ := exists_markedLine hf
  obtain ⟨before, l, behind, x, z, rfl, hmark⟩ := hmarked.exists_markIn
  rw [literalSpans_append, literalSpans, hmark.isLiteral_eq_false hls h, if_neg Bool.false_ne_true,
    Nat.zero_add, List.mem_append] at hs
  rw [hstart, hstop]
  rcases hs with hs | hs
  · exact .inr (hmark.stop_le_of_mem hls hs)
  · exact .inl (hmark.le_start_of_mem hls h hs)

end Source

end FlatSol
