import FlatSol.Proofs.Source.ImportForm
import FlatSol.Proofs.Source.Literal

/-!
# The literals that import paths are read from

An import statement reads its path between two quotes of either kind, while a literal is closed by the
quote that opened it. Main statements: a statement that begins in no literal reads its path in its first
literal, and the path is what that literal holds exactly if the literal is closed and holds no quote;
the statement `import "path";` at the start of a line gives its path exactly if that holds no quote.
-/

namespace FlatSol

open Text

namespace Lexeme

/-- What stands between the quotes of a literal that the quote it began with closes. -/
def contents? : Lexeme → Option Text
  | .literal q m e => if e = q then some m else none
  | .code _ | .lineComment _ | .blockComment _ | .openComment _ | .openLiteral _ _ => none

theorem contents?_eq_some_iff {l : Lexeme} {m : Text} :
    l.contents? = some m ↔ ∃ q, l = .literal q m q := by
  constructor
  · intro h
    cases l with
    | literal q s e =>
      obtain ⟨rfl, hs⟩ := Option.ite_none_right_eq_some.1 h
      obtain rfl := Option.some.inj hs
      exact ⟨e, rfl⟩
    | code c => cases h
    | lineComment s => cases h
    | blockComment s => cases h
    | openComment s => cases h
    | openLiteral q s => cases h
  · rintro ⟨q, rfl⟩
    exact if_pos rfl

/-- A closed literal without a quote of either kind in it. -/
def IsUnquoted (l : Lexeme) : Prop :=
  ∃ m, l.contents? = some m ∧ ∀ c ∈ m, isQuote c = false

/-- The literal `l`, which stands behind the lexemes `before`, is the first one in the bytes `s`. -/
structure FirstIn (before : List Lexeme) (l : Lexeme) (s : Span) : Prop where
  isLiteral : l.isLiteral = true
  start_le : s.start ≤ byteSize (textOf before)
  lt_stop : byteSize (textOf before) < s.stop
  first : ∀ r ∈ literalSpans 0 before, r.stop ≤ s.start

/-! ### Quotes in the masked text -/

variable {ls : List Lexeme}

/-- A quote that the mask leaves belongs to a literal. -/
theorem Lexed.exists_literal_of_quote (hls : Lexed ls) {a b : Text} {q : Char}
    (hq : isQuote q = true) (h : Source.mask (textOf ls) = a ++ q :: b) :
    ∃ before l behind x z, ls = before ++ l :: behind ∧ l.isLiteral = true ∧
      a = before.flatMap masked ++ x ∧ l.text = x ++ q :: z ∧ b = z ++ behind.flatMap masked := by
  rw [hls.mask_textOf] at h
  obtain ⟨before, l, behind, x, z, rfl, ha, htext, hb⟩ := exists_of_flatMap_eq h
  have hmem : q ∈ l.masked := by
    rw [htext]
    exact List.mem_append_right _ (List.mem_cons_self ..)
  have hcomment : l.isComment = false := by
    rw [Bool.eq_false_iff]
    intro hl
    exact Bool.noConfusion ((blank_of_mem_masked hl hmem).symm.trans (isBlank_of_isQuote hq))
  have hliteral : l.isLiteral = true := by
    cases l with
    | literal q s e => rfl
    | openLiteral q s => rfl
    | code c =>
      obtain rfl : q = c := List.mem_singleton.1 hmem
      exact Bool.noConfusion (hq.symm.trans hls.before_of_append.1)
    | lineComment s => cases hcomment
    | blockComment s => cases hcomment
    | openComment s => cases hcomment
  rw [masked_of_isLiteral hliteral] at htext
  exact ⟨before, l, behind, x, z, rfl, hliteral, ha, htext, hb⟩

/-- No literal begins in a part of the masked text without quotes, so one that begins before its end
ends before its start, if that is in no literal. -/
theorem Lexed.literal_stop_le {before behind : List Lexeme} {l : Lexeme}
    (hls : Lexed (before ++ l :: behind)) (hl : l.isLiteral = true) {a u b : Text}
    (h : Source.mask (textOf (before ++ l :: behind)) = a ++ u ++ b)
    (hu : ∀ c ∈ u, isQuote c = false)
    (hcover : covers (literalSpans 0 (before ++ l :: behind)) (byteSize a) = false)
    (hlt : byteSize (textOf before) < byteSize (a ++ u)) :
    byteSize (textOf before) + byteSize l.text ≤ byteSize a := by
  refine covers_eq_false_iff.1 hcover _ (mem_literalSpans_append hl) ?_
  by_contra hgt
  obtain ⟨q, w, hq, hquote⟩ := exists_quote_of_isLiteral hls.before_of_append hl
  rw [hls.mask_textOf, List.flatMap_append, List.flatMap_cons, masked_of_isLiteral hl, hq,
    List.append_assoc a] at h
  rw [← byteSize_flatMap byteSize_masked] at hlt hgt
  obtain ⟨v, hv, hrest⟩ := exists_append_of_byteSize_le h.symm (Nat.le_of_not_le hgt)
  rw [hv, byteSize_append, byteSize_append] at hlt
  obtain ⟨z, rfl, hz⟩ := exists_append_of_byteSize_le hrest.symm (by omega)
  cases z with
  | nil =>
    rw [List.append_nil] at hlt
    omega
  | cons c cs =>
    obtain rfl : q = c := (List.cons.inj hz).1
    have hplain := hu q (by simp)
    rw [hquote] at hplain
    cases hplain

/-- The first quote behind a place in no literal opens the first literal behind it. -/
theorem Lexed.exists_first_literal (hls : Lexed ls) {a u b : Text} {q : Char}
    (h : Source.mask (textOf ls) = a ++ u ++ q :: b) (hu : ∀ c ∈ u, isQuote c = false)
    (hq : isQuote q = true) (hcover : covers (literalSpans 0 ls) (byteSize a) = false) :
    ∃ before l behind z, ls = before ++ l :: behind ∧ l.isLiteral = true ∧
      byteSize (textOf before) = byteSize (a ++ u) ∧
      (∀ r ∈ literalSpans 0 before, r.stop ≤ byteSize a) ∧ l.text = q :: z ∧
      b = z ++ behind.flatMap masked := by
  obtain ⟨before, l, behind, x, z, rfl, hl, hx, htext, hb⟩ := hls.exists_literal_of_quote hq h
  have hsize : byteSize (a ++ u) = byteSize (textOf before) + byteSize x := by
    rw [hx, byteSize_append, byteSize_flatMap byteSize_masked]
  have hzero : byteSize x = 0 := by
    by_contra hpos
    have hstop := hls.literal_stop_le hl h hu hcover (by omega)
    have hopening : 0 < q.utf8Size := Char.utf8Size_pos q
    rw [htext] at hstop
    simp only [byteSize_append, byteSize_cons] at hstop hsize
    omega
  obtain rfl := eq_nil_of_byteSize_eq_zero hzero
  refine ⟨before, l, behind, z, rfl, hl, by rw [hsize, hzero, Nat.add_zero], ?_, htext, hb⟩
  intro r hr
  obtain ⟨front, k, back, rfl, hk, -, hstop⟩ := exists_of_mem_literalSpans hr
  rw [hstop, Nat.zero_add]
  rw [List.append_assoc, List.cons_append] at hls h hcover
  refine hls.literal_stop_le hk h hu hcover ?_
  have hpos : 0 < byteSize k.text :=
    Nat.pos_of_ne_zero fun hnil => k.text_ne_nil (eq_nil_of_byteSize_eq_zero hnil)
  rw [hsize, hzero, textOf_append, textOf_cons, byteSize_append, byteSize_append]
  omega

/-- What stands before the first quote of either kind is what a literal holds if the literal is closed
and holds no quote itself. -/
theorem contents?_eq_some_iff_isUnquoted {l : Lexeme} {q e : Char} {z r m y : Text}
    (htext : l.text = q :: z) (h : m ++ e :: y = z ++ r) (hm : ∀ c ∈ m, isQuote c = false)
    (he : isQuote e = true) (hl : l.isLiteral = true) {rest : Text} (hbefore : l.Before rest) :
    l.contents? = some m ↔ l.IsUnquoted := by
  refine ⟨fun hc => ⟨m, hc, hm⟩, ?_⟩
  rintro ⟨s, hs, hplain⟩
  have hfront : ∀ {t v : Text} {d : Char}, (∀ c ∈ t, isQuote c = false) → isQuote d = true →
      (t ++ d :: v).takeWhile (fun c => !isQuote c) = t := by
    intro t v d ht hd
    rw [List.takeWhile_append_of_pos fun c hc => by simp [ht c hc],
      List.takeWhile_cons_of_neg (by simp [hd]), List.append_nil]
  obtain ⟨q', rfl⟩ := contents?_eq_some_iff.1 hs
  obtain ⟨rfl, rfl⟩ := List.cons.inj htext
  rw [List.append_assoc, List.singleton_append] at h
  have hsm : m = s := by rw [← hfront hm he, h, hfront hplain hbefore.1]
  rw [hs, hsm]

end Lexeme

open Lexeme

namespace Source

/-! ### The path of a statement -/

variable {ls : List Lexeme}

theorem exists_literal_of_import (hls : Lexed ls) {d : ImportDirective}
    (hd : d ∈ imports (textOf ls)) (hcover : covers (literalSpans 0 ls) d.span.start = false) :
    ∃ before l behind, ls = before ++ l :: behind ∧ FirstIn before l d.span ∧
      (l.contents? = some d.path ↔ l.IsUnquoted) := by
  obtain ⟨f, hf, rfl⟩ := List.mem_map.1 hd
  obtain ⟨a, b, m, hmask, hm, rfl⟩ := Pattern.exists_of_mem_findAll hf
  obtain ⟨-, margin, s, behind, hmargin, rfl, rfl⟩ := exists_of_importStatement hm
  have hquote : mask (textOf ls) = a ++ (margin ++ importKeyword ++ s.clause) ++
      s.opening :: (s.path ++ s.closing :: (s.rest ++ ';' :: behind)) := by
    rw [hmask]
    simp [Statement.text, Statement.inside]
  have hclause : ∀ c ∈ margin ++ importKeyword ++ s.clause, isQuote c = false := by
    intro c hc
    rw [List.mem_append, List.mem_append] at hc
    rcases hc with (hc | hc) | hc
    · exact Scan.isQuote_of_isBlank (isBlank_of_isMargin (hmargin c hc))
    · revert c
      simp [importKeyword, isQuote]
    · exact (s.clause_plain c hc).1
  obtain ⟨before, l, back, z, rfl, hl, hsize, hfirst, htext, hrest⟩ :=
    hls.exists_first_literal hquote hclause s.opening_isQuote hcover
  refine ⟨before, l, back, rfl, ⟨hl, ?_, ?_, hfirst⟩, ?_⟩
  · rw [hsize, byteSize_append]
    exact Nat.le_add_right _ _
  · refine Nat.lt_of_lt_of_le ?_ (le_lineRestEnd _ _)
    have hopening : 0 < s.opening.utf8Size := Char.utf8Size_pos _
    simp only [hsize, List.take_left, Statement.text, Statement.inside, byteSize_append,
      byteSize_cons]
    omega
  · exact contents?_eq_some_iff_isUnquoted htext hrest s.path_plain s.closing_isQuote hl
      hls.before_of_append

/-- The statement `import "path";`, with the quote `q`. -/
def importOf (q : Char) (path : Text) : Text :=
  importKeyword ++ ' ' :: q :: (path ++ [q, ';'])

theorem leaves_importOf {q : Char} {path : Text} (hq : isQuote q = true) (hpath : Quoted q path) :
    Leaves (importOf q path) (importOf q path) := by
  have hkeyword : Leaves (importKeyword ++ [' ']) (importKeyword ++ [' ']) :=
    leaves_of_codeChar (by simp [importKeyword, isCodeChar, isQuote])
  have hliteral : Leaves (text (.literal q path q)) (text (.literal q path q)) :=
    fun r => mask_text_append (l := .literal q path q) ⟨hq, hpath, .inl rfl⟩
  have hend : Leaves [';'] [';'] := leaves_of_codeChar (by simp [isCodeChar, isQuote])
  have hall := hkeyword.append (hliteral.append hend)
  simpa [importOf, text] using hall

/-- The statement at the start of a line is found if no statement before it goes on there. -/
theorem mem_imports_importOf {pre path post : Text} {q : Char} (hcode : Scan.code.after pre = .code)
    (hline : startsLine pre.getLast? = true) (hq : isQuote q = true) (hne : path ≠ [])
    (hplain : ∀ c ∈ path, isQuote c = false) (hquoted : Quoted q path)
    (hfree : ∀ d ∈ imports (pre ++ importOf q path ++ post),
      d.span.start < byteSize pre → d.span.stop ≤ byteSize pre) :
    ∃ d ∈ imports (pre ++ importOf q path ++ post), d.span.start = byteSize pre ∧ d.path = path := by
  let s : Statement :=
    { clause := [' ']
      opening := q
      path := path
      closing := q
      rest := []
      clause_plain := by simp [isQuote]
      opening_isQuote := hq
      path_ne_nil := hne
      path_plain := hplain
      closing_isQuote := hq
      rest_plain := by simp
      bounded := rfl }
  have hs : s.text = importOf q path := by simp [s, Statement.text, Statement.inside, importOf]
  have hmask : mask (pre ++ importOf q path ++ post) = mask pre ++ (s.text ++ mask post) := by
    rw [List.append_assoc, leaves_of_code hcode, leaves_importOf hq hquoted, hs]
  have hstart : startsLine (mask pre).getLast? = true := by
    rcases eq_nil_or_exists_of_startsLine hline with rfl | ⟨u, rfl⟩
    · rfl
    · simp [Scan.mask_eq_paint, Scan.paint_append_lineFeed, Scan.paint, startsLine]
  have hmatch : importStatement (mask pre).getLast? (s.text ++ mask post) =
      some ⟨s.text.length, path⟩ := by
    have hmargin : ∀ c ∈ ([] : Text), isMargin c = true := by simp
    simpa using importStatement_append hstart hmargin s (mask post)
  obtain ⟨f, hf, hle, hlt⟩ := Pattern.exists_covering hmatch
    (by simp [Statement.text, importKeyword]) (by simp [Statement.text, importKeyword])
  rw [← hmask] at hf
  rw [byteSize_mask] at hle hlt
  have hmem : (⟨f.value, f.span.start, lineRestEnd (pre ++ importOf q path ++ post) f.span.stop⟩ :
      ImportDirective) ∈ imports (pre ++ importOf q path ++ post) := List.mem_map_of_mem hf
  have heq : f.span.start = byteSize pre := by
    by_contra hbefore
    have hstop := hfree _ hmem (by simp only; omega)
    exact absurd (Nat.lt_of_lt_of_le hlt (le_lineRestEnd _ _)) (Nat.not_lt.2 hstop)
  refine ⟨_, hmem, heq, ?_⟩
  obtain ⟨a, b, m, hab, hm, rfl⟩ := Pattern.exists_of_mem_findAll hf
  obtain ⟨rfl, rfl⟩ := append_inj_of_byteSize_eq (hab.symm.trans hmask)
    (by rw [byteSize_mask]; exact heq)
  rw [hmatch] at hm
  rw [← Option.some.inj hm]

/-- How the paths of a text with the lexemes `ls` come from its literals. -/
structure ReadsLiterals (ls : List Lexeme) : Prop where
  literal : ∀ d ∈ imports (textOf ls), covers (literalSpans 0 ls) d.span.start = false →
    ∃ before l behind, ls = before ++ l :: behind ∧ FirstIn before l d.span ∧
      (l.contents? = some d.path ↔ l.IsUnquoted)
  line : ∀ pre q path post, textOf ls = pre ++ importOf q path ++ post →
    Scan.code.after pre = .code → startsLine pre.getLast? = true → isQuote q = true → path ≠ [] →
    (∀ c ∈ path, c ≠ q ∧ c ≠ '\\' ∧ c ≠ '\n') →
    (∀ d ∈ imports (textOf ls), d.span.start < byteSize pre → d.span.stop ≤ byteSize pre) →
    ((∃ d ∈ imports (textOf ls), d.span.start = byteSize pre ∧ d.path = path) ↔
      ∀ c ∈ path, isQuote c = false)

theorem path_plain_of_mem_imports {t : Text} {d : ImportDirective} (h : d ∈ imports t) :
    ∀ c ∈ d.path, isQuote c = false := by
  obtain ⟨f, hf, rfl⟩ := List.mem_map.1 h
  obtain ⟨a, b, m, -, hm, rfl⟩ := Pattern.exists_of_mem_findAll hf
  obtain ⟨-, margin, s, behind, -, -, rfl⟩ := exists_of_importStatement hm
  exact s.path_plain

/-- Paths are the contents of literals as far as those hold no quotes. -/
theorem imports_readLiterals (hls : Lexed ls) : ReadsLiterals ls := by
  constructor
  case literal => exact fun d hd hcover => exists_literal_of_import hls hd hcover
  case line =>
    intro pre q path post ht hcode hline hq hne hpath hfree
    rw [ht] at hfree ⊢
    constructor
    · rintro ⟨d, hd, -, rfl⟩
      exact path_plain_of_mem_imports hd
    · exact fun hplain =>
        mem_imports_importOf hcode hline hq hne hplain (quoted_of_ne hpath) hfree

/-- The lexemes of `import "path";` on a line of its own. -/
def importLexemes (path : Text) : List Lexeme :=
  (importKeyword ++ [' ']).map .code ++ [.literal '"' path '"', .code ';', .code '\n']

theorem textOf_importLexemes (path : Text) :
    textOf (importLexemes path) = importOf '"' path ++ ['\n'] := by
  simp [importLexemes, importOf, importKeyword, textOf, text]

theorem lexed_importLexemes {path : Text} (h : ∀ c ∈ path, c ≠ '"' ∧ c ≠ '\\' ∧ c ≠ '\n') :
    Lexed (importLexemes path) :=
  lexed_codes_append rfl ⟨⟨rfl, quoted_of_ne h, .inl rfl⟩, ⟨rfl, by decide⟩, ⟨rfl, by decide⟩, trivial⟩

theorem imports_readLiterals_plain : Lexed (importLexemes "./A.sol".toList) ∧
    ∃ d ∈ imports (textOf (importLexemes "./A.sol".toList)),
      d.span.start = 0 ∧ d.path = "./A.sol".toList := by
  have hlexed : Lexed (importLexemes "./A.sol".toList) := lexed_importLexemes (by simp)
  have hreads := imports_readLiterals hlexed
  have hline := hreads.line [] '"' "./A.sol".toList ['\n'] (textOf_importLexemes _) rfl rfl rfl
    (by simp) (by simp) fun d _ h => absurd h (Nat.not_lt_zero _)
  exact ⟨hlexed, hline.2 (by simp [isQuote])⟩

/-- An apostrophe in the path ends it, and no literal holds what is left of it. -/
theorem imports_apostrophe : Lexed (importLexemes "it's.sol".toList) ∧
    textOf (importLexemes "it's.sol".toList) = importOf '"' "it's.sol".toList ++ ['\n'] ∧
      imports (textOf (importLexemes "it's.sol".toList)) = [⟨['i', 't'], ⟨0, 19⟩⟩] ∧
        ∀ l ∈ importLexemes "it's.sol".toList, l.contents? ≠ some ['i', 't'] :=
  ⟨lexed_importLexemes (by simp), textOf_importLexemes _, by cbv, by decide⟩

end Source

end FlatSol
