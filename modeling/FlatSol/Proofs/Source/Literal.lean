import FlatSol.Proofs.Source.HeaderStart
import FlatSol.Proofs.Source.Lexeme
import FlatSol.Proofs.Text.Block

/-!
# Literals of a source text

Masking leaves the text of a literal as it is, so that the patterns see it. Whether they find something
that begins in a literal is told by its text alone, since the character that closes it belongs to no
keyword. Main statements: nothing is found where nothing begins in the text of a literal, and trimming
the ends of lines leaves a literal as it is.
-/

namespace FlatSol

open Text

namespace Lexeme

def isLiteral : Lexeme → Bool
  | .literal _ _ _ | .openLiteral _ _ => true
  | .code _ | .lineComment _ | .blockComment _ | .openComment _ => false

theorem isLiteral_iff {l : Lexeme} : l.isLiteral = true ↔
    (∃ q s e, l = .literal q s e) ∨ ∃ q s, l = .openLiteral q s := by
  cases l <;> simp [isLiteral]

/-- The bytes of the literals in a text that starts at byte `n`. -/
def literalSpans : Nat → List Lexeme → List Span
  | _, [] => []
  | n, l :: ls =>
    if l.isLiteral then ⟨n, n + byteSize l.text⟩ :: literalSpans (n + byteSize l.text) ls
    else literalSpans (n + byteSize l.text) ls

theorem textOf_append (ls ks : List Lexeme) : textOf (ls ++ ks) = textOf ls ++ textOf ks :=
  List.flatMap_append

theorem literalSpans_append (n : Nat) (ls ks : List Lexeme) : literalSpans n (ls ++ ks) =
    literalSpans n ls ++ literalSpans (n + byteSize (textOf ls)) ks := by
  induction ls generalizing n with
  | nil => rfl
  | cons l ls ih =>
    rw [List.cons_append, literalSpans, literalSpans, ih, textOf_cons, byteSize_append, Nat.add_assoc]
    split <;> rfl

theorem mem_literalSpans_append {before behind : List Lexeme} {l : Lexeme} (h : l.isLiteral = true) :
    ⟨byteSize (textOf before), byteSize (textOf before) + byteSize l.text⟩ ∈
      literalSpans 0 (before ++ l :: behind) := by
  rw [literalSpans_append, literalSpans, if_pos h, Nat.zero_add]
  exact List.mem_append_right _ (List.mem_cons_self ..)

theorem exists_of_mem_literalSpans {ls : List Lexeme} {n : Nat} {s : Span}
    (h : s ∈ literalSpans n ls) : ∃ before l behind, ls = before ++ l :: behind ∧
      l.isLiteral = true ∧ s.start = n + byteSize (textOf before) ∧
        s.stop = n + byteSize (textOf before) + byteSize l.text := by
  induction ls generalizing n with
  | nil => exact absurd h List.not_mem_nil
  | cons k ks ih =>
    have hcons : (k.isLiteral = true ∧ s = ⟨n, n + byteSize k.text⟩) ∨
        s ∈ literalSpans (n + byteSize k.text) ks := by
      rw [literalSpans] at h
      split at h
      · next hk => exact (List.mem_cons.1 h).imp (fun hs => ⟨hk, hs⟩) id
      · exact .inr h
    rcases hcons with ⟨hk, rfl⟩ | hs
    · exact ⟨[], k, ks, rfl, hk, rfl, rfl⟩
    · obtain ⟨before, l, behind, rfl, hl, hstart, hstop⟩ := ih hs
      refine ⟨k :: before, l, behind, rfl, hl, ?_, ?_⟩
      · rw [hstart, textOf_cons, byteSize_append, ← Nat.add_assoc]
      · rw [hstop, textOf_cons, byteSize_append, ← Nat.add_assoc]

theorem Lexed.of_append {before ls : List Lexeme} (h : Lexed (before ++ ls)) : Lexed ls := by
  induction before with
  | nil => exact h
  | cons l before ih => exact ih h.2

theorem Lexed.before_of_append {before behind : List Lexeme} {l : Lexeme}
    (h : Lexed (before ++ l :: behind)) : l.Before (textOf behind) :=
  h.of_append.1

/-! ### What a literal shows -/

theorem masked_of_isLiteral {l : Lexeme} (h : l.isLiteral = true) : l.masked = l.text := by
  cases l <;> first | rfl | cases h

@[simp] theorem byteSize_masked (l : Lexeme) : byteSize l.masked = byteSize l.text := by
  unfold masked
  split
  · induction l.text with
    | nil => rfl
    | cons c cs ih => rw [List.flatMap_cons, byteSize_append, Source.byteSize_blanked, ih, byteSize_cons]
  · rfl

theorem byteSize_flatMap {f : Lexeme → Text} (hf : ∀ l, byteSize (f l) = byteSize l.text)
    (ls : List Lexeme) : byteSize (ls.flatMap f) = byteSize (textOf ls) := by
  induction ls with
  | nil => rfl
  | cons l ls ih => rw [List.flatMap_cons, byteSize_append, hf, ih, textOf_cons, byteSize_append]

/-- A place in a lexeme, when each lexeme is written as a text of its size. -/
theorem exists_append_of_lexeme {f : Lexeme → Text} (hf : ∀ l, byteSize (f l) = byteSize l.text)
    {before behind : List Lexeme} {l : Lexeme} {a b : Text}
    (h : (before ++ l :: behind).flatMap f = a ++ b) (hle : byteSize (textOf before) ≤ byteSize a)
    (hlt : byteSize a < byteSize (textOf before) + byteSize l.text) :
    ∃ x z, a = before.flatMap f ++ x ∧ f l = x ++ z ∧ z ≠ [] ∧ b = z ++ behind.flatMap f := by
  rw [List.flatMap_append, List.flatMap_cons] at h
  rw [← byteSize_flatMap hf before] at hle hlt
  obtain ⟨x, rfl, hx⟩ := exists_append_of_byteSize_le h hle
  rw [byteSize_append, ← hf l] at hlt
  obtain ⟨z, hz, rfl⟩ := exists_append_of_byteSize_le hx.symm (by omega)
  refine ⟨x, z, rfl, hz, ?_, rfl⟩
  rintro rfl
  rw [hz, List.append_nil] at hlt
  omega

/-- Every character belongs to a lexeme, however each lexeme is written. -/
theorem exists_of_flatMap_eq {f : Lexeme → Text} {ls : List Lexeme} {a b : Text} {c : Char}
    (h : ls.flatMap f = a ++ c :: b) : ∃ before l behind x z, ls = before ++ l :: behind ∧
      a = before.flatMap f ++ x ∧ f l = x ++ c :: z ∧ b = z ++ behind.flatMap f := by
  induction ls generalizing a with
  | nil => simp at h
  | cons l ls ih =>
    rw [List.flatMap_cons] at h
    rcases List.append_eq_append_iff.1 h with ⟨y, rfl, hy⟩ | ⟨z, hl, hz⟩
    · obtain ⟨before, k, behind, x, z, rfl, rfl, hk, rfl⟩ := ih hy
      exact ⟨l :: before, k, behind, x, z, rfl, by simp, hk, rfl⟩
    · cases z with
      | nil =>
        obtain ⟨before, k, behind, x, z, rfl, hx, hk, rfl⟩ := ih (a := []) hz.symm
        rw [List.append_nil] at hl
        refine ⟨l :: before, k, behind, x, z, rfl, ?_, hk, rfl⟩
        rw [List.flatMap_cons, List.append_assoc, ← hx, hl, List.append_nil]
      | cons d z =>
        obtain ⟨rfl, rfl⟩ := List.cons.inj hz
        exact ⟨[], l, ls, a, z, rfl, rfl, hl, rfl⟩

theorem exists_lexeme {ls : List Lexeme} {a b : Text} {c : Char} (h : textOf ls = a ++ c :: b) :
    ∃ before l behind, ls = before ++ l :: behind ∧ byteSize (textOf before) ≤ byteSize a ∧
      byteSize a < byteSize (textOf before) + byteSize l.text := by
  obtain ⟨before, l, behind, x, z, rfl, rfl, hl, -⟩ := exists_of_flatMap_eq h
  have hc : 0 < c.utf8Size := Char.utf8Size_pos c
  refine ⟨before, l, behind, rfl, ?_, ?_⟩
  · rw [byteSize_append]
    exact Nat.le_add_right _ _
  · rw [hl]
    simp only [byteSize_append, byteSize_cons, textOf]
    omega

theorem blank_of_mem_masked {l : Lexeme} (hl : l.isComment = true) {c : Char} (hc : c ∈ l.masked) :
    isBlank c = true := by
  rw [masked, if_pos hl, List.mem_flatMap] at hc
  obtain ⟨d, -, hd⟩ := hc
  unfold Source.blanked at hd
  split at hd
  · rw [List.mem_singleton.1 hd]
    rfl
  · rw [List.eq_of_mem_replicate hd]
    rfl

theorem exists_quote_of_isLiteral {l : Lexeme} {rest : Text} (hl : l.Before rest)
    (h : l.isLiteral = true) : ∃ q u, l.text = q :: u ∧ isQuote q = true := by
  rcases isLiteral_iff.1 h with ⟨q, s, e, rfl⟩ | ⟨q, s, rfl⟩
  · exact ⟨q, s ++ [e], rfl, hl.1⟩
  · exact ⟨q, s, rfl, hl.1⟩

/-- What is no quote does not open a literal. -/
theorem ne_nil_of_isLiteral {l : Lexeme} {rest x z : Text} {c : Char} (hl : l.Before rest)
    (h : l.isLiteral = true) (htext : l.text = x ++ c :: z) (hc : isQuote c = false) : x ≠ [] := by
  rintro rfl
  obtain ⟨q, u, hq, hquote⟩ := exists_quote_of_isLiteral hl h
  obtain rfl : q = c := (List.cons.inj (hq.symm.trans htext)).1
  rw [hc] at hquote
  cases hquote

/-- A character that can close a literal. -/
def closes (e : Char) : Bool :=
  isQuote e || e == '\n'

/-- The last character of a literal closes it, unless nothing follows. -/
theorem eq_nil_or_exists_close {l : Lexeme} {rest x z : Text} (hl : l.Before rest)
    (h : l.isLiteral = true) (htext : l.text = x ++ z) (hz : z ≠ []) :
    rest = [] ∨ ∃ u e, z = u ++ [e] ∧ closes e = true := by
  rcases isLiteral_iff.1 h with ⟨q, s, e, rfl⟩ | ⟨q, s, rfl⟩
  · obtain ⟨hq, -, he⟩ := hl
    obtain ⟨u, d, rfl⟩ := List.eq_nil_or_concat z |>.resolve_left hz
    have hlast : (q :: s) ++ [e] = (x ++ u) ++ [d] := by simpa [text] using htext
    obtain ⟨-, hed⟩ := List.append_inj' hlast rfl
    obtain rfl : e = d := (List.cons.inj hed).1
    refine .inr ⟨u, e, List.concat_eq_append, ?_⟩
    rcases he with rfl | rfl
    · simp [closes, hq]
    · rfl
  · exact .inl hl.2.2

theorem isMargin_of_closes {e : Char} (h : closes e = true) : isMargin e = false := by
  have he : (e = '"' ∨ e = '\'') ∨ e = '\n' := by simpa [closes, isQuote] using h
  rcases he with (rfl | rfl) | rfl <;> rfl

theorem notMem_of_closes {e : Char} (h : closes e = true) {t : Text} (ht : t.any closes = false) :
    e ∉ t :=
  fun he => Bool.noConfusion (ht.symm.trans (List.any_eq_true.2 ⟨e, he, h⟩))

end Lexeme

namespace Source

/-! ### What begins in a literal is told by its text -/

/-- Whether an import has its keyword at the front of a text, with `line` before it. -/
def beginsImport (line t : Text) : Bool :=
  line.all isMargin && startsImport t

/-- Whether something begins does not depend on what follows a character that closes a literal. -/
def Closed (β : Text → Text → Bool) : Prop :=
  ∀ {line t r : Text} {e : Char}, Lexeme.closes e = true → β line (t ++ e :: r) = true →
    β line (t ++ [e]) = true

theorem followsKeyword_of_closes {t r : Text} {e : Char} (he : Lexeme.closes e = true)
    (h : followsKeyword (t ++ e :: r) = true) : followsKeyword (t ++ [e]) = true := by
  have hhead : ∀ u, (t ++ e :: u).head? = (t ++ [e]).head? := fun u => by cases t <;> rfl
  have hempty : ∀ u, (t ++ e :: u).isEmpty = false := fun u => by cases t <;> rfl
  rw [followsKeyword, hempty, hhead, Bool.false_or, Bool.and_eq_true] at h
  rw [followsKeyword, hempty, Bool.false_or, Bool.and_eq_true]
  refine ⟨h.1, ?_⟩
  have hword := h.2
  rw [List.dropWhile_append] at hword ⊢
  split at hword
  · next hnil =>
    rw [if_pos hnil]
    rcases Bool.or_eq_true_iff.1 he with hq | hfeed
    · have hblank : isBlank e = false := isBlank_of_isQuote hq
      rw [List.dropWhile_cons_of_neg (by simp [hblank])] at hword ⊢
      exact hword
    · obtain rfl : e = '\n' := by simpa using hfeed
      rfl
  · next hne =>
    rw [if_neg hne]
    cases hd : t.dropWhile isBlank with
    | nil => simp [hd] at hne
    | cons d ds =>
      rw [hd] at hword
      exact hword

theorem closed_beginsPragma : Closed beginsPragma := by
  intro line t r e he h
  obtain ⟨hword, u, hu, hfollows⟩ := beginsPragma_eq_true_iff.1 h
  have hkeyword : e ∉ pragmaKeyword := Lexeme.notMem_of_closes he rfl
  obtain ⟨z, rfl, rfl⟩ := exists_of_append_eq_append_cons hu.symm hkeyword
  exact beginsPragma_eq_true_iff.2
    ⟨hword, z ++ [e], List.append_assoc .., followsKeyword_of_closes he hfollows⟩

theorem closed_beginsImport : Closed beginsImport := by
  intro line t r e he h
  obtain ⟨hline, hstart⟩ := Bool.and_eq_true_iff.1 h
  obtain ⟨u, hu, hword⟩ := startsImport_eq_true_iff.1 hstart
  have hkeyword : e ∉ importKeyword := Lexeme.notMem_of_closes he rfl
  obtain ⟨z, rfl, rfl⟩ := exists_of_append_eq_append_cons hu.symm hkeyword
  refine Bool.and_eq_true_iff.2 ⟨hline, startsImport_eq_true_iff.2 ⟨z ++ [e], by simp, ?_⟩⟩
  cases z <;> exact hword

/-- A licence mark stands before every character that is none of its own. -/
theorem startsMark_of_append_cons {t r : Text} {e : Char} (hmargin : isMargin e = false)
    (hmark : e ∉ '/' :: licenseMark) (h : startsMark (t ++ e :: r) = true) :
    startsMark (t ++ [e]) = true := by
  obtain ⟨margin, u, hm, hu⟩ := startsMark_eq_true_iff.1 h
  rw [List.mem_cons, not_or] at hmark
  have hfront : e ∉ '/' :: '/' :: margin ++ licenseMark := by
    intro he
    simp only [List.cons_append, List.mem_cons, List.mem_append] at he
    rcases he with he | he | he | he
    · exact hmark.1 he
    · exact hmark.1 he
    · rw [hm e he] at hmargin
      cases hmargin
    · exact hmark.2 he
  obtain ⟨z, rfl, -⟩ := exists_of_append_eq_append_cons hu.symm hfront
  exact startsMark_eq_true_iff.2 ⟨margin, z ++ [e], hm, by simp⟩

theorem closed_beginsLicense : Closed beginsLicense := by
  intro line t r e he h
  obtain ⟨hline, hmark⟩ := Bool.and_eq_true_iff.1 h
  have hnot : e ∉ '/' :: licenseMark := Lexeme.notMem_of_closes he rfl
  exact Bool.and_eq_true_iff.2
    ⟨hline, startsMark_of_append_cons (Lexeme.isMargin_of_closes he) hnot hmark⟩

/-- What begins in a literal, with anything behind the literal, begins in its text. -/
theorem Closed.of_append {β : Text → Text → Bool} (hβ : Closed β) {l : Lexeme}
    {rest x z r line : Text} (hl : l.Before rest) (hlit : l.isLiteral = true)
    (htext : l.text = x ++ z) (hz : z ≠ []) (hr : rest = [] → r = [])
    (h : β line (z ++ r) = true) : β line z = true := by
  rcases Lexeme.eq_nil_or_exists_close hl hlit htext hz with hnil | ⟨u, e, rfl, he⟩
  · rwa [hr hnil, List.append_nil] at h
  · rw [List.append_assoc] at h
    exact hβ he h

end Source

/-! ### Trimming leaves literals as they are -/

namespace Lexeme

theorem Quoted.endsBlank {q : Char} (hq : isQuote q = true) {m : Text} (h : Quoted q m) (t : Text) :
    endsBlank (m ++ q :: t) = false := by
  induction h with
  | nil =>
    have hblank : isBlank q = false := isBlank_of_isQuote hq
    have hfeed : q ≠ '\n' := (ne_of_isBlank rfl hblank).symm
    rw [List.nil_append, endsBlank_cons hfeed, hblank, Bool.false_and]
  | plain _ _ hfeed _ ih => rw [List.cons_append, endsBlank_cons hfeed, ih, Bool.and_false]
  | protect _ _ => exact endsBlank_cons (by decide) _

/-- A line that ends in a literal ends in the backslash before its line feed. -/
theorem Quoted.trimLines {q : Char} (hq : isQuote q = true) {m : Text} (h : Quoted q m) (t : Text) :
    trimLines (m ++ q :: t) = m ++ trimLines (q :: t) := by
  induction h with
  | nil => rfl
  | @plain c cs _ _ hfeed hcs ih =>
    have hkeep : ¬ (c ≠ '\n' ∧ isBlank c = true ∧ Text.endsBlank (cs ++ q :: t) = true) := by
      rw [hcs.endsBlank hq]
      simp
    rw [List.cons_append, Text.trimLines, if_neg hkeep, ih, List.cons_append]
  | @protect c cs hcs ih =>
    have hback : ¬ ('\\' ≠ '\n' ∧ isBlank '\\' = true ∧
        Text.endsBlank (c :: cs ++ q :: t) = true) := fun h => absurd h.2.1 (by decide)
    have hkeep : ¬ (c ≠ '\n' ∧ isBlank c = true ∧ Text.endsBlank (cs ++ q :: t) = true) := by
      rw [hcs.endsBlank hq]
      simp
    rw [List.cons_append, List.cons_append, Text.trimLines, if_neg (by exact hback), Text.trimLines,
      if_neg hkeep, ih, List.cons_append, List.cons_append]

theorem Quoted.firm {q : Char} (hq : isQuote q = true) {m : Text} (h : Quoted q m) :
    Firm (q :: m ++ [q]) := by
  intro t
  have hquote : ∀ u, Text.trimLines (q :: u) = q :: Text.trimLines u := by
    intro u
    have hkeep : ¬ (q ≠ '\n' ∧ isBlank q = true ∧ Text.endsBlank u = true) := by
      rw [isBlank_of_isQuote hq]
      simp
    rw [Text.trimLines, if_neg hkeep]
  have htext : q :: m ++ [q] ++ t = q :: (m ++ q :: t) := by simp
  rw [htext, hquote, h.trimLines hq, hquote]
  simp

end Lexeme

end FlatSol
