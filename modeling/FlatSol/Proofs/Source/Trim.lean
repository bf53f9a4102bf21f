import FlatSol.Proofs.Source.Scan
import FlatSol.Proofs.Source.Statement
import FlatSol.Proofs.Text.Lines

/-!
# Trimming a text that is masked

White space at the end of a line means nothing to the reader, unless a backslash in a literal stands
before it: then the line feed would be escaped in its place.
-/

namespace FlatSol

open Text

namespace Scan

def isEscape : Scan → Bool
  | .escape _ => true
  | _ => false

/-- Whether no backslash in a literal stands before white space that ends its line. -/
def escapesHold : Scan → Text → Bool
  | _, [] => true
  | s, c :: cs =>
    !(s.isEscape && isBlank c && c != '\n' && endsBlank cs) && escapesHold (s.next c) cs

def quoted : Scan → Bool
  | .literal q | .escape q => isQuote q
  | _ => true

theorem quoted_next {s : Scan} (h : s.quoted = true) (c : Char) : (s.next c).quoted = true := by
  cases s with
  | literal q =>
    have hq : isQuote q = true := h
    simp only [next]
    split
    · exact hq
    · split
      · rfl
      · exact hq
  | escape q => exact h
  | code =>
    simp only [next]
    split
    · rfl
    · split
      · assumption
      · rfl
  | slash =>
    simp only [next]
    split
    · rfl
    · split
      · rfl
      · split
        · assumption
        · rfl
  | line => simp only [next]; split <;> rfl
  | block => simp only [next]; split <;> rfl
  | star =>
    simp only [next]
    split
    · rfl
    · split <;> rfl

theorem quoted_after {s : Scan} (h : s.quoted = true) (t : Text) : (s.after t).quoted = true := by
  induction t generalizing s with
  | nil => exact h
  | cons c cs ih => exact ih (quoted_next h c)

theorem isQuote_of_isBlank {c : Char} (h : isBlank c = true) : isQuote c = false := by
  rw [Bool.eq_false_iff]
  intro hq
  rw [isBlank_of_isQuote hq] at h
  exact Bool.noConfusion h

/-- The state `k` in front of white space that was taken away, and the state `s` inside it. -/
def Trails (k s : Scan) : Prop :=
  k = s ∨ (k = .slash ∧ s = .code) ∨ (k = .star ∧ s = .block)

theorem Trails.next_of_isBlank {k s : Scan} {c : Char} (h : Trails k s) (hs : s.quoted = true)
    (he : s.isEscape = false) (hc : isBlank c = true) (hne : c ≠ '\n') : Trails k (s.next c) := by
  have hslash : c ≠ '/' := ne_of_isBlank hc rfl
  have hstar : c ≠ '*' := ne_of_isBlank hc rfl
  have hback : c ≠ '\\' := ne_of_isBlank hc rfl
  have hquote : isQuote c = false := isQuote_of_isBlank hc
  rcases h with rfl | ⟨rfl, rfl⟩ | ⟨rfl, rfl⟩
  · cases k with
    | code => exact .inl (by simp [next, hslash, hquote])
    | slash => exact .inr (.inl ⟨rfl, by simp [next, hslash, hstar, hquote]⟩)
    | line => exact .inl (by simp [next, hne])
    | block => exact .inl (by simp [next, hstar])
    | star => exact .inr (.inr ⟨rfl, by simp [next, hslash, hstar]⟩)
    | literal q =>
      have hq : c ≠ q := by
        rintro rfl
        exact Bool.noConfusion (hquote.symm.trans hs)
      exact .inl (by simp [next, hback, hq, hne])
    | escape q => exact Bool.noConfusion he
  · exact .inr (.inl ⟨rfl, by simp [next, hslash, hquote]⟩)
  · exact .inr (.inr ⟨rfl, by simp [next, hstar]⟩)

theorem Trails.next_lineFeed {k s : Scan} (h : Trails k s) : k.next '\n' = s.next '\n' := by
  rcases h with rfl | ⟨rfl, rfl⟩ | ⟨rfl, rfl⟩ <;> rfl

@[simp] theorem shown_lineFeed (s : Scan) (t : Text) : shown s '\n' t = ['\n'] := by
  cases s <;> rfl

theorem blank_of_mem_shown {s : Scan} {c d : Char} {t : Text} (hc : isBlank c = true)
    (hne : c ≠ '\n') (hd : d ∈ shown s c t) : isBlank d = true ∧ d ≠ '\n' := by
  rcases shown_cases s c t with h | h
  · rw [h, List.mem_singleton] at hd
    rw [hd]
    exact ⟨hc, hne⟩
  · rw [h] at hd
    rw [List.eq_of_mem_replicate hd]
    decide

theorem any_opens_trimLines (t : Text) :
    (trimLines t).head?.any opens = t.head?.any opens := by
  cases t with
  | nil => rfl
  | cons c cs =>
    rw [trimLines]
    split
    · next h =>
      have hslash : c ≠ '/' := ne_of_isBlank h.2.1 rfl
      have hstar : c ≠ '*' := ne_of_isBlank h.2.1 rfl
      rcases head?_trimLines h.2.2 with hk | hk <;> simp [hk, hslash, hstar, opens]
    · rfl

theorem head?_paint {s : Scan} {t : Text} (h : t.head? = none ∨ t.head? = some '\n') :
    (paint s t).head? = none ∨ (paint s t).head? = some '\n' := by
  cases t with
  | nil => exact .inl rfl
  | cons c cs =>
    have hc : c = '\n' := by simpa using h
    rw [hc, paint, shown_lineFeed]
    exact .inr rfl

/-- Read from states that differ only inside white space that was taken away, a text and its trimmed
form are masked alike, up to white space at the ends of lines. -/
theorem padded_paint_trimLines {k s : Scan} {t : Text} (h : Trails k s)
    (hks : k = s ∨ endsBlank t = true) (hs : s.quoted = true) (he : escapesHold s t = true) :
    Padded (paint k (trimLines t)) (paint s t) ∧
      Trails (k.after (trimLines t)) (s.after t) := by
  induction t generalizing k s with
  | nil => exact ⟨.nil, h⟩
  | cons c cs ih =>
    rw [escapesHold, Bool.and_eq_true] at he
    obtain ⟨hesc, hrest⟩ := he
    have hsn := quoted_next hs c
    by_cases hdrop : c ≠ '\n' ∧ isBlank c = true ∧ endsBlank cs = true
    · obtain ⟨hne, hc, hends⟩ := hdrop
      have hnot : s.isEscape = false := by simpa [hc, hne, hends] using hesc
      have hnext := h.next_of_isBlank hs hnot hc hne
      obtain ⟨hpaint, hafter⟩ := ih hnext (.inr hends) hsn hrest
      rw [trimLines, if_pos ⟨hne, hc, hends⟩, paint]
      refine ⟨hpaint.pads (head?_paint (head?_trimLines hends)) fun d hd => ?_, hafter⟩
      exact blank_of_mem_shown hc hne hd
    · rw [trimLines, if_neg hdrop, paint, paint, after_cons, after_cons]
      by_cases hc : c = '\n'
      · subst hc
        rw [h.next_lineFeed, shown_lineFeed, shown_lineFeed]
        obtain ⟨hpaint, hafter⟩ := ih (.inl rfl) (.inl rfl) hsn hrest
        exact ⟨hpaint.append_left _, hafter⟩
      · have heq : k = s := by
          refine hks.resolve_right fun hends => hdrop ?_
          rw [endsBlank_cons hc, Bool.and_eq_true] at hends
          exact ⟨hc, hends⟩
        subst heq
        have hshown : shown k c (trimLines cs) = shown k c cs :=
          shown_congr fun _ => any_opens_trimLines cs
        obtain ⟨hpaint, hafter⟩ := ih (.inl rfl) (.inl rfl) hsn hrest
        rw [hshown]
        exact ⟨hpaint.append_left _, hafter⟩

/-! ### Blocks -/

/-- Whether the reader is inside a block comment. -/
def inBlock : Scan → Bool
  | .block | .star => true
  | _ => false

theorem paint_append_lineFeed (s : Scan) (a b : Text) :
    paint s (a ++ '\n' :: b) = paint s a ++ '\n' :: paint ((s.after a).next '\n') b := by
  rw [paint_append (.inr (.inr rfl)), paint, shown_lineFeed]
  rfl

theorem paint_lineFeeds (s : Scan) (n : Nat) :
    paint s (List.replicate n '\n') = List.replicate n '\n' := by
  induction n generalizing s with
  | zero => rfl
  | succ n ih =>
    rw [List.replicate_succ, paint, shown_lineFeed, ih]
    rfl

theorem after_code_lineFeeds (n : Nat) : code.after (List.replicate n '\n') = .code := by
  induction n with
  | zero => rfl
  | succ n ih => exact ih

theorem paint_code_lineFeeds_append (n : Nat) (t : Text) :
    paint code (List.replicate n '\n' ++ t) = List.replicate n '\n' ++ paint code t := by
  rw [paint_append, paint_lineFeeds, after_code_lineFeeds]
  rw [after_code_lineFeeds]
  exact .inr (.inl Scan.noConfusion)

theorem paint_append_lineFeeds (s : Scan) (t : Text) (n : Nat) :
    paint s (t ++ List.replicate n '\n') = paint s t ++ List.replicate n '\n' := by
  rw [paint_append, paint_lineFeeds]
  cases n with
  | zero => exact .inr (.inr rfl)
  | succ n => exact .inr (.inr rfl)

/-- Two line feeds end everything but a block comment, and one that is open stays open. -/
theorem next_next_lineFeed {s : Scan} {n : Nat}
    (h : (s.after (List.replicate n '\n')).inBlock = false) : (s.next '\n').next '\n' = .code := by
  have hopen : ∀ n, block.after (List.replicate n '\n') = .block := by
    intro n
    induction n with
    | zero => rfl
    | succ n ih => exact ih
  have hstar : ∀ n, (star.after (List.replicate n '\n')).inBlock = true := by
    intro n
    cases n with
    | zero => rfl
    | succ n =>
      have hnext : star.after (List.replicate (n + 1) '\n') = block.after (List.replicate n '\n') :=
        rfl
      rw [hnext, hopen]
      rfl
  cases s with
  | code => rfl
  | slash => rfl
  | line => rfl
  | block =>
    rw [hopen] at h
    exact Bool.noConfusion h
  | star =>
    rw [hstar] at h
    exact Bool.noConfusion h
  | literal q => simp [next, isQuote]
  | escape q => simp [next]

theorem Trails.inBlock_eq {k s : Scan} (h : Trails k s) : k.inBlock = s.inBlock := by
  rcases h with rfl | ⟨rfl, rfl⟩ | ⟨rfl, rfl⟩ <;> rfl

/-- The block of a text that ends in no block comment is masked like the text, up to white space at the
ends of lines and empty lines at its ends, and two line feeds behind it lead back into the code. -/
theorem exists_paint_asBlock {t : Text} (he : escapesHold .code t = true)
    (hend : (code.after t).inBlock = false) :
    (∃ i j, Padded (List.replicate i '\n' ++ paint code (asBlock t) ++ List.replicate j '\n')
      (paint code t)) ∧ code.after (asBlock t ++ ['\n', '\n']) = .code := by
  obtain ⟨i, j, ht⟩ := exists_asBlock t
  obtain ⟨hpaint, hafter⟩ := padded_paint_trimLines (k := code) (.inl rfl) (.inl rfl) rfl he
  have hcode := hafter.inBlock_eq.trans hend
  rw [ht, List.append_assoc] at hpaint hcode
  rw [paint_code_lineFeeds_append, paint_append_lineFeeds, ← List.append_assoc] at hpaint
  rw [after_append, after_code_lineFeeds, after_append] at hcode
  refine ⟨⟨i, j, hpaint⟩, ?_⟩
  rw [after_append]
  exact next_next_lineFeed hcode

end Scan

end FlatSol
