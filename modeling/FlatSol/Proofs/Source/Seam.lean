import FlatSol.Proofs.Source.Scan

/-!
# Cutting a text that is masked

Masking and cutting can change places when every stretch that is cut ends in the state of the reader
in which it begins, and none begins behind a slash of the code.
-/

namespace FlatSol

open Text

namespace Scan

/-- Whether the reader does not notice what is cut out: `s` is its state in the text, which starts
at byte `n`, and `k` its state in what is kept so far. -/
def seamless (p : Nat → Bool) : Nat → Scan → Scan → Text → Bool
  | _, s, k, [] => s == k
  | n, s, k, c :: cs =>
    if p n then s == k && seamless p (n + c.utf8Size) (s.next c) (k.next c) cs
    else k != .slash && seamless p (n + c.utf8Size) (s.next c) k cs

theorem head?_keep {p : Nat → Bool} {n : Nat} {s : Scan} {t : Text}
    (h : seamless p n s .slash t = true) : (keep p n t).head? = t.head? := by
  cases t with
  | nil => rfl
  | cons c cs =>
    by_cases hp : p n = true
    · simp [keep, hp]
    · simp [seamless, hp] at h

/-- What is kept of a text is masked as it is in the text. -/
theorem paint_keep {p : Nat → Bool} {n : Nat} {s k : Scan} {t : Text}
    (h : seamless p n s k t = true) (hp : Steady p n t) :
    paint k (keep p n t) = keep p n (paint s t) := by
  induction t generalizing n s k with
  | nil => rfl
  | cons c cs ih =>
    obtain ⟨hc, hcs⟩ := hp
    have hkept : keep p n (shown s c cs) = if p n then shown s c cs else [] := by
      refine keep_eq_ite fun k hk hk' => ?_
      rw [byteSize_shown] at hk'
      exact hc k hk hk'
    rw [paint, keep_append, byteSize_shown]
    by_cases hn : p n = true
    · rw [seamless, if_pos hn, Bool.and_eq_true, beq_iff_eq] at h
      obtain ⟨rfl, h⟩ := h
      have hshown : shown s c (keep p (n + c.utf8Size) cs) = shown s c cs := by
        refine shown_congr fun hslash => ?_
        rw [hslash] at h
        rw [head?_keep h]
      rw [keep, if_pos hn, paint, hshown, hkept, if_pos hn, ih h hcs]
    · rw [seamless, if_neg hn, Bool.and_eq_true] at h
      rw [keep, if_neg hn, hkept, if_neg hn, List.nil_append, ih h.2 hcs]

theorem after_keep {p : Nat → Bool} {n : Nat} {s k : Scan} {t : Text}
    (h : seamless p n s k t = true) : k.after (keep p n t) = s.after t := by
  induction t generalizing n s k with
  | nil =>
    have hsk : s = k := by simpa [seamless] using h
    rw [hsk]
    rfl
  | cons c cs ih =>
    by_cases hn : p n = true
    · rw [seamless, if_pos hn, Bool.and_eq_true] at h
      rw [keep, if_pos hn, after_cons, after_cons, ih h.2]
    · rw [seamless, if_neg hn, Bool.and_eq_true] at h
      rw [keep, if_neg hn, after_cons, ih h.2]

theorem seamless_append {p : Nat → Bool} {n : Nat} {s k : Scan} {a b : Text}
    (h : seamless p n s k (a ++ b) = true) :
    seamless p (n + byteSize a) (s.after a) (k.after (keep p n a)) b = true := by
  induction a generalizing n s k with
  | nil => exact h
  | cons c cs ih =>
    rw [List.cons_append, seamless] at h
    rw [byteSize_cons, ← Nat.add_assoc, keep]
    by_cases hp : p n = true
    · rw [if_pos hp, Bool.and_eq_true] at h
      rw [if_pos hp]
      exact ih h.2
    · rw [if_neg hp, Bool.and_eq_true] at h
      rw [if_neg hp]
      exact ih h.2

/-- In front of a character that is kept, what is kept has led to the state that the text has led
to. -/
theorem after_keep_of_kept {p : Nat → Bool} {a b : Text} {c : Char}
    (h : seamless p 0 .code .code (a ++ c :: b) = true) (hp : p (byteSize a) = true) :
    code.after (keep p 0 a) = code.after a := by
  have hplace := seamless_append h
  rw [seamless, if_pos (by rwa [Nat.zero_add]), Bool.and_eq_true, beq_iff_eq] at hplace
  exact hplace.1.symm

end Scan

end FlatSol
