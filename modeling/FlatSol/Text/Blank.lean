import FlatSol.Text.Basic

/-!
# White space

The code points with the Unicode property White_Space, and the operations on texts that are
defined by it: trimming, and splitting into words.
-/

namespace FlatSol

/-- Whether the character has the Unicode property White_Space. -/
def isBlank (c : Char) : Bool :=
  let n := c.toNat
  (decide (9 ≤ n) && decide (n ≤ 13)) || n == 0x20 || n == 0x85 || n == 0xa0 || n == 0x1680 ||
    (decide (0x2000 ≤ n) && decide (n ≤ 0x200a)) || n == 0x2028 || n == 0x2029 || n == 0x202f ||
    n == 0x205f || n == 0x3000

theorem isBlank_of_isWhitespace {c : Char} (h : c.isWhitespace = true) : isBlank c = true := by
  simp only [Char.isWhitespace, Bool.or_eq_true, decide_eq_true_eq] at h
  rcases h with ((h | h) | h) | h <;> subst h <;> decide

namespace Text

def trimStart (t : Text) : Text :=
  t.dropWhile isBlank

def trimEnd : Text → Text
  | [] => []
  | c :: cs =>
    match trimEnd cs with
    | [] => if isBlank c then [] else [c]
    | kept => c :: kept

def trim (t : Text) : Text :=
  trimEnd (trimStart t)

theorem exists_blank_append_eq (t : Text) :
    ∃ s, trimEnd t ++ s = t ∧ ∀ c ∈ s, isBlank c = true := by
  induction t with
  | nil => exact ⟨[], rfl, by simp⟩
  | cons c cs ih =>
    obtain ⟨s, hs, hb⟩ := ih
    rw [trimEnd]
    cases hk : trimEnd cs with
    | nil =>
      rw [hk] at hs
      simp only [List.nil_append] at hs
      subst hs
      by_cases hc : isBlank c = true
      · exact ⟨c :: s, by simp [hc], by simpa [hc] using hb⟩
      · exact ⟨s, by simp [hc], hb⟩
    | cons k ks => exact ⟨s, by rw [← hs, hk]; rfl, hb⟩

/-- The words of a text: its longest runs of characters that are not white space. -/
def words : Text → List Text
  | [] => []
  | c :: cs =>
    if isBlank c then words cs
    else
      match cs with
      | [] => [[c]]
      | d :: _ =>
        if isBlank d then [c] :: words cs
        else
          match words cs with
          | [] => [[c]]
          | w :: ws => (c :: w) :: ws

/-- The words of a text, with one space between two of them. -/
def onOneLine (t : Text) : Text :=
  joinWith [' '] (words t)

end Text

end FlatSol
