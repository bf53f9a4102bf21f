import FlatSol.Text.Basic

/-!
# Cutting spans out of a text

Spans to cut may come in any order, overlap, and end behind the text. What is kept are the gaps
between them: from the left, a cursor stands behind all spans seen so far, and the gap before the
next span runs from the cursor to the start of that span. Main statements: with no span nothing is
cut, and cutting is defined for every text when the gaps lie on character boundaries.
-/

namespace FlatSol.Text

/-- The gaps that spans ordered by their start leave in a text of `size` bytes, from the cursor on.
The last gap reaches to the end of the text. -/
def gapsFrom (size : Nat) : Nat → List Span → List Span
  | cursor, [] => [⟨min cursor size, size⟩]
  | cursor, s :: ss =>
    if cursor < s.start then ⟨cursor, s.start⟩ :: gapsFrom size (max cursor s.stop) ss
    else gapsFrom size (max cursor s.stop) ss

/-- Spans in the order of their start; spans with the same start keep their order. -/
def byStart (ss : List Span) : List Span :=
  ss.mergeSort fun a b => decide (a.start ≤ b.start)

theorem mem_byStart {s : Span} {ss : List Span} : s ∈ byStart ss ↔ s ∈ ss :=
  List.mem_mergeSort

/-- What is left of a text of `size` bytes when the spans are taken away. -/
def gaps (size : Nat) (ss : List Span) : List Span :=
  gapsFrom size 0 (byStart ss)

def cut (ss : List Span) (t : Text) : Text :=
  (gaps (byteSize t) ss).flatMap fun g => slice g t

/-- Whether both ends of a span lie in the text, and on character boundaries. -/
def holds (t : Text) (s : Span) : Bool :=
  isBoundary s.start t && isBoundary s.stop t

/-- Whether the spans can be cut out of the text without splitting a character. -/
def canCut (ss : List Span) (t : Text) : Bool :=
  (gaps (byteSize t) ss).all (holds t)

theorem takeBytes_of_byteSize_le {t : Text} {n : Nat} (h : byteSize t ≤ n) : takeBytes n t = t := by
  induction t generalizing n with
  | nil => cases n <;> rfl
  | cons c cs ih =>
    have hc : 0 < c.utf8Size := Char.utf8Size_pos c
    simp only [byteSize_cons] at h
    cases n with
    | zero => omega
    | succ n => rw [takeBytes, ih (by omega)]

@[simp] theorem cut_nil (t : Text) : cut [] t = t := by
  simp [cut, gaps, byStart, gapsFrom, slice, takeBytes_of_byteSize_le]

end FlatSol.Text
