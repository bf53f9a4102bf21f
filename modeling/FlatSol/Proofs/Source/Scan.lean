import FlatSol.Proofs.Text.Keep
import FlatSol.Source.Mask

/-!
# Reading a source text character by character

The comment marks have two characters, so masking looks one character ahead. Read one character at
a time, a text takes its reader through the states below; the masked form of a character depends on
the state in which it is read and, for a slash in code, on the character behind it. Main statements:
masking is painting from the state of code, and it commutes with a cut whose stretches end in the
states in which they begin.
-/

namespace FlatSol

open Text

/-- The state of a reader in front of a character. -/
inductive Scan
  | code
  | slash
  | line
  | block
  | star
  | literal (quote : Char)
  /-- Behind a backslash in a literal. -/
  | escape (quote : Char)
deriving DecidableEq, Repr

def Region.scan : Region → Scan
  | .code => .code
  | .lineComment => .line
  | .blockComment => .block
  | .literal q => .literal q

namespace Scan

def next : Scan → Char → Scan
  | .code, c => if c = '/' then .slash else if isQuote c then .literal c else .code
  | .slash, c =>
    if c = '/' then .line
    else if c = '*' then .block
    else if isQuote c then .literal c
    else .code
  | .line, c => if c = '\n' then .code else .line
  | .block, c => if c = '*' then .star else .block
  | .star, c => if c = '/' then .code else if c = '*' then .star else .block
  | .literal q, c =>
    if c = '\\' then .escape q else if c = q ∨ c = '\n' then .code else .literal q
  | .escape q, _ => .literal q

def after (s : Scan) (t : Text) : Scan :=
  t.foldl next s

/-- Whether the character makes a comment mark with a slash before it. -/
def opens (c : Char) : Bool :=
  c == '/' || c == '*'

theorem opens_iff {c : Char} : opens c = true ↔ c = '/' ∨ c = '*' := by
  simp [opens]

/-- What a character leaves in the masked text, with `rest` behind it. -/
def shown (s : Scan) (c : Char) (rest : Text) : Text :=
  match s with
  | .code => if c = '/' ∧ rest.head?.any opens = true then [' '] else [c]
  | .slash => if opens c then [' '] else [c]
  | .line | .block | .star => Source.blanked c
  | .literal _ | .escape _ => [c]

/-- The masked form of a text that is read from a state on. -/
def paint : Scan → Text → Text
  | _, [] => []
  | s, c :: cs => shown s c cs ++ paint (s.next c) cs

@[simp] theorem after_nil (s : Scan) : s.after [] = s := rfl

@[simp] theorem after_cons (s : Scan) (c : Char) (cs : Text) :
    s.after (c :: cs) = (s.next c).after cs := rfl

@[simp] theorem after_append (s : Scan) (a b : Text) :
    s.after (a ++ b) = (s.after a).after b :=
  List.foldl_append

/-- A slash in code and a star in a block comment, which may each begin a mark, are told by the state
behind them. -/
theorem eq_of_next (s : Scan) (c : Char) :
    (s.next c = .slash → c = '/') ∧ (s.next c = .star → c = '*') := by
  cases s with
  | escape q => exact ⟨nofun, nofun⟩
  | _ =>
    simp only [next]
    split_ifs <;> simp_all

/-! ### Masking is painting -/

theorem paint_slash {cs : Text} (h : cs.head?.any opens = false) :
    paint .slash cs = paint .code cs := by
  cases cs with
  | nil => rfl
  | cons c cs =>
    have hc : opens c = false := by simpa using h
    have hne : c ≠ '/' ∧ c ≠ '*' := by simpa [opens] using hc
    simp [paint, shown, hc, next, hne.1, hne.2]

theorem paint_star {cs : Text} (h : cs.head? ≠ some '/') : paint .star cs = paint .block cs := by
  cases cs with
  | nil => rfl
  | cons c cs =>
    have hc : c ≠ '/' := by simpa using h
    simp [paint, shown, next, hc]

theorem maskFrom_eq_paint (r : Region) (t : Text) :
    Source.maskFrom r t = paint r.scan t := by
  fun_induction Source.maskFrom r t with
  | case1 => rfl
  | case2 cs ih => simp [paint, shown, next, opens, Region.scan, ih]
  | case3 cs ih => simp [paint, shown, next, opens, Region.scan, ih]
  | case4 c cs hline hblock ih =>
    have hopen : ¬ (c = '/' ∧ cs.head?.any opens = true) := by
      rintro ⟨rfl, ho⟩
      cases cs with
      | nil => simp at ho
      | cons d ds =>
        rcases opens_iff.1 (by simpa using ho) with rfl | rfl
        · exact hline ds rfl rfl
        · exact hblock ds rfl rfl
    rw [ih]
    by_cases hc : c = '/'
    · subst hc
      have hhead : cs.head?.any opens = false := by simpa using hopen
      simp [paint, shown, next, hhead, Region.scan, paint_slash hhead, isQuote]
    · by_cases hq : isQuote c = true
      · simp [paint, shown, next, hc, hq, Region.scan]
      · simp [paint, shown, next, hc, hq, Region.scan]
  | case5 c cs ih =>
    rw [ih]
    by_cases hc : c = '\n' <;> simp [paint, shown, next, hc, Region.scan]
  | case6 cs ih =>
    have hstar : Source.blanked '*' = [' '] := rfl
    have hslash : Source.blanked '/' = [' '] := rfl
    simp [paint, shown, next, Region.scan, hstar, hslash, ih]
  | case7 c cs hclose ih =>
    by_cases hc : c = '*'
    · subst hc
      have hhead : cs.head? ≠ some '/' := by
        intro hh
        cases cs with
        | nil => simp at hh
        | cons d ds => exact hclose ds rfl (by simpa using hh)
      simp [paint, shown, next, Region.scan, paint_star hhead, ih]
    · simp [paint, shown, next, hc, Region.scan, ih]
  | case8 q c cs ih => simp [paint, shown, next, Region.scan, ih]
  | case9 q c cs hesc ih =>
    by_cases hc : c = '\\'
    · subst hc
      cases cs with
      | nil => simp [paint, shown, Source.maskFrom, Region.scan]
      | cons d ds => exact absurd rfl (hesc d ds rfl)
    · rw [ih]
      by_cases hq : c = q ∨ c = '\n'
      · simp [paint, shown, next, hc, hq, Region.scan]
      · simp [paint, shown, next, hc, hq, Region.scan]

theorem mask_eq_paint (t : Text) : Source.mask t = paint .code t :=
  maskFrom_eq_paint .code t

/-! ### Parts of a masked text -/

/-- What is shown of a character has its size, and is the character itself or blank. -/
theorem shown_cases (s : Scan) (c : Char) (rest : Text) :
    shown s c rest = [c] ∨ shown s c rest = List.replicate c.utf8Size ' ' := by
  have hblank : Source.blanked c = [c] ∨ Source.blanked c = List.replicate c.utf8Size ' ' := by
    unfold Source.blanked
    split
    · next hc => exact .inl (by rw [hc])
    · exact .inr rfl
  have hslash : List.replicate (Char.utf8Size '/') ' ' = [' '] := rfl
  have hstar : List.replicate (Char.utf8Size '*') ' ' = [' '] := rfl
  cases s with
  | code =>
    by_cases h : c = '/' ∧ rest.head?.any opens = true
    · exact .inr (by rw [shown, if_pos h, h.1, hslash])
    · exact .inl (by rw [shown, if_neg h])
  | slash =>
    by_cases h : opens c = true
    · refine .inr ?_
      rw [shown, if_pos h]
      rcases opens_iff.1 h with rfl | rfl
      · exact hslash.symm
      · exact hstar.symm
    · exact .inl (by rw [shown, if_neg h])
  | line => exact hblank
  | block => exact hblank
  | star => exact hblank
  | literal q => exact .inl rfl
  | escape q => exact .inl rfl

@[simp] theorem byteSize_shown (s : Scan) (c : Char) (rest : Text) :
    byteSize (shown s c rest) = c.utf8Size := by
  rcases shown_cases s c rest with h | h
  · simp [h]
  · rw [h, Source.byteSize_replicate_space]

theorem shown_congr {s : Scan} {c : Char} {a b : Text}
    (h : s.next c = .slash → a.head?.any opens = b.head?.any opens) : shown s c a = shown s c b := by
  cases s with
  | code =>
    by_cases hc : c = '/'
    · have hslash : Scan.code.next c = .slash := by simp [next, hc]
      simp only [shown, h hslash]
    · simp only [shown, hc, false_and, if_false]
  | slash => rfl
  | line => rfl
  | block => rfl
  | star => rfl
  | literal q => rfl
  | escape q => rfl

/-- What is shown of `a` when `b` stands behind it. -/
def front : Scan → Text → Text → Text
  | _, [], _ => []
  | s, c :: cs, b => shown s c (cs ++ b) ++ front (s.next c) cs b

theorem paint_append_eq (s : Scan) (a b : Text) :
    paint s (a ++ b) = front s a b ++ paint (s.after a) b := by
  induction a generalizing s with
  | nil => rfl
  | cons c cs ih => simp only [List.cons_append, paint, front, ih, after_cons, List.append_assoc]

@[simp] theorem byteSize_front (s : Scan) (a b : Text) : byteSize (front s a b) = byteSize a := by
  induction a generalizing s with
  | nil => rfl
  | cons c cs ih => simp only [front, byteSize_append, byteSize_shown, ih, byteSize_cons]

theorem front_nil (s : Scan) (a : Text) : front s a [] = paint s a := by
  induction a generalizing s with
  | nil => rfl
  | cons c cs ih => simp only [front, paint, ih, List.append_nil]

@[simp] theorem byteSize_paint (s : Scan) (t : Text) : byteSize (paint s t) = byteSize t := by
  rw [← front_nil, byteSize_front]

/-- Only the character behind a slash in code matters for what is shown before it. -/
theorem front_eq_paint {s : Scan} {a b : Text}
    (h : a = [] ∨ s.after a ≠ .slash ∨ b.head?.any opens = false) : front s a b = paint s a := by
  induction a generalizing s with
  | nil => rfl
  | cons c cs ih =>
    have hrest : front (s.next c) cs b = paint (s.next c) cs :=
      ih (.inr (h.resolve_left (List.cons_ne_nil c cs)))
    have hshown : shown s c (cs ++ b) = shown s c cs := by
      cases cs with
      | cons d ds => cases s <;> rfl
      | nil =>
        rcases h.resolve_left (List.cons_ne_nil c []) with hs | hb
        · cases s with
          | code =>
            have hc : c ≠ '/' := by
              rintro rfl
              exact hs rfl
            simp [shown, hc]
          | slash => rfl
          | line => rfl
          | block => rfl
          | star => rfl
          | literal q => rfl
          | escape q => rfl
        · cases s <;> simp [shown, hb]
    rw [front, paint, hrest, hshown]

theorem paint_append {s : Scan} {a b : Text}
    (h : a = [] ∨ s.after a ≠ .slash ∨ b.head?.any opens = false) :
    paint s (a ++ b) = paint s a ++ paint (s.after a) b := by
  rw [paint_append_eq, front_eq_paint h]

/-- A character of the masked text other than a space is one of the text itself, at the same
offset. -/
theorem exists_of_paint_eq {s : Scan} {t x y : Text} {c : Char} (h : paint s t = x ++ c :: y)
    (hc : c ≠ ' ') : ∃ a b, t = a ++ c :: b ∧ byteSize a = byteSize x ∧ x = front s a (c :: b) ∧
      y = paint ((s.after a).next c) b := by
  induction t generalizing s x with
  | nil => simp [paint] at h
  | cons d ds ih =>
    rw [paint] at h
    -- what is shown of the first character is the front of `x`, unless it is `c`
    rcases List.append_eq_append_iff.1 h with ⟨z, hx, hz⟩ | ⟨z, hd, hz⟩
    · obtain ⟨a, b, rfl, ha, hf, hy⟩ := ih hz
      refine ⟨d :: a, b, rfl, ?_, ?_, ?_⟩
      · rw [hx, byteSize_append, byteSize_shown, byteSize_cons, ha]
      · rw [hx, front, ← hf]
      · rw [hy, after_cons]
    · cases z with
      | nil =>
        have hz' : paint (s.next d) ds = [] ++ c :: y := by simpa using hz.symm
        obtain ⟨a, b, rfl, ha, hf, hy⟩ := ih hz'
        have hx : shown s d (a ++ c :: b) = x := by simpa using hd
        refine ⟨d :: a, b, rfl, ?_, ?_, ?_⟩
        · rw [← hx, byteSize_shown, byteSize_cons, ha]
          simp
        · rw [front, ← hf, hx, List.append_nil]
        · rw [hy, after_cons]
      | cons e es =>
        obtain ⟨rfl, hes⟩ := List.cons.inj hz
        rcases shown_cases s d ds with hs | hs
        · rw [hs] at hd
          obtain ⟨rfl, rfl, rfl⟩ : x = [] ∧ d = c ∧ es = [] := by
            cases x with
            | nil => simpa using hd
            | cons w ws => simp at hd
          exact ⟨[], ds, rfl, rfl, rfl, by simpa using hes⟩
        · have hm : c ∈ List.replicate d.utf8Size ' ' := by
            rw [← hs, hd]
            simp
          exact absurd (List.eq_of_mem_replicate hm) hc

end Scan

end FlatSol
