import FlatSol.Source.Mask

/-!
# The lexical grammar

A source text is a sequence of lexemes: characters of code, comments of both kinds and quoted
literals. Which lexeme comes next depends on what stands behind it as well, since a comment or a
literal ends at the first mark that can end it, or at the end of the text. Main statements: every
text has exactly one reading, and its masked form is that of its lexemes one after the other.
-/

namespace FlatSol

open Text

inductive Lexeme
  | code (c : Char)
  | lineComment (content : Text)
  | blockComment (content : Text)
  /-- A block comment that runs to the end of the text. -/
  | openComment (content : Text)
  | literal (quote : Char) (content : Text) (close : Char)
  /-- A literal that runs to the end of the text. -/
  | openLiteral (quote : Char) (content : Text)
deriving DecidableEq, Repr

namespace Lexeme

/-- The mark that ends a block comment. -/
def blockEnd : Text :=
  ['*', '/']

def text : Lexeme → Text
  | .code c => [c]
  | .lineComment s => '/' :: '/' :: s
  | .blockComment s => '/' :: '*' :: (s ++ blockEnd)
  | .openComment s => '/' :: '*' :: s
  | .literal q s e => q :: (s ++ [e])
  | .openLiteral q s => q :: s

def isComment : Lexeme → Bool
  | .lineComment _ | .blockComment _ | .openComment _ => true
  | .code _ | .literal _ _ _ | .openLiteral _ _ => false

/-- The contents of a literal: no character ends it, unless a backslash stands before it. -/
inductive Quoted (q : Char) : Text → Prop
  | nil : Quoted q []
  | plain {c : Char} {cs : Text} : c ≠ '\\' → c ≠ q → c ≠ '\n' → Quoted q cs → Quoted q (c :: cs)
  | protect {c : Char} {cs : Text} : Quoted q cs → Quoted q ('\\' :: c :: cs)

/-- Whether the lexeme is the one that is read when `rest` stands behind its text. -/
def Before : Lexeme → Text → Prop
  | .code c, rest =>
    isQuote c = false ∧ ¬ (c = '/' ∧ (rest.head? = some '/' ∨ rest.head? = some '*'))
  | .lineComment s, rest => '\n' ∉ s ∧ (rest = [] ∨ rest.head? = some '\n')
  -- the mark may not begin earlier, nor in the last character before it
  | .blockComment s, _ => ¬ blockEnd <:+: s ++ ['*']
  | .openComment s, rest => ¬ blockEnd <:+: s ∧ rest = []
  | .literal q s e, _ => isQuote q = true ∧ Quoted q s ∧ (e = q ∨ e = '\n')
  | .openLiteral q s, rest =>
    isQuote q = true ∧ (Quoted q s ∨ ∃ s', s = s' ++ ['\\'] ∧ Quoted q s') ∧ rest = []

/-- The text of several lexemes. -/
def textOf (ls : List Lexeme) : Text :=
  ls.flatMap text

@[simp] theorem textOf_nil : textOf [] = [] := rfl

@[simp] theorem textOf_cons (l : Lexeme) (ls : List Lexeme) :
    textOf (l :: ls) = l.text ++ textOf ls := rfl

/-- A sequence of lexemes that is the reading of its own text. -/
def Lexed : List Lexeme → Prop
  | [] => True
  | l :: ls => l.Before (textOf ls) ∧ Lexed ls

/-! ### Every text has a reading -/

theorem exists_blockEnd (s : Text) :
    (∃ content rest, s = content ++ (blockEnd ++ rest) ∧ ¬ blockEnd <:+: content ++ ['*']) ∨
      ¬ blockEnd <:+: s := by
  induction s with
  | nil => exact .inr (by decide)
  | cons c cs ih =>
    by_cases hstart : blockEnd <+: c :: cs
    · obtain ⟨rest, hrest⟩ := hstart
      exact .inl ⟨[], rest, by simpa using hrest.symm, by decide⟩
    · rcases ih with ⟨content, rest, rfl, hfirst⟩ | hnone
      · refine .inl ⟨c :: content, rest, rfl, ?_⟩
        intro hin
        rcases List.infix_cons_iff.1 hin with hpre | htail
        · apply hstart
          -- the mark would begin at `c`, and end in front of the star that closes the comment
          cases content with
          | nil => simp [blockEnd] at hpre
          | cons d ds =>
            obtain ⟨rfl, hd⟩ : '*' = c ∧ '/' = d := by
              simpa [blockEnd, List.cons_prefix_cons] using hpre
            subst hd
            exact ⟨ds ++ (blockEnd ++ rest), rfl⟩
        · exact hfirst htail
      · refine .inr fun hin => ?_
        rcases List.infix_cons_iff.1 hin with hpre | htail
        · exact hstart hpre
        · exact hnone htail

theorem exists_close (q : Char) : ∀ s : Text,
    (∃ content e rest, s = content ++ e :: rest ∧ Quoted q content ∧ (e = q ∨ e = '\n')) ∨
      Quoted q s ∨ ∃ s', s = s' ++ ['\\'] ∧ Quoted q s'
  | [] => .inr (.inl .nil)
  | c :: cs => by
    by_cases hesc : c = '\\'
    · subst hesc
      match cs with
      | [] => exact .inr (.inr ⟨[], rfl, .nil⟩)
      | d :: ds =>
        rcases exists_close q ds with ⟨content, e, rest, rfl, hin, he⟩ | hin | ⟨s', rfl, hin⟩
        · exact .inl ⟨'\\' :: d :: content, e, rest, rfl, hin.protect, he⟩
        · exact .inr (.inl hin.protect)
        · exact .inr (.inr ⟨'\\' :: d :: s', rfl, hin.protect⟩)
    · by_cases hend : c = q ∨ c = '\n'
      · exact .inl ⟨[], c, cs, rfl, .nil, hend⟩
      · obtain ⟨hq, hn⟩ := not_or.1 hend
        rcases exists_close q cs with ⟨content, e, rest, rfl, hin, he⟩ | hin | ⟨s', rfl, hin⟩
        · exact .inl ⟨c :: content, e, rest, rfl, hin.plain hesc hq hn, he⟩
        · exact .inr (.inl (hin.plain hesc hq hn))
        · exact .inr (.inr ⟨c :: s', rfl, hin.plain hesc hq hn⟩)

theorem exists_lineEnd (s : Text) :
    ∃ content rest, s = content ++ rest ∧ '\n' ∉ content ∧ (rest = [] ∨ rest.head? = some '\n') := by
  induction s with
  | nil => exact ⟨[], [], rfl, by simp, .inl rfl⟩
  | cons c cs ih =>
    by_cases hc : c = '\n'
    · exact ⟨[], c :: cs, rfl, by simp, .inr (by rw [hc]; rfl)⟩
    · obtain ⟨content, rest, rfl, hin, hrest⟩ := ih
      exact ⟨c :: content, rest, rfl, by simp [hin, Ne.symm hc], hrest⟩

theorem text_ne_nil (l : Lexeme) : l.text ≠ [] := by
  cases l <;> exact List.cons_ne_nil _ _

theorem exists_first {t : Text} (ht : t ≠ []) : ∃ l rest, t = text l ++ rest ∧ l.Before rest := by
  obtain ⟨c, cs, rfl⟩ := List.exists_cons_of_ne_nil ht
  by_cases hq : isQuote c = true
  · rcases exists_close c cs with ⟨content, e, rest, rfl, hin, he⟩ | hopen
    · exact ⟨.literal c content e, rest, by simp [text], hq, hin, he⟩
    · exact ⟨.openLiteral c cs, [], by simp [text], hq, hopen, rfl⟩
  · by_cases hmark : c = '/' ∧ (cs.head? = some '/' ∨ cs.head? = some '*')
    · obtain ⟨rfl, hhead⟩ := hmark
      rcases hhead with hline | hblock
      · obtain ⟨s, rfl⟩ := List.head?_eq_some_iff.1 hline
        obtain ⟨content, rest, rfl, hin, hrest⟩ := exists_lineEnd s
        exact ⟨.lineComment content, rest, rfl, hin, hrest⟩
      · obtain ⟨s, rfl⟩ := List.head?_eq_some_iff.1 hblock
        rcases exists_blockEnd s with ⟨content, rest, rfl, hfirst⟩ | hnone
        · exact ⟨.blockComment content, rest, by simp [text], hfirst⟩
        · exact ⟨.openComment s, [], by simp [text], hnone, rfl⟩
    · exact ⟨.code c, cs, rfl, by simpa using hq, hmark⟩

theorem exists_lexed (t : Text) : ∃ ls, Lexed ls ∧ textOf ls = t := by
  generalize hn : t.length = n
  induction n using Nat.strongRecOn generalizing t with
  | _ n ih =>
    by_cases ht : t = []
    · exact ⟨[], trivial, ht.symm⟩
    · obtain ⟨l, rest, rfl, hl⟩ := exists_first ht
      have hpos : 0 < l.text.length := List.length_pos_iff.2 l.text_ne_nil
      have hshort : rest.length < n := by
        rw [List.length_append] at hn
        omega
      obtain ⟨ls, hls, rfl⟩ := ih rest.length hshort rest rfl
      exact ⟨l :: ls, ⟨hl, hls⟩, rfl⟩

/-! ### The reading is unique -/

theorem lineEnd_unique {s s' r r' : Text} (h : s ++ r = s' ++ r') (hs : '\n' ∉ s) (hs' : '\n' ∉ s')
    (hr : r = [] ∨ r.head? = some '\n') (hr' : r' = [] ∨ r'.head? = some '\n') : s = s' := by
  have hline : ∀ {u v : Text}, '\n' ∉ u → (v = [] ∨ v.head? = some '\n') →
      (u ++ v).takeWhile (· != '\n') = u := by
    intro u v hu hv
    have hall : ∀ c ∈ u, (c != '\n') = true := by
      intro c hc
      simp only [bne_iff_ne]
      rintro rfl
      exact hu hc
    rw [List.takeWhile_append_of_pos hall]
    rcases hv with rfl | hv
    · simp
    · obtain ⟨w, rfl⟩ := List.head?_eq_some_iff.1 hv
      simp
  rw [← hline hs hr, h, hline hs' hr']

theorem prefix_of_blockEnd {s s' r r' : Text}
    (h : s ++ (blockEnd ++ r) = s' ++ (blockEnd ++ r')) (hs' : ¬ blockEnd <:+: s' ++ ['*']) :
    s' <+: s := by
  rcases List.append_eq_append_iff.1 h with ⟨w, rfl, hw⟩ | ⟨w, rfl, -⟩
  · cases w with
    | nil => simp
    | cons c cs =>
      exfalso
      apply hs'
      obtain ⟨rfl, hcs⟩ := List.cons.inj hw
      -- behind the star of the first mark stands its slash, or the star of the second one
      cases cs with
      | nil => simp [blockEnd] at hcs
      | cons d ds =>
        obtain ⟨rfl, -⟩ := List.cons.inj hcs
        exact ⟨s, ds ++ ['*'], by simp [blockEnd]⟩
  · exact List.prefix_append s' w

theorem blockEnd_unique {s s' r r' : Text}
    (h : s ++ (blockEnd ++ r) = s' ++ (blockEnd ++ r')) (hs : ¬ blockEnd <:+: s ++ ['*'])
    (hs' : ¬ blockEnd <:+: s' ++ ['*']) : s = s' := by
  have hle : s <+: s' := prefix_of_blockEnd h.symm hs
  have hge : s' <+: s := prefix_of_blockEnd h hs'
  exact hle.eq_of_length_le hge.length_le

theorem Quoted.of_plain {q c : Char} {cs : Text} (h : Quoted q (c :: cs)) (hc : c ≠ '\\') :
    c ≠ q ∧ c ≠ '\n' ∧ Quoted q cs := by
  cases h with
  | plain _ hq hn htail => exact ⟨hq, hn, htail⟩
  | protect _ => exact absurd rfl hc

theorem Quoted.of_protect {q c : Char} {cs : Text} (h : Quoted q ('\\' :: c :: cs)) :
    Quoted q cs := by
  cases h with
  | plain hc _ _ _ => exact absurd rfl hc
  | protect htail => exact htail

/-- A character that ends a literal is not part of the contents. -/
theorem Quoted.not_close {q e : Char} {s r : Text} (hs : Quoted q s) (he : e = q ∨ e = '\n')
    (hne : e ≠ '\\') : ¬ Quoted q (s ++ e :: r) := by
  intro h
  induction hs with
  | nil =>
    obtain ⟨hq, hn, -⟩ := h.of_plain hne
    exact he.elim hq hn
  | plain hc _ _ _ ih => exact ih (h.of_plain hc).2.2
  | protect _ ih => exact ih h.of_protect

theorem Quoted.append {q : Char} {s r : Text} (hs : Quoted q s) (hr : Quoted q r) :
    Quoted q (s ++ r) := by
  induction hs with
  | nil => exact hr
  | plain hc hq hn _ ih => exact ih.plain hc hq hn
  | protect _ ih => exact ih.protect

theorem isQuote_ne_backslash {q : Char} (hq : isQuote q = true) : q ≠ '\\' := by
  rintro rfl
  exact absurd hq (by decide)

theorem close_ne_backslash {q e : Char} (hq : isQuote q = true) (he : e = q ∨ e = '\n') :
    e ≠ '\\' := by
  rcases he with rfl | rfl
  · exact isQuote_ne_backslash hq
  · decide

theorem Quoted.prefix_of_close {q e e' : Char} {s s' r r' : Text} (hs : Quoted q s)
    (hs' : Quoted q s') (he : e = q ∨ e = '\n') (hne : e ≠ '\\')
    (h : s ++ e :: r = s' ++ e' :: r') : s' <+: s := by
  rcases List.append_eq_append_iff.1 h with ⟨w, rfl, hw⟩ | ⟨w, rfl, -⟩
  · cases w with
    | nil => simp
    | cons c cs =>
      obtain ⟨rfl, -⟩ := List.cons.inj hw
      exact absurd hs' (hs.not_close he hne)
  · exact List.prefix_append s' w

theorem Quoted.close_unique {q e e' : Char} {s s' r r' : Text} (hq : isQuote q = true)
    (hs : Quoted q s) (hs' : Quoted q s') (he : e = q ∨ e = '\n') (he' : e' = q ∨ e' = '\n')
    (h : s ++ e :: r = s' ++ e' :: r') : s = s' ∧ e = e' := by
  have hge : s' <+: s := hs.prefix_of_close hs' he (close_ne_backslash hq he) h
  have hle : s <+: s' := hs'.prefix_of_close hs he' (close_ne_backslash hq he') h.symm
  obtain rfl : s = s' := hle.eq_of_length_le hge.length_le
  exact ⟨rfl, (List.cons.inj (List.append_cancel_left h)).1⟩

/-- A literal that is closed does not run on to the end of the text. -/
theorem Quoted.not_open {q e : Char} {s r : Text} (hq : isQuote q = true) (hs : Quoted q s)
    (he : e = q ∨ e = '\n') :
    ¬ (Quoted q (s ++ e :: r) ∨ ∃ s', s ++ e :: r = s' ++ ['\\'] ∧ Quoted q s') := by
  have hne : e ≠ '\\' := close_ne_backslash hq he
  rintro (hin | ⟨s', hs', hin⟩)
  · exact hs.not_close he hne hin
  · -- with one backslash more the last one is protected
    have hlong : Quoted q (s ++ e :: (r ++ ['\\'])) := by
      have hpair : Quoted q ['\\', '\\'] := .protect .nil
      have hsplit : s ++ e :: (r ++ ['\\']) = s' ++ ['\\', '\\'] := by
        calc s ++ e :: (r ++ ['\\']) = (s ++ e :: r) ++ ['\\'] := by simp
          _ = s' ++ ['\\', '\\'] := by rw [hs']; simp
      rw [hsplit]
      exact hin.append hpair
    exact hs.not_close he hne hlong

/-- What a lexeme begins as, which its first two characters tell. -/
inductive Opening
  | code
  | line
  | block
  | literal

def opening : Lexeme → Opening
  | .code _ => .code
  | .lineComment _ => .line
  | .blockComment _ | .openComment _ => .block
  | .literal _ _ _ | .openLiteral _ _ => .literal

def openingOf : Text → Opening
  | '/' :: '/' :: _ => .line
  | '/' :: '*' :: _ => .block
  | c :: _ => if isQuote c then .literal else .code
  | [] => .code

theorem openingOf_text {l : Lexeme} {r : Text} (h : l.Before r) :
    openingOf (l.text ++ r) = l.opening := by
  have hlit : ∀ {q : Char} {s : Text}, isQuote q = true → openingOf (q :: s) = .literal := by
    intro q s hq
    have hne : q ≠ '/' := by
      rintro rfl
      exact absurd hq (by decide)
    unfold openingOf
    split <;> simp_all
  cases l with
  | code c =>
    obtain ⟨hq, hmark⟩ := h
    show openingOf (c :: r) = .code
    unfold openingOf
    split <;> simp_all
  | lineComment s => rfl
  | blockComment s => rfl
  | openComment s => rfl
  | literal q s e => exact hlit h.1
  | openLiteral q s => exact hlit h.1

theorem first_unique {l l' : Lexeme} {r r' : Text} (hl : l.Before r) (hl' : l'.Before r')
    (h : l.text ++ r = l'.text ++ r') : l = l' := by
  have hopen : l.opening = l'.opening := by rw [← openingOf_text hl, ← openingOf_text hl', h]
  cases l <;> cases l' <;> cases hopen
  case code.code c c' => rw [(List.cons.inj h).1]
  case lineComment.lineComment s s' =>
    have htail : s ++ r = s' ++ r' := by simpa [text] using h
    rw [lineEnd_unique htail hl.1 hl'.1 hl.2 hl'.2]
  case blockComment.blockComment s s' =>
    have htail : s ++ (blockEnd ++ r) = s' ++ (blockEnd ++ r') := by simpa [text] using h
    rw [blockEnd_unique htail hl hl']
  case blockComment.openComment s s' =>
    obtain ⟨hnone, rfl⟩ := hl'
    have htail : s ++ (blockEnd ++ r) = s' := by simpa [text] using h
    exact absurd ⟨s, r, by simpa using htail⟩ hnone
  case openComment.blockComment s s' =>
    obtain ⟨hnone, rfl⟩ := hl
    have htail : s = s' ++ (blockEnd ++ r') := by simpa [text] using h
    exact absurd ⟨s', r', by simpa using htail.symm⟩ hnone
  case openComment.openComment s s' =>
    obtain ⟨-, rfl⟩ := hl
    obtain ⟨-, rfl⟩ := hl'
    have htail : s = s' := by simpa [text] using h
    rw [htail]
  case literal.literal q s e q' s' e' =>
    obtain ⟨hq, hs, he⟩ := hl
    obtain ⟨hq', hs', he'⟩ := hl'
    obtain ⟨rfl, htail⟩ : q = q' ∧ s ++ e :: r = s' ++ e' :: r' := by simpa [text] using h
    obtain ⟨rfl, rfl⟩ := hs.close_unique hq hs' he he' htail
    rfl
  case literal.openLiteral q s e q' s' =>
    obtain ⟨hq, hs, he⟩ := hl
    obtain ⟨-, hopen', rfl⟩ := hl'
    obtain ⟨rfl, rfl⟩ : q = q' ∧ s ++ e :: r = s' := by simpa [text] using h
    exact absurd hopen' (hs.not_open hq he)
  case openLiteral.literal q s q' s' e' =>
    obtain ⟨-, hopen', rfl⟩ := hl
    obtain ⟨hq', hs', he'⟩ := hl'
    obtain ⟨rfl, rfl⟩ : q = q' ∧ s = s' ++ e' :: r' := by simpa [text] using h
    exact absurd hopen' (hs'.not_open hq' he')
  case openLiteral.openLiteral q s q' s' =>
    obtain ⟨-, -, rfl⟩ := hl
    obtain ⟨-, -, rfl⟩ := hl'
    obtain ⟨rfl, rfl⟩ : q = q' ∧ s = s' := by simpa [text] using h
    rfl

theorem Lexed.unique {ls ls' : List Lexeme} (hls : Lexed ls) (hls' : Lexed ls')
    (h : textOf ls = textOf ls') : ls = ls' := by
  induction ls generalizing ls' with
  | nil =>
    cases ls' with
    | nil => rfl
    | cons l' ls' =>
      have hnil : l'.text = [] := (List.append_eq_nil_iff.1 h.symm).1
      exact absurd hnil l'.text_ne_nil
  | cons l ls ih =>
    cases ls' with
    | nil =>
      have hnil : l.text = [] := (List.append_eq_nil_iff.1 h).1
      exact absurd hnil l.text_ne_nil
    | cons l' ls' =>
      obtain rfl : l = l' := first_unique hls.1 hls'.1 h
      obtain rfl : ls = ls' := ih hls.2 hls'.2 (List.append_cancel_left h)
      rfl

/-! ### Masking by lexemes -/

def masked (l : Lexeme) : Text :=
  if l.isComment then l.text.flatMap Source.blanked else l.text

theorem maskFrom_line {s : Text} (hs : '\n' ∉ s) (r : Text) :
    Source.maskFrom .lineComment (s ++ r) =
      s.flatMap Source.blanked ++ Source.maskFrom .lineComment r := by
  induction s with
  | nil => rfl
  | cons c cs ih =>
    obtain ⟨hc, hcs⟩ : '\n' ≠ c ∧ '\n' ∉ cs := by simpa using hs
    rw [List.cons_append, Source.maskFrom, if_neg hc.symm, ih hcs, List.flatMap_cons,
      List.append_assoc]

theorem maskFrom_lineEnd {r : Text} (hr : r = [] ∨ r.head? = some '\n') :
    Source.maskFrom .lineComment r = Source.mask r := by
  rcases hr with rfl | hr
  · rfl
  · obtain ⟨w, rfl⟩ := List.head?_eq_some_iff.1 hr
    rfl

theorem maskFrom_block_cons {c : Char} {cs : Text} (h : ¬ blockEnd <+: c :: cs) :
    Source.maskFrom .blockComment (c :: cs) =
      Source.blanked c ++ Source.maskFrom .blockComment cs := by
  have hmark : ∀ ds : Text, c = '*' → cs = '/' :: ds → False := by
    rintro ds rfl rfl
    exact h ⟨ds, rfl⟩
  rw [Source.maskFrom]
  exact hmark

theorem maskFrom_block {s : Text} (hs : ¬ blockEnd <:+: s ++ ['*']) (r : Text) :
    Source.maskFrom .blockComment (s ++ (blockEnd ++ r)) =
      s.flatMap Source.blanked ++ (' ' :: ' ' :: Source.mask r) := by
  induction s with
  | nil => rfl
  | cons c cs ih =>
    obtain ⟨hhead, htail⟩ := not_or.1 (mt List.infix_cons_iff.2 hs)
    have hfirst : ¬ blockEnd <+: c :: (cs ++ (blockEnd ++ r)) := by
      -- the first two characters are those of the contents and the star behind them
      rintro ⟨w, hw⟩
      apply hhead
      cases cs with
      | nil => simp [blockEnd] at hw
      | cons d ds =>
        obtain ⟨rfl, rfl, -⟩ : '*' = c ∧ '/' = d ∧ _ := by simpa [blockEnd] using hw
        exact ⟨ds ++ ['*'], rfl⟩
    rw [List.cons_append, maskFrom_block_cons hfirst, ih htail, List.flatMap_cons,
      List.append_assoc]

theorem maskFrom_openBlock {s : Text} (hs : ¬ blockEnd <:+: s) :
    Source.maskFrom .blockComment s = s.flatMap Source.blanked := by
  induction s with
  | nil => rfl
  | cons c cs ih =>
    obtain ⟨hhead, htail⟩ := not_or.1 (mt List.infix_cons_iff.2 hs)
    rw [maskFrom_block_cons hhead, ih htail, List.flatMap_cons]

theorem Quoted.maskFrom {q : Char} {s : Text} (hs : Quoted q s) (r : Text) :
    Source.maskFrom (.literal q) (s ++ r) = s ++ Source.maskFrom (.literal q) r := by
  induction hs with
  | nil => rfl
  | plain hc hq hn _ ih =>
    have hend : ¬ (_ = q ∨ _ = '\n') := not_or.2 ⟨hq, hn⟩
    rw [List.cons_append, Source.maskFrom, if_neg hend, ih, List.cons_append]
    intro d ds hcd
    exact absurd hcd hc
  | protect _ ih => rw [List.cons_append, List.cons_append, Source.maskFrom, ih]; rfl

theorem mask_quote {q : Char} (hq : isQuote q = true) (cs : Text) :
    Source.mask (q :: cs) = q :: Source.maskFrom (.literal q) cs := by
  have hne : q ≠ '/' := by
    rintro rfl
    exact absurd hq (by decide)
  unfold Source.mask
  rw [Source.maskFrom, if_pos hq]
  · intro ds h
    exact absurd h hne
  · intro ds h
    exact absurd h hne

theorem mask_text_append {l : Lexeme} {r : Text} (h : l.Before r) :
    Source.mask (l.text ++ r) = l.masked ++ Source.mask r := by
  cases l with
  | code c =>
    obtain ⟨hq, hmark⟩ := h
    show Source.maskFrom .code (c :: r) = c :: Source.mask r
    rw [Source.maskFrom, if_neg (by simp [hq])]
    · rfl
    · rintro ds rfl rfl
      exact hmark ⟨rfl, .inl rfl⟩
    · rintro ds rfl rfl
      exact hmark ⟨rfl, .inr rfl⟩
  | lineComment s =>
    show ' ' :: ' ' :: Source.maskFrom .lineComment (s ++ r) = _
    rw [maskFrom_line h.1, maskFrom_lineEnd h.2]
    rfl
  | blockComment s =>
    have htext : text (.blockComment s) ++ r = '/' :: '*' :: (s ++ (blockEnd ++ r)) := by
      simp [text]
    rw [htext]
    show ' ' :: ' ' :: Source.maskFrom .blockComment (s ++ (blockEnd ++ r)) = _
    have hend : blockEnd.flatMap Source.blanked = [' ', ' '] := rfl
    have hmasked : masked (.blockComment s) = ' ' :: ' ' :: (s.flatMap Source.blanked ++ [' ', ' ']) := by
      rw [← hend, ← List.flatMap_append]
      rfl
    rw [maskFrom_block h, hmasked]
    simp
  | openComment s =>
    obtain ⟨hnone, rfl⟩ := h
    show ' ' :: ' ' :: Source.maskFrom .blockComment (s ++ []) = _
    rw [List.append_nil, maskFrom_openBlock hnone]
    exact (List.append_nil _).symm
  | literal q s e =>
    obtain ⟨hq, hs, he⟩ := h
    have hne : e ≠ '\\' := close_ne_backslash hq he
    have htext : text (.literal q s e) ++ r = q :: (s ++ e :: r) := by simp [text]
    rw [htext, mask_quote hq, hs.maskFrom, Source.maskFrom, if_pos he]
    · simp [masked, isComment, text, Source.mask]
    · intro d ds h
      exact absurd h hne
  | openLiteral q s =>
    obtain ⟨hq, hs, rfl⟩ := h
    show Source.mask (q :: (s ++ [])) = _
    rw [mask_quote hq]
    rcases hs with hs | ⟨s', rfl, hs⟩
    · rw [hs.maskFrom]
      simp [masked, isComment, text, Source.mask, Source.maskFrom]
    · rw [List.append_assoc, hs.maskFrom]
      simp [masked, isComment, text, Source.mask, Source.maskFrom]

theorem Lexed.mask_textOf {ls : List Lexeme} (h : Lexed ls) :
    Source.mask (textOf ls) = ls.flatMap masked := by
  induction ls with
  | nil => rfl
  | cons l ls ih => rw [textOf_cons, mask_text_append h.1, ih h.2, List.flatMap_cons]

end Lexeme

end FlatSol
