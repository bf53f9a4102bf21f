import FlatSol.Proofs.Source.Spans
import FlatSol.Proofs.Source.Trim

/-!
# How header lines are read

A licence line is a line comment. A pragma statement on one line ends in its semicolon, so that a
line feed behind it leads back into the code, if the statement is all code.
-/

namespace FlatSol

open Text Scan

namespace Text

theorem words_singleton {c : Char} (hc : isBlank c = false) : words [c] = [[c]] := by
  change (if isBlank c = true then _ else _) = _
  rw [if_neg (by simp [hc])]

theorem words_cons_cons (c d : Char) (t : Text) : words (c :: d :: t) =
    if isBlank c then words (d :: t)
    else if isBlank d then [c] :: words (d :: t)
    else match words (d :: t) with
      | [] => [[c]]
      | w :: ws => (c :: w) :: ws := (rfl)

theorem exists_words_append {c : Char} (hc : isBlank c = false) (t : Text) :
    ∃ ws w, words (t ++ [c]) = ws ++ [w ++ [c]] := by
  induction t with
  | nil => exact ⟨[], [], words_singleton hc⟩
  | cons d ds ih =>
    obtain ⟨ws, w, hw⟩ := ih
    obtain ⟨e, es, he⟩ : ∃ e es, ds ++ [c] = e :: es := by
      cases ds with
      | nil => exact ⟨c, [], rfl⟩
      | cons e es => exact ⟨e, es ++ [c], rfl⟩
    rw [he] at hw
    rw [List.cons_append, he, words_cons_cons]
    split
    · exact ⟨ws, w, hw⟩
    · split
      · exact ⟨[d] :: ws, w, by rw [hw]; rfl⟩
      · rw [hw]
        cases ws with
        | nil => exact ⟨[], d :: w, rfl⟩
        | cons v vs => exact ⟨(d :: v) :: vs, w, rfl⟩

theorem exists_joinWith_append (sep : Text) (ts : List Text) (t : Text) (c : Char) :
    ∃ u, joinWith sep (ts ++ [t ++ [c]]) = u ++ [c] := by
  induction ts with
  | nil => exact ⟨t, rfl⟩
  | cons s ss ih =>
    obtain ⟨u, hu⟩ := ih
    obtain ⟨v, vs, hv⟩ : ∃ v vs, ss ++ [t ++ [c]] = v :: vs := by
      cases ss with
      | nil => exact ⟨_, _, rfl⟩
      | cons v vs => exact ⟨_, _, rfl⟩
    rw [hv] at hu
    refine ⟨s ++ sep ++ u, ?_⟩
    rw [List.cons_append, hv, joinWith, hu, List.append_assoc, List.append_assoc, List.append_assoc]

/-- On one line, a text that ends in a character other than white space still ends in it. -/
theorem exists_onOneLine_append {c : Char} (hc : isBlank c = false) (t : Text) :
    ∃ u, onOneLine (t ++ [c]) = u ++ [c] := by
  obtain ⟨ws, w, hw⟩ := exists_words_append hc t
  rw [onOneLine, hw]
  exact exists_joinWith_append _ _ _ _

theorem exists_words_cons {c : Char} (hc : isBlank c = false) (t : Text) :
    ∃ w ws, words (c :: t) = (c :: w) :: ws := by
  cases t with
  | nil => exact ⟨[], [], words_singleton hc⟩
  | cons d ds =>
    rw [words_cons_cons, if_neg (by simp [hc])]
    split
    · exact ⟨[], words (d :: ds), rfl⟩
    · cases words (d :: ds) with
      | nil => exact ⟨[], [], rfl⟩
      | cons w ws => exact ⟨w, ws, rfl⟩

/-- On one line, a text still starts with its first character, if that is not white space. -/
theorem exists_onOneLine_cons {c : Char} (hc : isBlank c = false) (t : Text) :
    ∃ u, onOneLine (c :: t) = c :: u := by
  obtain ⟨w, ws, hw⟩ := exists_words_cons hc t
  rw [onOneLine, hw]
  cases ws with
  | nil => exact ⟨w, rfl⟩
  | cons v vs => exact ⟨_, rfl⟩

theorem isBlank_of_mem_words {t w : Text} {c : Char} (hw : w ∈ words t) (hc : c ∈ w) :
    isBlank c = false := by
  induction t generalizing w with
  | nil => exact absurd hw (List.not_mem_nil)
  | cons d ds ih =>
    cases ds with
    | nil =>
      cases hd : isBlank d with
      | true =>
        have hnil : words [d] = [] := by
          change (if isBlank d = true then _ else _) = _
          rw [if_pos hd]
          rfl
        rw [hnil] at hw
        exact absurd hw (List.not_mem_nil)
      | false =>
        rw [words_singleton hd, List.mem_singleton] at hw
        rw [hw, List.mem_singleton] at hc
        rw [hc, hd]
    | cons e es =>
      rw [words_cons_cons] at hw
      split at hw
      · exact ih hw hc
      · next hd =>
        rw [Bool.not_eq_true] at hd
        split at hw
        · rcases List.mem_cons.1 hw with rfl | hw
          · rw [List.mem_singleton.1 hc, hd]
          · exact ih hw hc
        · cases hk : words (e :: es) with
          | nil =>
            rw [hk] at hw
            rw [List.mem_singleton.1 hw, List.mem_singleton] at hc
            rw [hc, hd]
          | cons v vs =>
            rw [hk] at hw ih
            rcases List.mem_cons.1 hw with rfl | hw
            · rcases List.mem_cons.1 hc with rfl | hc
              · exact hd
              · exact ih (List.mem_cons_self ..) hc
            · exact ih (List.mem_cons_of_mem _ hw) hc

theorem lineFeed_notMem_onOneLine (t : Text) : '\n' ∉ onOneLine t := by
  intro h
  rcases mem_joinWith h with h | ⟨w, hw, h⟩
  · exact absurd h (by decide)
  · exact absurd (isBlank_of_mem_words hw h) (by decide)

end Text

namespace Source

theorem isBlank_of_isMargin {c : Char} (h : isMargin c = true) : isBlank c = true := by
  rcases isMargin_iff.1 h with rfl | rfl <;> rfl

theorem paint_line {t : Text} (h : '\n' ∉ t) :
    (∀ c ∈ paint .line t, isBlank c = true) ∧ Scan.line.after t = .line := by
  induction t with
  | nil => exact ⟨by simp [paint], rfl⟩
  | cons c cs ih =>
    rw [List.mem_cons, not_or] at h
    obtain ⟨hblank, hafter⟩ := ih h.2
    have hc : c ≠ '\n' := fun hc => h.1 hc.symm
    have hnext : Scan.line.next c = .line := by simp [next, hc]
    rw [paint, after_cons, hnext]
    refine ⟨fun d hd => ?_, hafter⟩
    rcases List.mem_append.1 hd with hd | hd
    · rw [shown, blanked, if_neg hc] at hd
      rw [List.eq_of_mem_replicate hd]
      rfl
    · exact hblank d hd

/-- A line comment is masked to white space, and a line feed ends it. -/
theorem lineComment_reads {t : Text} (h : '\n' ∉ t) :
    (∀ c ∈ mask ('/' :: '/' :: t), isBlank c = true) ∧
      Scan.code.after ('/' :: '/' :: t ++ ['\n']) = .code := by
  obtain ⟨hblank, hafter⟩ := paint_line h
  constructor
  · intro c hc
    rw [mask_eq_paint] at hc
    have hpaint : paint .code ('/' :: '/' :: t) = ' ' :: ' ' :: paint .line t := rfl
    rw [hpaint, List.mem_cons, List.mem_cons] at hc
    rcases hc with rfl | rfl | hc
    · rfl
    · rfl
    · exact hblank c hc
  · have hline : Scan.code.after ('/' :: '/' :: t ++ ['\n']) =
        (Scan.line.after t).next '\n' := by
      rw [List.cons_append, List.cons_append, after_cons, after_cons, after_append]
      rfl
    rw [hline, hafter]
    rfl

/-- Behind the line feed of a line comment, a text is read as if it stood alone. -/
theorem next_after_lineComment {k : Text} (h : '\n' ∉ k) :
    (Scan.code.after ('/' :: '/' :: k)).next '\n' = .code := by
  have hafter := (lineComment_reads h).2
  rw [after_append] at hafter
  exact hafter

theorem mask_lineComment_append {k : Text} (h : '\n' ∉ k) (t : Text) :
    mask ('/' :: '/' :: k ++ '\n' :: t) = mask ('/' :: '/' :: k) ++ '\n' :: mask t := by
  rw [mask_eq_paint, mask_eq_paint, mask_eq_paint, paint_append_lineFeed, next_after_lineComment h]

theorem after_lineComment_append {k : Text} (h : '\n' ∉ k) (t : Text) :
    Scan.code.after ('/' :: '/' :: k ++ '\n' :: t) = Scan.code.after t := by
  rw [after_append, after_cons, next_after_lineComment h]

theorem notMem_trimEnd {c : Char} {t : Text} (h : c ∉ t) : c ∉ trimEnd t := by
  intro hc
  obtain ⟨s, hs, -⟩ := exists_blank_append_eq t
  exact h (hs ▸ List.mem_append_left s hc)

theorem trimEnd_lineComment (t : Text) :
    trimEnd ('/' :: '/' :: t) = '/' :: '/' :: trimEnd t := by
  have hslash : ∀ u : Text, ¬ (isBlank '/' = true ∧ u.all isBlank = true) := fun u h =>
    absurd h.1 (by decide)
  rw [trimEnd_cons_of_not (hslash _), trimEnd_cons_of_not (hslash _)]

theorem license_reads {t : Text} {f : Found Text} (h : f ∈ licenses t) :
    (∀ c ∈ mask f.value, isBlank c = true) ∧ Scan.code.after (f.value ++ ['\n']) = .code := by
  obtain ⟨a, b, m, -, hm, rfl⟩ := Pattern.exists_of_mem_findAll h
  obtain ⟨-, margin, rest, hmargin, hrest, hvalue⟩ := exists_of_licenseLine hm
  have htrim : m.value = '/' :: '/' :: trimEnd rest := by
    rw [hvalue, trim, trimStart,
      List.dropWhile_append_of_pos fun c hc => isBlank_of_isMargin (hmargin c hc),
      List.dropWhile_cons_of_neg (by decide), trimEnd_lineComment]
  simp only [htrim]
  exact lineComment_reads (notMem_trimEnd hrest)

/-- A line feed ends a text that ends in a semicolon, unless a block comment is open. -/
theorem after_semicolon_lineFeed {t : Text} (h : (Scan.code.after (t ++ [';'])).inBlock = false) :
    Scan.code.after (t ++ [';'] ++ ['\n']) = .code := by
  rw [after_append] at h
  rw [after_append, after_append]
  cases hs : Scan.code.after t with
  | code => rfl
  | slash => rfl
  | line => rfl
  | block =>
    rw [hs] at h
    exact Bool.noConfusion h
  | star =>
    rw [hs] at h
    exact Bool.noConfusion h
  | literal q =>
    by_cases hq : ';' = q
    · simp [after, next, hq.symm, isQuote]
    · simp [after, next, hq]
  | escape q => simp [after, next]

theorem inBlock_of_mask_eq {t : Text} (h : mask (t ++ [';']) = t ++ [';']) :
    (Scan.code.after (t ++ [';'])).inBlock = false := by
  rw [mask_eq_paint, paint_append_eq] at h
  rw [after_append]
  have hlength : ∀ s : Scan, (paint s [';']).length = 1 := by
    intro s
    cases s <;> rfl
  have hshown := (List.append_inj' h (by rw [hlength]; rfl)).2
  -- in a comment the semicolon would be blanked out
  cases hs : Scan.code.after t with
  | code => rfl
  | slash => rfl
  | line => rfl
  | block =>
    rw [hs] at hshown
    exact absurd hshown (by decide)
  | star =>
    rw [hs] at hshown
    exact absurd hshown (by decide)
  | literal q =>
    by_cases hq : ';' = q
    · subst hq
      rfl
    · simp [after, next, hq, inBlock]
  | escape q => rfl

/-- A pragma statement on one line starts with its keyword's first letter and ends in its
semicolon. -/
theorem exists_pragma_statement {t : Text} {f : Found Pragma} (h : f ∈ pragmas t) :
    (∃ u, f.value.statement = u ++ [';']) ∧ (∃ u, f.value.statement = 'p' :: u) ∧
      '\n' ∉ f.value.statement := by
  obtain ⟨a, body, b, -, hstatement, -⟩ := exists_of_mem_pragmas h
  rw [hstatement]
  refine ⟨exists_onOneLine_append rfl _, ?_, lineFeed_notMem_onOneLine _⟩
  exact exists_onOneLine_cons rfl _

end Source

end FlatSol
