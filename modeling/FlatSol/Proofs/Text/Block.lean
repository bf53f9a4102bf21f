import FlatSol.Proofs.Text.Place

/-!
# The block of a text

What a block is, said by the lines of its text: each line is without the white space at its end, and
the lines are those between the first and the last one that is not empty. Main statements: this
determines the block, and a part of the text whose lines do not end in white space stands in it.
-/

namespace FlatSol.Text

/-! ### Lines that are trimmed -/

/-- The line without the white space at its end. -/
structure Trimmed (line l : Text) : Prop where
  exists_blank : ∃ s, line = l ++ s ∧ ∀ c ∈ s, isBlank c = true
  last : ∀ c ∈ l.getLast?, isBlank c = false

theorem isBlank_getLast?_trimEnd {t : Text} {c : Char} (h : c ∈ (trimEnd t).getLast?) :
    isBlank c = false := by
  obtain ⟨u, hu⟩ := List.getLast?_eq_some_iff.1 h
  rw [Bool.eq_false_iff]
  intro hc
  have hblank : ∀ d ∈ [c], isBlank d = true := by simpa using hc
  have hshort : trimEnd u = u ++ [c] := by
    rw [← trimEnd_append_of_blank hblank, ← hu, trimEnd_trimEnd]
  obtain ⟨s, hs, -⟩ := exists_blank_append_eq u
  have hlength := congrArg List.length hs
  rw [hshort] at hlength
  simp only [List.length_append, List.length_cons, List.length_nil] at hlength
  omega

theorem trimmed_iff {line l : Text} : Trimmed line l ↔ l = trimEnd line := by
  constructor
  · rintro ⟨⟨s, rfl, hs⟩, hlast⟩
    rw [trimEnd_append_of_blank hs]
    rcases List.eq_nil_or_concat l with rfl | ⟨u, c, rfl⟩
    · rfl
    · have hc : isBlank c = false := hlast c (by simp)
      have hone : trimEnd [c] = [c] := by simp [trimEnd, hc]
      rw [List.concat_eq_append, trimEnd_append_of_ne (by rw [hone]; simp), hone]
  · rintro rfl
    obtain ⟨s, hs, hblank⟩ := exists_blank_append_eq line
    exact ⟨⟨s, hs.symm, hblank⟩, fun c hc => isBlank_getLast?_trimEnd hc⟩

theorem forall₂_trimmed_iff {ls ks : List Text} :
    List.Forall₂ Trimmed ls ks ↔ ks = ls.map trimEnd := by
  constructor
  · intro h
    induction h with
    | nil => rfl
    | cons hl _ ih => rw [trimmed_iff.1 hl, ih, List.map_cons]
  · rintro rfl
    induction ls with
    | nil => exact .nil
    | cons l ls ih => exact .cons (trimmed_iff.2 rfl) ih

/-- The lines of a text: they hold no line feed, and joined by line feeds they are the text. -/
structure LinesOf (t : Text) (ls : List Text) : Prop where
  ne_nil : ls ≠ []
  plain : ∀ l ∈ ls, '\n' ∉ l
  joined : joinWith ['\n'] ls = t

theorem linesOf_iff {t : Text} {ls : List Text} : LinesOf t ls ↔ ls = pieces '\n' t := by
  constructor
  · rintro ⟨hne, hplain, rfl⟩
    exact (pieces_joinWith hne hplain).symm
  · rintro rfl
    exact ⟨pieces_ne_nil _ t, fun l hl hmem => (of_mem_pieces hl _ hmem).2 rfl, joinWith_pieces _ t⟩

/-! ### Empty lines at both ends -/

theorem dropTrailingEmpty_append {ls below : List Text} (h : ∀ l ∈ below, l = []) :
    dropTrailingEmpty (ls ++ below) = dropTrailingEmpty ls := by
  induction below generalizing ls with
  | nil => rw [List.append_nil]
  | cons b bs ih =>
    obtain ⟨rfl, hbs⟩ := List.forall_mem_cons.1 h
    have hsplit : ls ++ [] :: bs = ls ++ [[]] ++ bs := by simp
    rw [hsplit, ih hbs, dropTrailingEmpty_concat]

theorem dropTrailingEmpty_of_getLast? {ls : List Text} (h : ls.getLast? ≠ some []) :
    dropTrailingEmpty ls = ls := by
  induction ls with
  | nil => rfl
  | cons l ls ih =>
    cases ls with
    | nil =>
      have hl : l ≠ [] := by simpa using h
      simp [dropTrailingEmpty, hl]
    | cons m ms =>
      rw [List.getLast?_cons_cons] at h
      rw [dropTrailingEmpty, ih h]

theorem exists_dropTrailingEmpty_append (ls : List Text) :
    ∃ below, ls = dropTrailingEmpty ls ++ below ∧ (∀ l ∈ below, l = []) ∧
      (dropTrailingEmpty ls).getLast? ≠ some [] := by
  induction ls with
  | nil => exact ⟨[], rfl, by simp, by simp [dropTrailingEmpty]⟩
  | cons l ls ih =>
    obtain ⟨below, hls, hempty, hlast⟩ := ih
    rw [dropTrailingEmpty]
    cases hk : dropTrailingEmpty ls with
    | nil =>
      rw [hk, List.nil_append] at hls
      subst hls
      cases l with
      | nil => exact ⟨[] :: ls, by simp, List.forall_mem_cons.2 ⟨rfl, hempty⟩, by simp⟩
      | cons c cs => exact ⟨ls, by simp, hempty, by simp⟩
    | cons k ks =>
      rw [hk] at hls hlast
      refine ⟨below, by rw [hls]; rfl, hempty, ?_⟩
      show (l :: k :: ks).getLast? ≠ some []
      rwa [List.getLast?_cons_cons]

/-- The lines between empty ones at both ends are found again. -/
theorem dropTrailingEmpty_dropWhile {above lines below : List Text}
    (habove : ∀ l ∈ above, l = []) (hbelow : ∀ l ∈ below, l = [])
    (hfirst : lines.head? ≠ some []) (hlast : lines.getLast? ≠ some []) :
    dropTrailingEmpty ((above ++ lines ++ below).dropWhile List.isEmpty) = lines := by
  have hempty : ∀ l ∈ above, List.isEmpty l = true := fun l hl => by rw [habove l hl]; rfl
  rw [List.append_assoc, List.dropWhile_append_of_pos hempty]
  cases lines with
  | nil =>
    have hdrop : below.dropWhile List.isEmpty = [] :=
      List.dropWhile_eq_nil_iff.2 fun l hl => by rw [hbelow l hl]; rfl
    rw [List.nil_append, hdrop]
    rfl
  | cons l ls =>
    have hl : l ≠ [] := by simpa using hfirst
    rw [List.cons_append, List.dropWhile_cons_of_neg (by simpa using hl), ← List.cons_append,
      dropTrailingEmpty_append hbelow, dropTrailingEmpty_of_getLast? hlast]

/-! ### Blocks -/

/-- The block of a text: its lines, each without the white space at its end, without the empty ones
at both ends, joined by line feeds. -/
def IsBlock (t b : Text) : Prop :=
  ∃ ls above lines below, LinesOf t ls ∧ List.Forall₂ Trimmed ls (above ++ lines ++ below) ∧
    (∀ l ∈ above, l = []) ∧ (∀ l ∈ below, l = []) ∧
      lines.head? ≠ some [] ∧ lines.getLast? ≠ some [] ∧ b = joinWith ['\n'] lines

/-- A text has exactly one block. -/
theorem isBlock_iff {t b : Text} : IsBlock t b ↔ b = asBlock t := by
  constructor
  · rintro ⟨ls, above, lines, below, hls, htrim, habove, hbelow, hfirst, hlast, rfl⟩
    rw [linesOf_iff] at hls
    rw [forall₂_trimmed_iff, hls] at htrim
    show _ = joinWith ['\n'] (dropTrailingEmpty (((pieces '\n' t).map trimEnd).dropWhile List.isEmpty))
    rw [← htrim, dropTrailingEmpty_dropWhile habove hbelow hfirst hlast]
  · rintro rfl
    obtain ⟨above, rest, htrim, habove, -, hrest, hhead⟩ : ∃ above rest,
        (pieces '\n' t).map trimEnd = above ++ rest ∧ (∀ l ∈ above, List.isEmpty l = true) ∧
          ((pieces '\n' t).map trimEnd).takeWhile List.isEmpty = above ∧
            ((pieces '\n' t).map trimEnd).dropWhile List.isEmpty = rest ∧
              rest.head? ≠ some [] := by
      refine ⟨_, _, List.takeWhile_append_dropWhile.symm,
        fun l hl => List.all_eq_true.1 List.all_takeWhile l hl, rfl, rfl, fun hnil => ?_⟩
      have hnot := List.head?_dropWhile_not List.isEmpty ((pieces '\n' t).map trimEnd)
      rw [hnil] at hnot
      exact Bool.noConfusion hnot
    obtain ⟨below, hbelow, hempty, hlast⟩ := exists_dropTrailingEmpty_append rest
    refine ⟨pieces '\n' t, above, dropTrailingEmpty rest, below, linesOf_iff.2 rfl, ?_,
      fun l hl => List.isEmpty_iff.1 (habove l hl), hempty, ?_, hlast, ?_⟩
    · rw [forall₂_trimmed_iff, htrim, List.append_assoc, ← hbelow]
    · intro hnil
      obtain ⟨ks, hks⟩ := List.head?_eq_some_iff.1 hnil
      rw [hbelow, hks] at hhead
      exact hhead rfl
    · show joinWith ['\n'] (dropTrailingEmpty (((pieces '\n' t).map trimEnd).dropWhile
        List.isEmpty)) = _
      rw [hrest]

/-- A block has all characters of its text that are not white space. -/
theorem squeeze_asBlock (t : Text) : squeeze (asBlock t) = squeeze t := by
  obtain ⟨i, j, hblock⟩ := exists_asBlock t
  have htrim := (padded_trimLines t).squeeze_eq
  rw [hblock, squeeze_append, squeeze_append, squeeze_lineFeeds, squeeze_lineFeeds, List.nil_append,
    List.append_nil] at htrim
  exact htrim

/-! ### Parts that stay as they are -/

/-- Line feeds around a text do not belong to what stands between others of its characters. -/
theorem exists_of_lineFeeds_append {i j : Nat} {x t u behind : Text} {c d : Char} (hc : c ≠ '\n')
    (hd : d ≠ '\n') (h : List.replicate i '\n' ++ t ++ List.replicate j '\n' =
      x ++ (c :: u ++ d :: behind)) :
    ∃ x' behind', x = List.replicate i '\n' ++ x' ∧ t = x' ++ (c :: u ++ d :: behind') := by
  obtain ⟨x', rfl⟩ : ∃ x', x = List.replicate i '\n' ++ x' := by
    rw [List.append_assoc] at h
    rcases List.append_eq_append_iff.1 h with ⟨z, rfl, -⟩ | ⟨z, hz, hz'⟩
    · exact ⟨z, rfl⟩
    · cases z with
      | nil => exact ⟨[], by rw [hz, List.append_nil, List.append_nil]⟩
      | cons e es =>
        obtain rfl := (List.cons.inj hz').1
        refine absurd (List.eq_of_mem_replicate (a := '\n') (n := i) ?_) hc
        rw [hz]
        simp
  rw [List.append_assoc, List.append_assoc, List.append_cancel_left_eq, ← List.append_assoc] at h
  refine ⟨x', ?_⟩
  rcases List.append_eq_append_iff.1 h with ⟨z, -, hz⟩ | ⟨z, rfl, hz⟩
  · refine absurd (List.eq_of_mem_replicate (a := '\n') (n := j) ?_) hd
    rw [hz]
    simp
  · cases z with
    | nil =>
      refine absurd (List.eq_of_mem_replicate (a := '\n') (n := j) ?_) hd
      rw [List.nil_append] at hz
      rw [← hz]
      simp
    | cons e es =>
      obtain rfl := (List.cons.inj hz).1
      exact ⟨es, rfl, by simp⟩

/-- A text in which no white space is taken away, whatever stands behind it. -/
def Firm (w : Text) : Prop :=
  ∀ t, trimLines (w ++ t) = w ++ trimLines t

theorem exists_trimLines_append (u t : Text) :
    ∃ x, trimLines (u ++ t) = x ++ trimLines t ∧ squeeze x = squeeze u := by
  induction u with
  | nil => exact ⟨[], rfl, rfl⟩
  | cons d ds ih =>
    obtain ⟨x, hx, hsqueeze⟩ := ih
    rw [List.cons_append, trimLines, hx]
    split
    · next h => exact ⟨x, rfl, by simpa [squeeze, h.2.1] using hsqueeze⟩
    · refine ⟨d :: x, rfl, ?_⟩
      simp only [squeeze, List.filter_cons] at hsqueeze ⊢
      rw [hsqueeze]

/-- A firm part of a text that begins with no white space and ends in no line feed stands in the
block, behind what is left of the text before it. -/
theorem exists_asBlock_append {u m t : Text} {c d : Char} (hc : isBlank c = false) (hd : d ≠ '\n')
    (h : Firm (c :: m ++ [d])) : ∃ x y, asBlock (u ++ (c :: m ++ [d]) ++ t) =
      x ++ (c :: m ++ [d]) ++ y ∧ squeeze x = squeeze u := by
  obtain ⟨i, j, hblock⟩ := exists_asBlock (u ++ (c :: m ++ [d]) ++ t)
  obtain ⟨x, hx, hsqueeze⟩ := exists_trimLines_append u (c :: (m ++ [d] ++ t))
  have hne : c ≠ '\n' := (ne_of_isBlank rfl hc).symm
  have htext : u ++ (c :: m ++ [d]) ++ t = u ++ c :: (m ++ [d] ++ t) := by simp
  have hfirm : trimLines (c :: (m ++ [d] ++ t)) = c :: m ++ d :: trimLines t := by
    have hpart := h t
    simp only [List.cons_append, List.append_assoc] at hpart ⊢
    exact hpart
  rw [htext, hx, hfirm] at hblock
  obtain ⟨x', y, rfl, hbody⟩ := exists_of_lineFeeds_append hne hd hblock.symm
  rw [squeeze_append, squeeze_lineFeeds, List.nil_append] at hsqueeze
  refine ⟨x', y, ?_, hsqueeze⟩
  rw [htext, hbody]
  simp

end FlatSol.Text
