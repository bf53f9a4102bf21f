import FlatSol.Proofs.Text.Keep
import FlatSol.Proofs.Text.Pieces
import FlatSol.Text.Line

/-!
# What is left of the lines of a block

A block is its text with the white space at the ends of the lines taken away, and the line feeds
before the first character and behind the last one.
-/

namespace FlatSol.Text

theorem ne_of_isBlank {c d : Char} (hc : isBlank c = true) (hd : isBlank d = false) : c ≠ d := by
  rintro rfl
  rw [hc] at hd
  exact Bool.noConfusion hd

theorem trimEnd_eq_nil_iff {t : Text} : trimEnd t = [] ↔ ∀ c ∈ t, isBlank c = true := by
  induction t with
  | nil => simp [trimEnd]
  | cons c cs ih =>
    rw [trimEnd, List.forall_mem_cons, ← ih]
    cases trimEnd cs with
    | nil => simp
    | cons k ks => simp

theorem trimEnd_append_of_ne {s t : Text} (h : trimEnd t ≠ []) :
    trimEnd (s ++ t) = s ++ trimEnd t := by
  induction s with
  | nil => rfl
  | cons c cs ih =>
    rw [List.cons_append, trimEnd, ih]
    cases hk : cs ++ trimEnd t with
    | nil => exact absurd (List.append_eq_nil_iff.1 hk).2 h
    | cons k ks => rw [List.cons_append, hk]

theorem trimEnd_append_of_blank {s t : Text} (h : ∀ c ∈ t, isBlank c = true) :
    trimEnd (s ++ t) = trimEnd s := by
  induction s with
  | nil => exact trimEnd_eq_nil_iff.2 h
  | cons c cs ih => rw [List.cons_append, trimEnd, ih, trimEnd]

theorem trimEnd_trimEnd (t : Text) : trimEnd (trimEnd t) = trimEnd t := by
  obtain ⟨s, ht, hs⟩ := exists_blank_append_eq t
  have h := trimEnd_append_of_blank (s := trimEnd t) hs
  rw [ht] at h
  exact h.symm

theorem trim_eq_nil_iff {t : Text} : trim t = [] ↔ ∀ c ∈ t, isBlank c = true := by
  rw [trim, trimEnd_eq_nil_iff, trimStart]
  constructor
  · intro h c hc
    rw [← List.takeWhile_append_dropWhile (p := isBlank) (l := t)] at hc
    rcases List.mem_append.1 hc with hc | hc
    · exact List.all_eq_true.1 List.all_takeWhile c hc
    · exact h c hc
  · exact fun h c hc => h c ((List.dropWhile_sublist isBlank).mem hc)

/-! ### The ends of lines -/

/-- Whether only white space is left of the line. -/
def endsBlank (t : Text) : Bool :=
  (t.takeWhile (· ≠ '\n')).all isBlank

/-- The text without the white space at the ends of its lines. -/
def trimLines : Text → Text
  | [] => []
  | c :: cs =>
    if c ≠ '\n' ∧ isBlank c = true ∧ endsBlank cs = true then trimLines cs else c :: trimLines cs

theorem joinWith_cons_append (sep l k : Text) (ls : List Text) :
    joinWith sep ((l ++ k) :: ls) = l ++ joinWith sep (k :: ls) := by
  cases ls with
  | nil => rfl
  | cons m ms => simp [joinWith]

theorem exists_pieces_eq (t : Text) :
    ∃ ps, pieces '\n' t = t.takeWhile (· ≠ '\n') :: ps := by
  cases t with
  | nil => exact ⟨[], rfl⟩
  | cons c cs =>
    rw [pieces]
    by_cases hc : c = '\n'
    · exact ⟨pieces '\n' cs, by simp [hc]⟩
    · obtain ⟨ps, hps⟩ := exists_pieces_eq cs
      exact ⟨ps, by simp [hc, hps]⟩

theorem trimEnd_cons_of_blank {c : Char} {cs : Text} (hc : isBlank c = true)
    (h : cs.all isBlank = true) : trimEnd (c :: cs) = trimEnd cs := by
  have hcs : ∀ d ∈ cs, isBlank d = true := List.all_eq_true.1 h
  have hall : ∀ d ∈ c :: cs, isBlank d = true := List.forall_mem_cons.2 ⟨hc, hcs⟩
  rw [trimEnd_eq_nil_iff.2 hall, trimEnd_eq_nil_iff.2 hcs]

theorem trimEnd_cons_of_not {c : Char} {cs : Text}
    (h : ¬ (isBlank c = true ∧ cs.all isBlank = true)) : trimEnd (c :: cs) = c :: trimEnd cs := by
  rw [trimEnd]
  cases hk : trimEnd cs with
  | nil =>
    have hcs : cs.all isBlank = true := List.all_eq_true.2 (trimEnd_eq_nil_iff.1 hk)
    have hc : isBlank c ≠ true := fun hb => h ⟨hb, hcs⟩
    rw [if_neg hc]
  | cons k ks => rfl

theorem joinWith_map_trimEnd (t : Text) :
    joinWith ['\n'] ((pieces '\n' t).map trimEnd) = trimLines t := by
  induction t with
  | nil => rfl
  | cons c cs ih =>
    obtain ⟨ps, hps⟩ := exists_pieces_eq cs
    rw [hps, List.map_cons] at ih
    rw [pieces, trimLines]
    by_cases hc : c = '\n'
    · rw [if_pos hc, if_neg (by simp [hc]), hps, hc, ← ih]
      rfl
    · rw [if_neg hc, hps, List.map_cons]
      by_cases hb : isBlank c = true ∧ endsBlank cs = true
      · rw [trimEnd_cons_of_blank hb.1 hb.2, if_pos ⟨hc, hb⟩, ih]
      · rw [trimEnd_cons_of_not hb, if_neg fun h => hb h.2, ← ih]
        exact joinWith_cons_append ['\n'] [c] _ _

theorem endsBlank_cons {c : Char} (hc : c ≠ '\n') (t : Text) :
    endsBlank (c :: t) = (isBlank c && endsBlank t) := by
  simp [endsBlank, hc]

@[simp] theorem trimLines_lineFeed (t : Text) : trimLines ('\n' :: t) = '\n' :: trimLines t := by
  simp [trimLines]

theorem head?_trimLines {t : Text} (h : endsBlank t = true) :
    (trimLines t).head? = none ∨ (trimLines t).head? = some '\n' := by
  induction t with
  | nil => exact .inl rfl
  | cons c cs ih =>
    by_cases hc : c = '\n'
    · exact .inr (by rw [hc, trimLines_lineFeed]; rfl)
    · rw [endsBlank_cons hc, Bool.and_eq_true] at h
      rw [trimLines, if_pos ⟨hc, h⟩]
      exact ih h.2

/-! ### White space at the ends of lines -/

/-- The first text is the second one without some of the white space at the ends of its lines. -/
inductive Padded : Text → Text → Prop
  | nil : Padded [] []
  | cons (c : Char) {x y : Text} : Padded x y → Padded (c :: x) (c :: y)
  | pad {c : Char} {x y : Text} : isBlank c = true → c ≠ '\n' →
      (x.head? = none ∨ x.head? = some '\n') → Padded x y → Padded x (c :: y)

theorem Padded.append_left {x y : Text} (h : Padded x y) (w : Text) :
    Padded (w ++ x) (w ++ y) := by
  induction w with
  | nil => exact h
  | cons c cs ih => exact .cons c ih

theorem Padded.pads {x y w : Text} (h : Padded x y) (hx : x.head? = none ∨ x.head? = some '\n')
    (hw : ∀ c ∈ w, isBlank c = true ∧ c ≠ '\n') : Padded x (w ++ y) := by
  induction w with
  | nil => exact h
  | cons c cs ih =>
    obtain ⟨hc, hcs⟩ := List.forall_mem_cons.1 hw
    exact .pad hc.1 hc.2 hx (ih hcs)

theorem Padded.squeeze_eq {x y : Text} (h : Padded x y) : squeeze x = squeeze y := by
  induction h with
  | nil => rfl
  | cons c _ ih =>
    by_cases hc : isBlank c = true
    · simpa [squeeze, hc] using ih
    · simpa [squeeze, hc] using ih
  | pad hc _ _ _ ih => rw [ih, squeeze, squeeze, List.filter_cons_of_neg (by simp [hc])]

/-! ### Empty lines at both ends -/

theorem exists_joinWith_dropWhile (ls : List Text) :
    ∃ i, joinWith ['\n'] ls =
      List.replicate i '\n' ++ joinWith ['\n'] (ls.dropWhile List.isEmpty) := by
  induction ls with
  | nil => exact ⟨0, rfl⟩
  | cons l ls ih =>
    cases l with
    | cons c cs => exact ⟨0, rfl⟩
    | nil =>
      cases ls with
      | nil => exact ⟨0, rfl⟩
      | cons m ms =>
        obtain ⟨i, hi⟩ := ih
        refine ⟨i + 1, ?_⟩
        rw [List.replicate_succ, List.cons_append, List.dropWhile_cons_of_pos rfl, ← hi]
        rfl

theorem exists_joinWith_dropTrailingEmpty (ls : List Text) :
    ∃ j, joinWith ['\n'] ls =
      joinWith ['\n'] (dropTrailingEmpty ls) ++ List.replicate j '\n' := by
  induction ls with
  | nil => exact ⟨0, rfl⟩
  | cons l ls ih =>
    obtain ⟨j, hj⟩ := ih
    rw [dropTrailingEmpty]
    cases ls with
    | nil =>
      refine ⟨0, ?_⟩
      cases l with
      | nil => rfl
      | cons c cs => simp [dropTrailingEmpty, joinWith]
    | cons m ms =>
      rw [joinWith, hj]
      cases hk : dropTrailingEmpty (m :: ms) with
      | nil =>
        refine ⟨j + 1, ?_⟩
        cases l with
        | nil => simp [joinWith, List.replicate_succ]
        | cons c cs => simp [joinWith, List.replicate_succ]
      | cons k ks => exact ⟨j, by simp [joinWith]⟩

/-- Between line feeds, a block is its text without the white space at the ends of the lines. -/
theorem exists_asBlock (t : Text) : ∃ i j,
    trimLines t = List.replicate i '\n' ++ asBlock t ++ List.replicate j '\n' := by
  obtain ⟨i, hi⟩ := exists_joinWith_dropWhile ((pieces '\n' t).map trimEnd)
  obtain ⟨j, hj⟩ := exists_joinWith_dropTrailingEmpty
    (((pieces '\n' t).map trimEnd).dropWhile List.isEmpty)
  refine ⟨i, j, ?_⟩
  rw [← joinWith_map_trimEnd, hi, hj, List.append_assoc]
  rfl

theorem trimEnd_joinWith_dropTrailingEmpty {ls : List Text} (h : ∀ l ∈ ls, trimEnd l = l) :
    trimEnd (joinWith ['\n'] (dropTrailingEmpty ls)) = joinWith ['\n'] (dropTrailingEmpty ls) ∧
      (dropTrailingEmpty ls ≠ [] → joinWith ['\n'] (dropTrailingEmpty ls) ≠ []) := by
  induction ls with
  | nil => exact ⟨rfl, fun h => absurd rfl h⟩
  | cons l ls ih =>
    obtain ⟨hl, hls⟩ := List.forall_mem_cons.1 h
    obtain ⟨hend, hne⟩ := ih hls
    rw [dropTrailingEmpty]
    cases hk : dropTrailingEmpty ls with
    | nil =>
      cases l with
      | nil => exact ⟨rfl, fun h => absurd rfl h⟩
      | cons c cs => exact ⟨hl, fun _ => List.cons_ne_nil c cs⟩
    | cons k ks =>
      rw [hk] at hend hne
      have hkept : joinWith ['\n'] (k :: ks) ≠ [] := hne (List.cons_ne_nil k ks)
      have hjoin : joinWith ['\n'] (l :: k :: ks) = l ++ ['\n'] ++ joinWith ['\n'] (k :: ks) := rfl
      refine ⟨?_, fun _ => ?_⟩
      · rw [hjoin, trimEnd_append_of_ne (by rw [hend]; exact hkept), hend]
      · rw [hjoin]
        simp

theorem trimEnd_asBlock (t : Text) : trimEnd (asBlock t) = asBlock t := by
  refine (trimEnd_joinWith_dropTrailingEmpty fun l hl => ?_).1
  obtain ⟨p, -, rfl⟩ := List.mem_map.1 ((List.dropWhile_sublist _).mem hl)
  exact trimEnd_trimEnd p

theorem trim_asBlock_eq_nil_iff {t : Text} : trim (asBlock t) = [] ↔ asBlock t = [] := by
  rw [trim_eq_nil_iff, ← trimEnd_eq_nil_iff, trimEnd_asBlock]

/-! ### Blocks of blocks -/

theorem dropTrailingEmpty_concat (ls : List Text) :
    dropTrailingEmpty (ls ++ [[]]) = dropTrailingEmpty ls := by
  induction ls with
  | nil => rfl
  | cons l ls ih => rw [List.cons_append, dropTrailingEmpty, ih, dropTrailingEmpty]

theorem dropTrailingEmpty_dropTrailingEmpty (ls : List Text) :
    dropTrailingEmpty (dropTrailingEmpty ls) = dropTrailingEmpty ls := by
  induction ls with
  | nil => rfl
  | cons l ls ih =>
    rw [dropTrailingEmpty]
    cases hk : dropTrailingEmpty ls with
    | nil => cases l <;> rfl
    | cons k ks =>
      rw [hk] at ih
      show dropTrailingEmpty (l :: k :: ks) = l :: k :: ks
      rw [dropTrailingEmpty, ih]

theorem dropTrailingEmpty_subset (ls : List Text) : dropTrailingEmpty ls ⊆ ls := by
  induction ls with
  | nil => exact List.Subset.refl _
  | cons l ls ih =>
    rw [dropTrailingEmpty]
    cases hk : dropTrailingEmpty ls with
    | nil => cases l <;> simp
    | cons k ks =>
      rw [hk] at ih
      exact List.cons_subset_cons l ih

/-- Lines that do not begin with an empty one still do not when the empty ones at the end are gone. -/
theorem dropWhile_dropTrailingEmpty (ls : List Text) :
    (dropTrailingEmpty (ls.dropWhile List.isEmpty)).dropWhile List.isEmpty =
      dropTrailingEmpty (ls.dropWhile List.isEmpty) := by
  cases hd : ls.dropWhile List.isEmpty with
  | nil => rfl
  | cons l ls' =>
    have hl : l.isEmpty = false := by
      have hhead := List.head?_dropWhile_not List.isEmpty ls
      rw [hd] at hhead
      simpa using hhead
    rw [dropTrailingEmpty]
    cases dropTrailingEmpty ls' with
    | nil => simp [hl]
    | cons k ks => simp [hl]

@[simp] theorem asBlock_lineFeed (t : Text) : asBlock ('\n' :: t) = asBlock t := by
  simp [asBlock, pieces, trimEnd]

@[simp] theorem asBlock_append_lineFeed (t : Text) : asBlock (t ++ ['\n']) = asBlock t := by
  have hempty : trimEnd [] = [] := rfl
  simp only [asBlock, pieces_append_singleton, List.map_append, List.map_singleton, hempty,
    List.dropWhile_append]
  split
  · next h =>
    rw [List.isEmpty_iff.1 h]
    rfl
  · rw [dropTrailingEmpty_concat]

theorem asBlock_lineFeeds (i j : Nat) (t : Text) :
    asBlock (List.replicate i '\n' ++ t ++ List.replicate j '\n') = asBlock t := by
  induction i with
  | succ i ih => simpa [List.replicate_succ] using ih
  | zero =>
    induction j with
    | zero => simp
    | succ j ih =>
      rw [List.replicate_succ', ← List.append_assoc, asBlock_append_lineFeed]
      exact ih

theorem asBlock_asBlock (t : Text) : asBlock (asBlock t) = asBlock t := by
  have hlines : ∀ l ∈ dropTrailingEmpty (((pieces '\n' t).map trimEnd).dropWhile List.isEmpty),
      trimEnd l = l ∧ '\n' ∉ l := by
    intro l hl
    obtain ⟨p, hp, rfl⟩ :=
      List.mem_map.1 ((List.dropWhile_sublist _).mem (dropTrailingEmpty_subset _ hl))
    obtain ⟨s, hs, -⟩ := exists_blank_append_eq p
    refine ⟨trimEnd_trimEnd p, fun hmem => ?_⟩
    exact (of_mem_pieces hp '\n' (hs ▸ List.mem_append_left s hmem)).2 rfl
  by_cases hnil : dropTrailingEmpty (((pieces '\n' t).map trimEnd).dropWhile List.isEmpty) = []
  · have hblock : asBlock t = [] := by
      rw [asBlock, hnil]
      rfl
    rw [hblock]
    rfl
  · have hpieces := pieces_joinWith hnil fun l hl => (hlines l hl).2
    have htrim := (List.map_congr_left fun l hl => (hlines l hl).1).trans (List.map_id _)
    simp only [asBlock, hpieces]
    rw [htrim, dropWhile_dropTrailingEmpty, dropTrailingEmpty_dropTrailingEmpty]

end FlatSol.Text
