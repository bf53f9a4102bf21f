import FlatSol.Text.Basic

/-!
# The pieces of a text

The pieces of a text that is joined from them, and of one with a separator inside or at its end.
-/

namespace FlatSol.Text

theorem pieces_of_notMem {sep : Char} {t : Text} (h : sep ∉ t) : pieces sep t = [t] := by
  induction t with
  | nil => rfl
  | cons c cs ih =>
    have hc : c ≠ sep := fun he => h (he ▸ List.mem_cons_self)
    have hcs : sep ∉ cs := fun hm => h (List.mem_cons_of_mem _ hm)
    simp only [pieces, if_neg hc, ih hcs]

/-- The pieces around a separator are those of the texts before and behind it. -/
theorem pieces_append_sep (sep : Char) (t u : Text) :
    pieces sep (t ++ sep :: u) = pieces sep t ++ pieces sep u := by
  induction t with
  | nil => simp [pieces]
  | cons c cs ih =>
    obtain ⟨p, ps, hps⟩ := List.exists_cons_of_ne_nil (pieces_ne_nil sep cs)
    rw [List.cons_append, pieces, pieces, ih, hps]
    split <;> rfl

theorem pieces_append_cons {sep : Char} {t u : Text} (h : sep ∉ t) :
    pieces sep (t ++ sep :: u) = t :: pieces sep u := by
  rw [pieces_append_sep, pieces_of_notMem h, List.singleton_append]

theorem pieces_joinWith {sep : Char} {ps : List Text} (hne : ps ≠ [])
    (h : ∀ p ∈ ps, sep ∉ p) : pieces sep (joinWith [sep] ps) = ps := by
  induction ps with
  | nil => exact absurd rfl hne
  | cons p ps ih =>
    have hp : sep ∉ p := h p List.mem_cons_self
    cases ps with
    | nil => exact pieces_of_notMem hp
    | cons q qs =>
      have hq := ih (List.cons_ne_nil q qs) fun r hr => h r (List.mem_cons_of_mem _ hr)
      simp only [joinWith, List.append_assoc, List.singleton_append]
      rw [pieces_append_cons hp, hq]

theorem of_mem_pieces {sep : Char} {t p : Text} (h : p ∈ pieces sep t) :
    ∀ c ∈ p, c ∈ t ∧ c ≠ sep := by
  induction t generalizing p with
  | nil =>
    obtain rfl : p = [] := by simpa [pieces] using h
    exact fun c hc => absurd hc List.not_mem_nil
  | cons d ds ih =>
    intro c hc
    rw [pieces] at h
    split at h
    · rcases List.mem_cons.1 h with rfl | h
      · exact absurd hc List.not_mem_nil
      · exact (ih h c hc).imp_left (List.mem_cons_of_mem d)
    · next hd =>
      split at h
      · next hnil => exact absurd hnil (pieces_ne_nil sep ds)
      · next q qs hq =>
        rcases List.mem_cons.1 h with rfl | h
        · rcases List.mem_cons.1 hc with rfl | hc
          · exact ⟨List.mem_cons_self, hd⟩
          · have hmem : q ∈ pieces sep ds := by rw [hq]; exact List.mem_cons_self
            exact (ih hmem c hc).imp_left (List.mem_cons_of_mem d)
        · have hmem : p ∈ pieces sep ds := by rw [hq]; exact List.mem_cons_of_mem q h
          exact (ih hmem c hc).imp_left (List.mem_cons_of_mem d)

/-- The pieces behind a separator are those of the text behind it. -/
theorem exists_pieces_append_cons (sep : Char) (u y : Text) :
    ∃ l ls, pieces sep (u ++ sep :: y) = l :: ls ++ pieces sep y := by
  obtain ⟨l, ls, hps⟩ := List.exists_cons_of_ne_nil (pieces_ne_nil sep u)
  exact ⟨l, ls, by rw [pieces_append_sep, hps]⟩

theorem pieces_append_singleton (sep : Char) (t : Text) :
    pieces sep (t ++ [sep]) = pieces sep t ++ [[]] :=
  pieces_append_sep sep t []

theorem eq_nil_of_pieces_eq {sep : Char} {t : Text} (h : pieces sep t = [[]]) : t = [] := by
  rw [← joinWith_pieces sep t, h]
  rfl

theorem getLast?_of_pieces_append {sep : Char} {t : Text} {ps : List Text} (hps : ps ≠ [])
    (h : pieces sep t = ps ++ [[]]) : t.getLast? = some sep := by
  induction t generalizing ps with
  | nil =>
    obtain ⟨p, ps, rfl⟩ := List.exists_cons_of_ne_nil hps
    simp [pieces] at h
  | cons c cs ih =>
    obtain ⟨p, ps, rfl⟩ := List.exists_cons_of_ne_nil hps
    rw [pieces] at h
    split at h
    · next hc =>
      have hcs : pieces sep cs = ps ++ [[]] := (List.cons.inj h).2
      by_cases hnil : ps = []
      · rw [hnil, List.nil_append] at hcs
        rw [eq_nil_of_pieces_eq hcs, hc]
        rfl
      · rw [List.getLast?_cons, ih hnil hcs]
        rfl
    · split at h
      · next hq => exact absurd hq (pieces_ne_nil sep cs)
      · next q qs hq =>
        have hcs : pieces sep cs = (q :: ps) ++ [[]] := by
          rw [hq, (List.cons.inj h).2]
          rfl
        rw [List.getLast?_cons, ih (List.cons_ne_nil q ps) hcs]
        rfl

theorem mem_joinWith {sep : Text} {ts : List Text} {c : Char} (h : c ∈ joinWith sep ts) :
    c ∈ sep ∨ ∃ t ∈ ts, c ∈ t := by
  induction ts with
  | nil => exact absurd h (List.not_mem_nil)
  | cons t ts ih =>
    cases ts with
    | nil => exact .inr ⟨t, List.mem_cons_self .., h⟩
    | cons u us =>
      rw [joinWith, List.mem_append, List.mem_append] at h
      rcases h with (h | h) | h
      · exact .inr ⟨t, List.mem_cons_self .., h⟩
      · exact .inl h
      · rcases ih h with h | ⟨v, hv, h⟩
        · exact .inl h
        · exact .inr ⟨v, List.mem_cons_of_mem _ hv, h⟩

theorem joinWith_prefix {sep : Text} {ps qs : List Text} (h : ps <+: qs) :
    joinWith sep ps <+: joinWith sep qs := by
  obtain ⟨rs, rfl⟩ := h
  induction ps with
  | nil => exact List.nil_prefix
  | cons p ps ih =>
    cases ps with
    | nil =>
      cases rs with
      | nil => exact List.prefix_refl _
      | cons r rs => exact ⟨sep ++ joinWith sep (r :: rs), by simp [joinWith]⟩
    | cons p' ps => exact (List.prefix_append_right_inj (p ++ sep)).2 ih

end FlatSol.Text
