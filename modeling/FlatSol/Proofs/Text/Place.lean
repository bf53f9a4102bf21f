import FlatSol.Proofs.Text.Lines

/-!
# Places where something begins

Whether something begins at a place of a text is told by what stands before the place on its line and
by the text behind it. A text that lacks such places still lacks them when white space at the ends of
its lines is taken away, and texts that lack them can be joined by line feeds.
-/

namespace FlatSol.Text

/-- What stands on the last line of a text. -/
def lastLine (t : Text) : Text :=
  t.rtakeWhile (· ≠ '\n')

theorem lastLine_append_lineFeed (a b : Text) : lastLine (a ++ '\n' :: b) = lastLine b := by
  induction b using List.reverseRecOn with
  | nil => exact List.rtakeWhile_concat_neg _ a '\n' (by decide)
  | append_singleton b c ih =>
    have happend : a ++ '\n' :: (b ++ [c]) = a ++ '\n' :: b ++ [c] := by simp
    unfold lastLine at ih ⊢
    rw [happend, List.rtakeWhile_concat, List.rtakeWhile_concat, ih]

theorem lastLine_of_notMem {t : Text} (h : '\n' ∉ t) : lastLine t = t := by
  refine List.rtakeWhile_eq_self_iff.2 fun c hc => ?_
  rw [decide_eq_true_eq]
  rintro rfl
  exact h hc

/-- A text is its last line, or that stands behind a line feed. -/
theorem eq_lastLine_or_exists (t : Text) : t = lastLine t ∨ ∃ u, t = u ++ '\n' :: lastLine t := by
  by_cases h : '\n' ∈ t
  · refine .inr ?_
    induction t using List.reverseRecOn with
    | nil => exact absurd h List.not_mem_nil
    | append_singleton t c ih =>
      by_cases hc : c = '\n'
      · subst hc
        exact ⟨t, by rw [lastLine_append_lineFeed]; rfl⟩
      · have hmem : '\n' ∈ t := by simpa [Ne.symm hc] using h
        obtain ⟨u, hu⟩ := ih hmem
        have hline : lastLine (t ++ [c]) = lastLine t ++ [c] :=
          List.rtakeWhile_concat_pos _ t c (by simpa using hc)
        refine ⟨u, ?_⟩
        rw [hline]
        nth_rewrite 1 [hu]
        simp
  · exact .inl (lastLine_of_notMem h).symm

theorem getLast?_lastLine (t : Text) : t.getLast? = (lastLine t).getLast? ∨
    (lastLine t = [] ∧ t.getLast? = some '\n') := by
  rcases eq_lastLine_or_exists t with h | ⟨u, h⟩
  · exact .inl (congrArg _ h)
  · cases hl : lastLine t with
    | nil =>
      rw [hl] at h
      exact .inr ⟨rfl, by rw [h]; simp⟩
    | cons c cs =>
      rw [hl] at h
      exact .inl (by rw [h]; simp [List.getLast?_cons])

/-- What stands before the start of a line is empty or ends in a line feed. -/
theorem eq_nil_or_exists_of_startsLine {a : Text} (h : startsLine a.getLast? = true) :
    a = [] ∨ ∃ z, a = z ++ ['\n'] := by
  rcases List.eq_nil_or_concat a with rfl | ⟨z, c, rfl⟩
  · exact .inl rfl
  · obtain rfl : c = '\n' := by simpa [startsLine] using h
    exact .inr ⟨z, List.concat_eq_append⟩

theorem lastLine_append_of_startsLine {a : Text} (h : startsLine a.getLast? = true) (b : Text) :
    lastLine (a ++ b) = lastLine b := by
  rcases eq_nil_or_exists_of_startsLine h with rfl | ⟨z, rfl⟩
  · rfl
  · rw [List.append_assoc]
    exact lastLine_append_lineFeed z b

/-- A front that does not hold a character stands before every place of that character. -/
theorem exists_of_append_eq_append_cons {k r a b : Text} {c : Char} (h : k ++ r = a ++ c :: b)
    (hk : c ∉ k) : ∃ z, a = k ++ z ∧ r = z ++ c :: b := by
  rcases List.append_eq_append_iff.1 h with ⟨z, rfl, hr⟩ | ⟨z, rfl, hb⟩
  · exact ⟨z, rfl, hr⟩
  · cases z with
    | nil => exact ⟨[], by simp, hb.symm⟩
    | cons d ds =>
      obtain ⟨rfl, -⟩ := List.cons.inj hb
      simp at hk

instance {q : Text → Text → Prop} [∀ a b, Decidable (q a b)] (t : Text) :
    Decidable (∀ a b, t = a ++ b → q a b) :=
  decidable_of_iff (∀ n < t.length + 1, q (t.take n) (t.drop n))
    ⟨fun h a b hab => by
      have hn := h a.length (by rw [hab, List.length_append]; omega)
      rwa [hab, List.take_left, List.drop_left] at hn,
    fun h n _ => h _ _ (List.take_append_drop n t).symm⟩

/-! ### White space at the ends of lines -/

theorem padded_trimLines (t : Text) : Padded (trimLines t) t := by
  induction t with
  | nil => exact .nil
  | cons c cs ih =>
    rw [trimLines]
    split
    · next h => exact .pad h.2.1 h.1 (head?_trimLines h.2.2) ih
    · exact .cons c ih

/-- A line keeps its characters up to one that is not blank. -/
theorem Padded.exists_of_line {a b y : Text} {c : Char} (h : Padded (a ++ c :: b) y)
    (ha : '\n' ∉ a) (hc : isBlank c = false) : ∃ b', y = a ++ c :: b' ∧ Padded b b' := by
  have hne : c ≠ '\n' := (ne_of_isBlank rfl hc).symm
  induction a generalizing y with
  | nil =>
    cases h with
    | cons _ h => exact ⟨_, rfl, h⟩
    | pad _ _ hx _ => simp [hne] at hx
  | cons d ds ih =>
    rw [List.mem_cons, not_or] at ha
    cases h with
    | cons _ h =>
      obtain ⟨b', rfl, hb'⟩ := ih h ha.2
      exact ⟨b', rfl, hb'⟩
    | pad _ _ hx _ => simp [Ne.symm ha.1] at hx

/-- In front of a character that is not blank, the line is the one it was. -/
theorem Padded.exists_place {x y a b : Text} {c : Char} (h : Padded x y) (hx : x = a ++ c :: b)
    (hc : isBlank c = false) :
    ∃ a' b', y = a' ++ b' ∧ (∀ w, lastLine (w ++ a') = lastLine (w ++ a)) ∧ Padded (c :: b) b' := by
  induction h generalizing a with
  | nil => simp at hx
  | @cons d x y h ih =>
    cases a with
    | nil =>
      obtain ⟨rfl, rfl⟩ := List.cons.inj hx
      exact ⟨[], _, rfl, fun w => rfl, .cons d h⟩
    | cons e es =>
      obtain ⟨rfl, rfl⟩ := List.cons.inj hx
      obtain ⟨a', b', rfl, hline, hb'⟩ := ih rfl
      exact ⟨d :: a', b', rfl, fun w => by simpa using hline (w ++ [d]), hb'⟩
  | @pad d x y _ _ hhead h ih =>
    subst hx
    obtain ⟨a', b', rfl, hline, hb'⟩ := ih rfl
    refine ⟨d :: a', b', rfl, fun w => ?_, hb'⟩
    cases a with
    | nil =>
      have hne : c ≠ '\n' := (ne_of_isBlank rfl hc).symm
      simp [hne] at hhead
    | cons e es =>
      obtain rfl : e = '\n' := by simpa using hhead
      have hpad := hline (w ++ [d])
      rw [List.append_assoc, lastLine_append_lineFeed] at hpad
      rw [lastLine_append_lineFeed]
      exact hpad

/-- White space at the ends of lines only widens a gap, and comes to no other character. -/
theorem Padded.exists_gap {x y gap v : Text} (h : Padded x y) (hx : x = gap ++ v)
    (hgap : ∀ c ∈ gap, isBlank c = true) :
    ∃ gap' v', y = gap' ++ v' ∧ (∀ c ∈ gap', isBlank c = true) ∧ (gap ≠ [] → gap' ≠ []) ∧
      v'.head? = v.head? := by
  induction h generalizing gap with
  | nil =>
    obtain ⟨rfl, rfl⟩ := List.append_eq_nil_iff.1 hx.symm
    exact ⟨[], [], rfl, by simp, id, rfl⟩
  | @cons c x y _ ih =>
    cases gap with
    | nil =>
      obtain rfl : c :: x = v := hx
      exact ⟨[], c :: y, rfl, by simp, id, rfl⟩
    | cons d ds =>
      obtain ⟨rfl, rfl⟩ := List.cons.inj hx
      obtain ⟨hc, hds⟩ := List.forall_mem_cons.1 hgap
      obtain ⟨gap', v', rfl, hgap', -, hhead⟩ := ih rfl hds
      exact ⟨c :: gap', v', rfl, List.forall_mem_cons.2 ⟨hc, hgap'⟩,
        fun _ => List.cons_ne_nil c gap', hhead⟩
  | @pad c x y hc _ _ _ ih =>
    obtain ⟨gap', v', rfl, hgap', -, hhead⟩ := ih hx hgap
    exact ⟨c :: gap', v', rfl, List.forall_mem_cons.2 ⟨hc, hgap'⟩,
      fun _ => List.cons_ne_nil c gap', hhead⟩

/-! ### Texts without such places -/

/-- Whether nothing begins in the text, where `β` tells of what stands before a place on its line and
of the text behind it whether something begins there. -/
def Lacks (β : Text → Text → Bool) (t : Text) : Prop :=
  ∀ a b, t = a ++ b → β (lastLine a) b = false

/-- What begins at a place begins with a character of its own, whatever follows on the next line or
stands at the ends of lines. -/
structure Beginning (β : Text → Text → Bool) : Prop where
  head : ∀ {l t}, β l t = true → ∃ c u, t = c :: u ∧ isBlank c = false
  of_append_lineFeed : ∀ {l t u}, β l (t ++ '\n' :: u) = true → β l t = true
  append_lineFeed : ∀ {l t}, β l t = true → β l (t ++ ['\n']) = true
  of_padded : ∀ {l t u}, Padded t u → β l t = true → β l u = true

variable {β : Text → Text → Bool}

theorem Lacks.append_lineFeed {a b : Text} (hβ : Beginning β) (ha : Lacks β a) (hb : Lacks β b) :
    Lacks β (a ++ '\n' :: b) := by
  intro x y hxy
  rcases List.append_eq_append_iff.1 hxy with ⟨z, rfl, hz⟩ | ⟨z, rfl, rfl⟩
  · -- the place stands on one of the line feed's sides
    cases z with
    | nil =>
      rw [Bool.eq_false_iff]
      intro h
      obtain ⟨c, u, rfl, hc⟩ := hβ.head h
      obtain rfl : '\n' = c := (List.cons.inj hz).1
      exact absurd hc (by decide)
    | cons c cs =>
      obtain ⟨rfl, rfl⟩ := List.cons.inj hz
      rw [lastLine_append_lineFeed]
      exact hb cs y rfl
  · rw [Bool.eq_false_iff]
    intro h
    exact absurd (hβ.of_append_lineFeed h) (Bool.eq_false_iff.1 (ha x z rfl))

theorem lacks_of_blank {t : Text} (hβ : Beginning β) (h : ∀ c ∈ t, isBlank c = true) :
    Lacks β t := by
  rintro a b rfl
  rw [Bool.eq_false_iff]
  intro hb
  obtain ⟨c, u, rfl, hc⟩ := hβ.head hb
  rw [h c (by simp)] at hc
  exact Bool.noConfusion hc

theorem Lacks.of_append_lineFeed {t : Text} (hβ : Beginning β) (h : Lacks β (t ++ ['\n'])) :
    Lacks β t := by
  rintro a b rfl
  rw [Bool.eq_false_iff]
  intro hb
  exact absurd (hβ.append_lineFeed hb) (Bool.eq_false_iff.1 (h a (b ++ ['\n']) (by simp)))

theorem Lacks.of_lineFeed {t : Text} (h : Lacks β ('\n' :: t)) : Lacks β t := by
  rintro a b rfl
  have hplace := h ('\n' :: a) b rfl
  rwa [← List.nil_append ('\n' :: a), lastLine_append_lineFeed] at hplace

theorem Lacks.of_lineFeeds {t : Text} {i j : Nat} (hβ : Beginning β)
    (h : Lacks β (List.replicate i '\n' ++ t ++ List.replicate j '\n')) : Lacks β t := by
  induction i with
  | zero =>
    induction j with
    | zero => simpa using h
    | succ j ih =>
      rw [List.replicate_succ', ← List.append_assoc] at h
      exact ih (h.of_append_lineFeed hβ)
  | succ i ih => exact ih h.of_lineFeed

theorem Lacks.of_padded {x y : Text} (hβ : Beginning β) (h : Lacks β y) (hxy : Padded x y) :
    Lacks β x := by
  rintro a b rfl
  rw [Bool.eq_false_iff]
  intro hb
  obtain ⟨c, u, rfl, hc⟩ := hβ.head hb
  obtain ⟨a', b', rfl, hline, hb'⟩ := hxy.exists_place rfl hc
  have hsame : lastLine a' = lastLine a := hline []
  have hplace := h a' b' rfl
  rw [hsame, hβ.of_padded hb' hb] at hplace
  exact Bool.noConfusion hplace

/-- A text lacks what the block of its lines lacks. -/
theorem Lacks.asBlock {t : Text} (hβ : Beginning β) (h : Lacks β t) : Lacks β (asBlock t) := by
  obtain ⟨i, j, ht⟩ := exists_asBlock t
  have hlines := h.of_padded hβ (padded_trimLines t)
  rw [ht] at hlines
  exact hlines.of_lineFeeds hβ

theorem Lacks.lineFeeds {t : Text} (hβ : Beginning β) (h : Lacks β t) (i j : Nat) :
    Lacks β (List.replicate i '\n' ++ t ++ List.replicate j '\n') := by
  have hnil : Lacks β [] := lacks_of_blank hβ (by simp)
  induction i with
  | zero =>
    induction j with
    | zero => simpa using h
    | succ j ih =>
      rw [List.replicate_succ', ← List.append_assoc]
      exact ih.append_lineFeed hβ hnil
  | succ i ih =>
    have hfeed := hnil.append_lineFeed hβ ih
    exact hfeed

theorem lacks_joinWith {ts : List Text} (hβ : Beginning β) (h : ∀ t ∈ ts, Lacks β t) :
    Lacks β (joinWith ['\n', '\n'] ts) := by
  have hnil : Lacks β [] := lacks_of_blank hβ (by simp)
  induction ts with
  | nil => exact hnil
  | cons t ts ih =>
    obtain ⟨ht, hts⟩ := List.forall_mem_cons.1 h
    cases ts with
    | nil => exact ht
    | cons u us =>
      have htext : joinWith ['\n', '\n'] (t :: u :: us) =
          t ++ '\n' :: ([] ++ '\n' :: joinWith ['\n', '\n'] (u :: us)) := by
        simp [joinWith]
      rw [htext]
      exact ht.append_lineFeed hβ (hnil.append_lineFeed hβ (ih hts))

end FlatSol.Text
