import FlatSol.Proofs.Source.HeaderLine
import FlatSol.Proofs.Source.ImportEdit

/-!
# Pragma statements on one line

Written on one line, a pragma statement is still a pragma statement of the same name, and writing it
on one line once more changes nothing.
-/

namespace FlatSol

open Text

namespace Text

/-! ### Words -/

theorem words_cons_of_blank {c : Char} (hc : isBlank c = true) (t : Text) :
    words (c :: t) = words t := by
  cases t with
  | nil => simp [words, hc]
  | cons d ds => rw [words_cons_cons, if_pos hc]

theorem words_append_of_blank {u : Text} (hu : ∀ c ∈ u, isBlank c = true) (t : Text) :
    words (u ++ t) = words t := by
  induction u with
  | nil => rfl
  | cons c cs ih =>
    obtain ⟨hc, hcs⟩ := List.forall_mem_cons.1 hu
    rw [List.cons_append, words_cons_of_blank hc, ih hcs]

/-- White space and the end of the text end a word. -/
theorem words_append {u t : Text} (hu : ∀ c ∈ u, isBlank c = false) (hne : u ≠ [])
    (ht : ∀ c ∈ t.head?, isBlank c = true) : words (u ++ t) = u :: words t := by
  induction u with
  | nil => exact absurd rfl hne
  | cons c cs ih =>
    obtain ⟨hc, hcs⟩ := List.forall_mem_cons.1 hu
    cases cs with
    | nil =>
      cases t with
      | nil => exact words_singleton hc
      | cons d ds =>
        rw [List.singleton_append, words_cons_cons, if_neg (by simp [hc]), if_pos (ht d rfl)]
    | cons d ds =>
      have hd : isBlank d = false := hcs d (List.mem_cons_self ..)
      have hrest := ih hcs (List.cons_ne_nil d ds)
      rw [List.cons_append] at hrest
      rw [List.cons_append, List.cons_append, words_cons_cons, if_neg (by simp [hc]),
        if_neg (by simp [hd]), hrest]

theorem words_ne_nil {c : Char} (hc : isBlank c = false) {t : Text} (h : c ∈ t) : words t ≠ [] := by
  induction t with
  | nil => exact absurd h List.not_mem_nil
  | cons d ds ih =>
    cases hd : isBlank d with
    | false =>
      obtain ⟨w, ws, hw⟩ := exists_words_cons hd ds
      rw [hw]
      exact List.cons_ne_nil _ _
    | true =>
      rw [words_cons_of_blank hd]
      refine ih ((List.mem_cons.1 h).resolve_left ?_)
      rintro rfl
      rw [hc] at hd
      exact Bool.noConfusion hd

theorem ne_nil_of_mem_words {t w : Text} (h : w ∈ words t) : w ≠ [] := by
  induction t with
  | nil => exact absurd h List.not_mem_nil
  | cons c cs ih =>
    cases hc : isBlank c with
    | true =>
      rw [words_cons_of_blank hc] at h
      exact ih h
    | false =>
      cases cs with
      | nil =>
        rw [words_singleton hc, List.mem_singleton] at h
        rw [h]
        exact List.cons_ne_nil c []
      | cons d ds =>
        rw [words_cons_cons, if_neg (by simp [hc])] at h
        split at h
        · rcases List.mem_cons.1 h with rfl | h
          · exact List.cons_ne_nil c []
          · exact ih h
        · split at h
          · rw [List.mem_singleton.1 h]
            exact List.cons_ne_nil c []
          · next v vs hv =>
            rcases List.mem_cons.1 h with rfl | h
            · exact List.cons_ne_nil c v
            · exact ih (by rw [hv]; exact List.mem_cons_of_mem v h)

/-- Words with a space between two of them are the words of that text. -/
theorem words_joinWith {ws : List Text} (h : ∀ w ∈ ws, w ≠ [] ∧ ∀ c ∈ w, isBlank c = false) :
    words (joinWith [' '] ws) = ws := by
  induction ws with
  | nil => rfl
  | cons w ws ih =>
    obtain ⟨⟨hne, hw⟩, hws⟩ := List.forall_mem_cons.1 h
    cases ws with
    | nil =>
      have hend := words_append (t := []) hw hne (by simp)
      rw [List.append_nil] at hend
      exact hend
    | cons v vs =>
      have htext : joinWith [' '] (w :: v :: vs) = w ++ ' ' :: joinWith [' '] (v :: vs) := by
        simp [joinWith]
      rw [htext, words_append hw hne (by simp [isBlank]), words_cons_of_blank rfl, ih hws]

theorem onOneLine_onOneLine (t : Text) : onOneLine (onOneLine t) = onOneLine t := by
  have hwords : words (joinWith [' '] (words t)) = words t :=
    words_joinWith fun w hw => ⟨ne_nil_of_mem_words hw, fun c hc => isBlank_of_mem_words hw hc⟩
  rw [onOneLine, onOneLine, hwords]

theorem squeeze_joinWith_space {ws : List Text} (h : ∀ w ∈ ws, ∀ c ∈ w, isBlank c = false) :
    squeeze (joinWith [' '] ws) = ws.flatten := by
  induction ws with
  | nil => rfl
  | cons w ws ih =>
    obtain ⟨hw, hws⟩ := List.forall_mem_cons.1 h
    have hplain : squeeze w = w := List.filter_eq_self.2 fun c hc => by simp [hw c hc]
    cases ws with
    | nil => simpa [joinWith] using hplain
    | cons v vs =>
      have hspace : squeeze [' '] = [] := rfl
      rw [joinWith, squeeze_append, squeeze_append, hplain, hspace, ih hws, List.append_nil]
      rfl

theorem flatten_words (t : Text) : (words t).flatten = squeeze t := by
  induction t with
  | nil => rfl
  | cons c cs ih =>
    cases hc : isBlank c with
    | true =>
      rw [words_cons_of_blank hc, ih, squeeze, squeeze, List.filter_cons_of_neg (by simp [hc])]
    | false =>
      have hkeep : squeeze (c :: cs) = c :: squeeze cs :=
        List.filter_cons_of_pos (by simp [hc])
      rw [hkeep, ← ih]
      cases cs with
      | nil => rw [words_singleton hc]; rfl
      | cons d ds =>
        rw [words_cons_cons, if_neg (by simp [hc])]
        split
        · rfl
        · cases words (d :: ds) <;> rfl

/-- On one line, a text loses nothing but white space. -/
theorem squeeze_onOneLine (t : Text) : squeeze (onOneLine t) = squeeze t := by
  rw [onOneLine, squeeze_joinWith_space fun w hw c hc => isBlank_of_mem_words hw hc,
    flatten_words]

/-- A word keeps its place in front of white space, of which one space is left. -/
theorem onOneLine_append_of_blank {u t : Text} (hu : ∀ c ∈ u, isBlank c = false) (hne : u ≠ [])
    (ht : ∀ c ∈ t.head?, isBlank c = true) (hwords : words t ≠ []) :
    onOneLine (u ++ t) = u ++ ' ' :: onOneLine t := by
  obtain ⟨w, ws, hw⟩ := List.exists_cons_of_ne_nil hwords
  rw [onOneLine, onOneLine, words_append hu hne ht, hw]
  simp [joinWith]

/-- What is not white space stays joined to the character behind it. -/
theorem onOneLine_append_cons {u t : Text} {c : Char} (hu : ∀ d ∈ u, isBlank d = false)
    (hc : isBlank c = false) : onOneLine (u ++ c :: t) = u ++ onOneLine (c :: t) := by
  induction u with
  | nil => rfl
  | cons d ds ih =>
    obtain ⟨hd, hds⟩ := List.forall_mem_cons.1 hu
    obtain ⟨e, es, he, heb⟩ : ∃ e es, ds ++ c :: t = e :: es ∧ isBlank e = false := by
      cases ds with
      | nil => exact ⟨c, t, rfl, hc⟩
      | cons e es => exact ⟨e, _, rfl, hds e (List.mem_cons_self ..)⟩
    obtain ⟨w, ws, hw⟩ := exists_words_cons heb es
    rw [List.cons_append, List.cons_append, ← ih hds, he, onOneLine, onOneLine, words_cons_cons,
      if_neg (by simp [hd]), if_neg (by simp [heb]), hw]
    cases ws <;> rfl

end Text

namespace Source

theorem PragmaForm.onOneLine_text (s : PragmaForm) : onOneLine s.text =
    pragmaKeyword ++ ' ' :: onOneLine (s.name ++ (s.rest ++ [';'])) := by
  have hkeyword : ∀ c ∈ pragmaKeyword, isBlank c = false := by simp [pragmaKeyword, isBlank]
  have htext : s.text = pragmaKeyword ++ (s.gap ++ (s.name ++ (s.rest ++ [';']))) := by
    simp [PragmaForm.text]
  have hgap : ∀ c ∈ (s.gap ++ (s.name ++ (s.rest ++ [';']))).head?, isBlank c = true := by
    obtain ⟨c, cs, hc⟩ := List.exists_cons_of_ne_nil s.gap_ne_nil
    have hblank := s.gap_blank c (by rw [hc]; exact List.mem_cons_self ..)
    rw [hc]
    simpa using hblank
  have hwords : words (s.gap ++ (s.name ++ (s.rest ++ [';']))) ≠ [] :=
    words_ne_nil (c := ';') rfl (by simp)
  have hrest : onOneLine (s.gap ++ (s.name ++ (s.rest ++ [';']))) =
      onOneLine (s.name ++ (s.rest ++ [';'])) := by
    rw [onOneLine, words_append_of_blank s.gap_blank, onOneLine]
  rw [htext, onOneLine_append_of_blank hkeyword (by decide) hgap hwords, hrest]

/-- On one line, the name of a pragma is followed by a character that ends it. -/
theorem PragmaForm.exists_onOneLine_name (s : PragmaForm) :
    ∃ u, onOneLine (s.name ++ (s.rest ++ [';'])) = s.name ++ u ++ [';'] ∧
      ∀ c ∈ u.head?, isWord c = false := by
  have hname : ∀ c ∈ s.name, isBlank c = false := fun c hc => isBlank_of_isWord (s.name_word c hc)
  obtain ⟨u, hu⟩ := exists_onOneLine_append (c := ';') rfl s.rest
  cases hr : s.rest with
  | nil =>
    rw [List.nil_append, onOneLine_append_cons hname rfl]
    exact ⟨[], by simp [onOneLine, words_singleton, joinWith, isBlank], by simp⟩
  | cons c cs =>
    cases hc : isBlank c with
    | true =>
      have hwords : words (c :: cs ++ [';']) ≠ [] := words_ne_nil (c := ';') rfl (by simp)
      rw [hr] at hu
      rw [onOneLine_append_of_blank hname s.name_ne_nil (by simpa using hc) hwords, hu]
      exact ⟨' ' :: u, by simp, by simp [isWord]⟩
    | false =>
      obtain ⟨v, hv⟩ := exists_onOneLine_cons hc (cs ++ [';'])
      rw [hr, List.cons_append, hv] at hu
      rw [List.cons_append, onOneLine_append_cons hname hc, hv, hu]
      refine ⟨u, by simp, fun d hd => ?_⟩
      -- what follows the name is the first character of the rest
      cases u with
      | nil => simp at hd
      | cons e es =>
        obtain rfl : c = e := (List.cons.inj hu).1
        obtain rfl : c = d := by simpa using hd
        exact s.bounded c (by rw [hr]; rfl)

/-- A pragma statement on one line is a pragma statement, and gives the same pragma. -/
theorem PragmaForm.exists_onOneLine (s : PragmaForm) :
    ∃ s' : PragmaForm, s'.text = s.pragma.statement ∧ s'.pragma = s.pragma := by
  obtain ⟨u, hu, hbounded⟩ := s.exists_onOneLine_name
  have hplain : ';' ∉ u := by
    have hsqueeze := squeeze_onOneLine (s.name ++ (s.rest ++ [';']))
    simp only [hu, squeeze_append, List.append_assoc, List.append_cancel_left_eq,
      List.append_cancel_right_eq] at hsqueeze
    have hmem : ∀ t : Text, ';' ∈ squeeze t ↔ ';' ∈ t := fun t => by simp [squeeze, isBlank]
    rw [← hmem, hsqueeze, hmem]
    exact s.rest_plain
  let s' : PragmaForm :=
    ⟨[' '], s.name, u, List.cons_ne_nil ' ' [], by simp [isBlank], s.name_ne_nil, s.name_word,
      hplain, hbounded⟩
  have htext : s'.text = s.pragma.statement := by
    rw [PragmaForm.pragma, s.onOneLine_text, hu]
    simp [s', PragmaForm.text]
  refine ⟨s', htext, ?_⟩
  rw [PragmaForm.pragma, htext, PragmaForm.pragma, onOneLine_onOneLine]

end Source

end FlatSol
