import FlatSol.Proofs.Source.ImportScan

/-!
# Import statements of an edited text

Joining texts by line feeds, taking away white space at the ends of lines, and cutting whole
statements leave the other import statements as they are.
-/

namespace FlatSol

open Text

namespace Source

/-! ### Joined texts -/

theorem startsImport_lineFeed (t : Text) : startsImport ('\n' :: t) = false :=
  startsImport_cons_of_ne (by decide) t

theorem Reads.append_lineFeed {f : Bool} {a b : Text} {ps qs : List Text} (ha : Reads f a ps)
    (hb : Reads true b qs) : Reads f (a ++ '\n' :: b) (ps ++ qs) := by
  induction ha with
  | nil f => exact .skip (by rw [startsImport_lineFeed, Bool.and_false]) hb
  | @skip f c t ps hc _ ih =>
    exact .skip ((congrArg _ (startsImport_append_lineFeed (c :: t) b)).trans hc) ih
  | hit s _ ih =>
    rw [List.append_assoc]
    exact .hit s ih

theorem Reads.of_lineFeed {f : Bool} {t : Text} {ps : List Text} (h : Reads f ('\n' :: t) ps) :
    Reads true t ps := by
  generalize hx : '\n' :: t = x at h
  cases h with
  | nil => cases hx
  | skip _ h =>
    obtain ⟨rfl, rfl⟩ := List.cons.inj hx
    exact h
  | hit s _ =>
    obtain ⟨u, hu, -⟩ := s.exists_text
    rw [hu] at hx
    exact absurd (List.cons.inj hx).1 (by decide)

theorem Reads.of_append_lineFeed {f : Bool} {t : Text} {ps : List Text}
    (h : Reads f (t ++ ['\n']) ps) : Reads f t ps := by
  generalize hx : t ++ ['\n'] = x at h
  induction h generalizing t with
  | nil => simp at hx
  | @skip f c u ps hc h ih =>
    cases t with
    | nil =>
      obtain ⟨rfl, rfl⟩ := List.cons.inj hx
      cases h
      exact .nil _
    | cons d ds =>
      rw [List.cons_append, List.cons.injEq] at hx
      obtain ⟨rfl, rfl⟩ := hx
      exact .skip ((congrArg _ (startsImport_append_lineFeed (d :: ds) [])).symm.trans hc) (ih rfl)
  | @hit u ps s h ih =>
    obtain ⟨-, -, v, hv⟩ := s.exists_text
    rcases List.eq_nil_or_concat u with rfl | ⟨w, c, rfl⟩
    · rw [List.append_nil, hv] at hx
      exact absurd (List.append_inj' hx rfl).2 (by decide)
    · rw [List.concat_eq_append, ← List.append_assoc] at hx
      obtain ⟨rfl, hc⟩ := List.append_inj' hx rfl
      exact .hit s (ih (by rw [List.concat_eq_append, hc]))

/-- Without the first letter of the keyword there is no import statement. -/
theorem reads_nil_of_ne {f : Bool} {t : Text} (h : ∀ c ∈ t, c ≠ 'i') : Reads f t [] := by
  induction t generalizing f with
  | nil => exact .nil f
  | cons c cs ih =>
    obtain ⟨hc, hcs⟩ := List.forall_mem_cons.1 h
    exact .skip (by rw [startsImport_cons_of_ne hc, Bool.and_false]) (ih hcs)

theorem reads_nil_of_line {t : Text} (h : '\n' ∉ t) : Reads false t [] := by
  induction t with
  | nil => exact .nil false
  | cons c cs ih =>
    rw [List.mem_cons, not_or] at h
    have hfresh : fresh false c = false := by simpa [fresh] using Ne.symm h.1
    refine .skip rfl ?_
    rw [hfresh]
    exact ih h.2

/-! ### White space at the ends of lines -/

theorem Padded.exists_cons {x b : Text} {c : Char} (h : Padded x (c :: b))
    (hc : isBlank c = false) : ∃ b', x = c :: b' ∧ Padded b' b := by
  cases h with
  | cons _ h => exact ⟨_, rfl, h⟩
  | pad hb _ _ _ =>
    rw [hc] at hb
    exact Bool.noConfusion hb

/-- In front of a character that is not blank, a line keeps its white space. -/
theorem Padded.exists_append {x a b : Text} {c : Char} (h : Padded x (a ++ c :: b))
    (ha : '\n' ∉ a) (hc : isBlank c = false) : ∃ b', x = a ++ c :: b' ∧ Padded b' b := by
  induction a generalizing x with
  | nil => exact Padded.exists_cons h hc
  | cons d ds ih =>
    rw [List.mem_cons, not_or] at ha
    cases h with
    | cons _ h =>
      obtain ⟨b', rfl, hb'⟩ := ih h ha.2
      exact ⟨b', rfl, hb'⟩
    | pad _ _ hx h =>
      obtain ⟨b', rfl, -⟩ := ih h ha.2
      have hne : c ≠ '\n' := (ne_of_isBlank rfl hc).symm
      cases ds with
      | nil => simp [hne] at hx
      | cons e es =>
        rw [List.mem_cons, not_or] at ha
        simp [Ne.symm ha.2.1] at hx

/-- In front of a character that is not blank, only white space is lost, and what follows it comes
to the front only if that is a line feed. -/
theorem Padded.exists_sublist {x a b : Text} {c : Char} (h : Padded x (a ++ c :: b))
    (hc : isBlank c = false) : ∃ a' b', x = a' ++ c :: b' ∧ Padded b' b ∧ a'.Sublist a ∧
      (a'.head? = a.head? ∨ a'.head? = some '\n') := by
  induction a generalizing x with
  | nil =>
    obtain ⟨b', rfl, hb'⟩ := Padded.exists_cons h hc
    exact ⟨[], b', rfl, hb', .slnil, .inl rfl⟩
  | cons d ds ih =>
    cases h with
    | cons _ h =>
      obtain ⟨a', b', rfl, hb', ha', -⟩ := ih h
      exact ⟨d :: a', b', rfl, hb', ha'.cons_cons d, .inl rfl⟩
    | pad _ _ hx h =>
      obtain ⟨a', b', rfl, hb', ha', -⟩ := ih h
      refine ⟨a', b', rfl, hb', ha'.cons d, .inr ?_⟩
      have hne : c ≠ '\n' := (ne_of_isBlank rfl hc).symm
      cases a' with
      | nil => simp [hne] at hx
      | cons e es => simpa using hx

theorem Padded.head?_any_isWord {x y : Text} (h : Padded x y)
    (hx : x.head?.any isWord = false) : y.head?.any isWord = false := by
  cases h with
  | nil => rfl
  | cons c _ => exact hx
  | pad hc _ _ _ => simpa using isWord_of_isBlank hc

theorem Padded.exists_of_append {u r y : Text} (h : Padded (u ++ r) y)
    (hu : ∀ c ∈ u, isBlank c = false) : ∃ r', y = u ++ r' ∧ Padded r r' := by
  induction u generalizing y with
  | nil => exact ⟨y, rfl, h⟩
  | cons c cs ih =>
    obtain ⟨hc, hcs⟩ := List.forall_mem_cons.1 hu
    cases h with
    | cons _ h =>
      obtain ⟨r', rfl, hr'⟩ := ih h hcs
      exact ⟨r', rfl, hr'⟩
    | pad _ _ hx _ =>
      have hne : c ≠ '\n' := (ne_of_isBlank rfl hc).symm
      simp [hne] at hx

theorem Padded.startsImport {x y : Text} (h : Padded x y) (hx : startsImport x = true) :
    startsImport y = true := by
  obtain ⟨r, rfl, hr⟩ := startsImport_eq_true_iff.1 hx
  have hkeyword : ∀ c ∈ importKeyword, isBlank c = false := by simp [importKeyword, isBlank]
  obtain ⟨r', rfl, hr'⟩ := Padded.exists_of_append h hkeyword
  exact startsImport_eq_true_iff.2 ⟨r', rfl, Padded.head?_any_isWord hr' hr⟩

/-- A statement whose path stands on one line is still one when white space at the ends of its lines
is taken away. -/
theorem Padded.exists_statement {x t : Text} {s : Statement} (h : Padded x (s.text ++ t))
    (hs : '\n' ∉ s.path) : ∃ (s' : Statement) (t' : Text), x = s'.text ++ t' ∧ s'.path = s.path ∧
      Padded t' t := by
  have hopening := isBlank_of_isQuote s.opening_isQuote
  have hclosing := isBlank_of_isQuote s.closing_isQuote
  have htext : s.text ++ t = ['i', 'm', 'p', 'o', 'r'] ++ 't' :: (s.clause ++ s.opening ::
      (s.path ++ s.closing :: (s.rest ++ ';' :: t))) := by
    simp [Statement.text, Statement.inside, importKeyword]
  rw [htext] at h
  obtain ⟨x₁, rfl, h₁⟩ := Padded.exists_append h (by decide) rfl
  obtain ⟨clause, x₂, rfl, h₂, hclause, hhead⟩ := Padded.exists_sublist h₁ hopening
  obtain ⟨x₃, rfl, h₃⟩ := Padded.exists_append h₂ hs hclosing
  obtain ⟨rest, t', rfl, h₄, hrest, -⟩ := Padded.exists_sublist h₃ rfl
  have hbounded : (clause ++ [s.opening]).head?.any isWord = false := by
    have hquote : isWord s.opening = false := by
      rcases isQuote_iff.1 s.opening_isQuote with hq | hq <;> rw [hq] <;> decide
    cases clause with
    | nil => simpa using hquote
    | cons c cs =>
      rcases hhead with hhead | hhead
      · have hb := s.bounded
        cases hsc : s.clause with
        | nil => simp [hsc] at hhead
        | cons d ds =>
          rw [hsc] at hhead hb
          obtain rfl : c = d := by simpa using hhead
          simpa using hb
      · obtain rfl : c = '\n' := by simpa using hhead
        rfl
  refine ⟨⟨clause, s.opening, s.path, s.closing, rest, fun c hc => s.clause_plain c (hclause.mem hc),
    s.opening_isQuote, s.path_ne_nil, s.path_plain, s.closing_isQuote,
    fun c hc => s.rest_plain c (hrest.mem hc), hbounded⟩, t', ?_, rfl, h₄⟩
  simp [Statement.text, Statement.inside, importKeyword]

/-- What starts with a line feed, or is empty, is read the same on every line. -/
theorem Reads.of_head? {f g : Bool} {t : Text} {ps : List Text} (h : Reads f t ps)
    (ht : t.head? = none ∨ t.head? = some '\n') : Reads g t ps := by
  cases h with
  | nil => exact .nil g
  | @skip _ c t _ hc h =>
    obtain rfl : c = '\n' := by simpa using ht
    exact .skip (by rw [startsImport_lineFeed, Bool.and_false]) h
  | hit s h =>
    obtain ⟨u, hu, -⟩ := s.exists_text
    rw [hu] at ht
    simp at ht

/-- Statements with their paths on one line are still there when white space at the ends of lines is
taken away. -/
theorem Reads.of_padded {f : Bool} {x y : Text} {ps : List Text} (h : Reads f y ps)
    (hps : ∀ p ∈ ps, '\n' ∉ p) (hx : Padded x y) : Reads f x ps := by
  induction h generalizing x with
  | nil f =>
    cases hx
    exact .nil f
  | @skip f c t ps hc _ ih =>
    have hstart : (f && startsImport x) = false := by
      cases hf : f && startsImport x with
      | false => rfl
      | true =>
        obtain ⟨rfl, hk⟩ := Bool.and_eq_true_iff.1 hf
        rw [Padded.startsImport hx hk] at hc
        exact hc
    cases hx with
    | cons _ hx => exact .skip hstart (ih hps hx)
    | pad _ _ hhead hx => exact (ih hps hx).of_head? hhead
  | @hit t ps s _ ih =>
    obtain ⟨hs, hrest⟩ := List.forall_mem_cons.1 hps
    obtain ⟨s', t', rfl, hpath, ht'⟩ := Padded.exists_statement hx hs
    rw [← hpath]
    exact .hit s' (ih hrest ht')

end Source

end FlatSol
