import FlatSol.Proofs.Text.Search
import FlatSol.Source.Split

/-!
# The form of statements

What the patterns for import statements, pragma statements and licence lines take.
-/

namespace FlatSol

open Text

theorem exists_takeWhile_append {α : Type} {p : α → Bool} {t : List α} :
    ∃ a b, t = a ++ b ∧ (∀ c ∈ a, p c = true) ∧ t.takeWhile p = a ∧ t.dropWhile p = b ∧
      ∀ c ∈ b.head?, p c = false := by
  refine ⟨t.takeWhile p, t.dropWhile p, List.takeWhile_append_dropWhile.symm,
    fun c hc => List.all_eq_true.1 List.all_takeWhile c hc, rfl, rfl, fun c hc => ?_⟩
  have h := List.head?_dropWhile_not p t
  rw [Option.mem_def.1 hc] at h
  simpa using h

/-- The first characters that do not satisfy `p` are the same. -/
theorem head_inj_of_append {α : Type} {p : α → Bool} {a b x y : List α} {c d : α}
    (h : a ++ c :: b = x ++ d :: y) (ha : ∀ e ∈ a, p e = true) (hx : ∀ e ∈ x, p e = true)
    (hc : p c = false) (hd : p d = false) : c = d := by
  have hdrop := congrArg (List.dropWhile p) h
  rw [List.dropWhile_append_of_pos ha, List.dropWhile_append_of_pos hx,
    List.dropWhile_cons_of_neg (by simp [hc]), List.dropWhile_cons_of_neg (by simp [hd])] at hdrop
  exact (List.cons.inj hdrop).1

theorem isBlank_of_isQuote {c : Char} (h : isQuote c = true) : isBlank c = false := by
  rcases isQuote_iff.1 h with rfl | rfl <;> rfl

theorem isWord_of_isBlank {c : Char} (h : isBlank c = true) : isWord c = false := by
  have hn : c.toNat ∈ [9, 10, 11, 12, 13, 0x20, 0x85, 0xa0, 0x1680, 0x2000, 0x2001, 0x2002, 0x2003,
      0x2004, 0x2005, 0x2006, 0x2007, 0x2008, 0x2009, 0x200a, 0x2028, 0x2029, 0x202f, 0x205f,
      0x3000] := by
    simp only [isBlank, Bool.or_eq_true, Bool.and_eq_true, decide_eq_true_eq, beq_iff_eq] at h
    simp only [List.mem_cons, List.not_mem_nil, or_false]
    omega
  have hall : ∀ n ∈ [9, 10, 11, 12, 13, 0x20, 0x85, 0xa0, 0x1680, 0x2000, 0x2001, 0x2002, 0x2003,
      0x2004, 0x2005, 0x2006, 0x2007, 0x2008, 0x2009, 0x200a, 0x2028, 0x2029, 0x202f, 0x205f,
      0x3000], isWord (Char.ofNat n) = false := by decide +kernel
  have hc := hall _ hn
  rwa [Char.ofNat_toNat] at hc

theorem isBlank_of_isWord {c : Char} (h : isWord c = true) : isBlank c = false := by
  cases hc : isBlank c with
  | false => rfl
  | true =>
    rw [isWord_of_isBlank hc] at h
    exact Bool.noConfusion h

namespace Source

/-- An import statement from its keyword to its semicolon. -/
structure Statement where
  /-- What stands between the keyword and the path. -/
  clause : Text
  opening : Char
  path : Text
  closing : Char
  rest : Text
  clause_plain : ∀ c ∈ clause, isQuote c = false ∧ c ≠ ';'
  opening_isQuote : isQuote opening = true
  path_ne_nil : path ≠ []
  path_plain : ∀ c ∈ path, isQuote c = false
  closing_isQuote : isQuote closing = true
  rest_plain : ∀ c ∈ rest, c ≠ ';'
  bounded : (clause ++ [opening]).head?.any isWord = false

namespace Statement

/-- What stands behind the keyword, without the semicolon. -/
def inside (s : Statement) : Text :=
  s.clause ++ s.opening :: s.path ++ s.closing :: s.rest

def text (s : Statement) : Text :=
  importKeyword ++ s.inside ++ [';']

/-- The keyword ends where it does also in front of the whole statement. -/
theorem bounded_inside (s : Statement) (behind : Text) :
    (s.inside ++ ';' :: behind).head?.any isWord = false := by
  have h := s.bounded
  unfold inside
  cases hc : s.clause with
  | nil => simpa [hc] using h
  | cons c cs => simpa [hc] using h

end Statement

theorem exists_of_importStatement {before : Option Char} {t : Text} {m : Match Text}
    (h : importStatement before t = some m) :
    startsLine before = true ∧ ∃ margin, ∃ s : Statement, ∃ behind,
      (∀ c ∈ margin, isMargin c = true) ∧ t = margin ++ s.text ++ behind ∧
        m = ⟨(margin ++ s.text).length, s.path⟩ := by
  simp only [importStatement, Option.bind_eq_bind, Option.bind_none] at h
  split at h
  · simp at h
  next hline =>
  obtain ⟨margin, t', rfl, hmargin, -, hdrop, -⟩ := exists_takeWhile_append (p := isMargin) (t := t)
  obtain ⟨u, hu, h⟩ := Option.bind_eq_some_iff.1 h
  rw [hdrop, isPrefixOf?_eq_some_iff] at hu
  subst hu
  split at h
  · simp at h
  next hword =>
  obtain ⟨clause, v, rfl, hclause, -, hdrop', -⟩ :=
    exists_takeWhile_append (p := fun c => !(isQuote c || c == ';')) (t := u)
  rw [hdrop'] at h
  cases v with
  | nil => simp at h
  | cons opening inside =>
    simp only at h
    split at h
    · simp at h
    next hopening =>
    obtain ⟨path, w, rfl, hpath, htake, -, hclosing⟩ :=
      exists_takeWhile_append (p := fun c => !isQuote c) (t := inside)
    rw [htake] at h
    split at h
    · simp at h
    next hne =>
    rw [List.drop_left] at h
    cases w with
    | nil => simp at h
    | cons closing outside =>
      obtain ⟨rest, z, rfl, hrest, -, hdrop'', -⟩ :=
        exists_takeWhile_append (p := fun c => decide (c ≠ ';')) (t := outside)
      obtain ⟨behind, hbehind, h⟩ := Option.bind_eq_some_iff.1 h
      rw [hdrop'', isPrefixOf?_eq_some_iff] at hbehind
      subst hbehind
      refine ⟨by simpa using hline, margin, ?_⟩
      refine ⟨⟨clause, opening, path, closing, rest, ?_, ?_, ?_, ?_, ?_, ?_, ?_⟩, behind, hmargin,
        ?_, ?_⟩
      · exact fun c hc => by simpa using hclause c hc
      · simpa using hopening
      · simpa using hne
      · exact fun c hc => by simpa using hpath c hc
      · simpa using hclosing closing
      · exact fun c hc => by simpa using hrest c hc
      · rw [Bool.eq_false_iff]
        intro hw
        refine hword ?_
        cases clause with
        | nil => simpa using hw
        | cons c cs => simpa using hw
      · simp [Statement.text, Statement.inside]
      · refine (Option.some.inj h).symm.trans ?_
        congr 1
        simp only [Statement.text, Statement.inside, List.length_append, List.length_cons]
        omega

theorem importStatement_append {before : Option Char} (hb : startsLine before = true)
    {margin : Text} (hmargin : ∀ c ∈ margin, isMargin c = true) (s : Statement) (behind : Text) :
    importStatement before (margin ++ s.text ++ behind) =
      some ⟨(margin ++ s.text).length, s.path⟩ := by
  have hstart : (margin ++ s.text ++ behind).dropWhile isMargin =
      importKeyword ++ (s.inside ++ ';' :: behind) := by
    rw [List.append_assoc, List.dropWhile_append_of_pos hmargin, Statement.text]
    simp only [List.append_assoc]
    rfl
  have hkeyword : importKeyword.isPrefixOf? (importKeyword ++ (s.inside ++ ';' :: behind)) =
      some (s.inside ++ ';' :: behind) := isPrefixOf?_eq_some_iff.2 rfl
  have hword : ¬ (s.inside ++ ';' :: behind).head?.any isWord = true :=
    Bool.eq_false_iff.1 (s.bounded_inside behind)
  have hclause : (s.inside ++ ';' :: behind).dropWhile (fun c => !(isQuote c || c == ';')) =
      s.opening :: (s.path ++ s.closing :: (s.rest ++ ';' :: behind)) := by
    have hplain : ∀ c ∈ s.clause, (!(isQuote c || c == ';')) = true := by
      intro c hc
      simpa using s.clause_plain c hc
    simp only [Statement.inside, List.append_assoc, List.cons_append]
    rw [List.dropWhile_append_of_pos hplain, List.dropWhile_cons_of_neg]
    simp [s.opening_isQuote]
  have hpath : (s.path ++ s.closing :: (s.rest ++ ';' :: behind)).takeWhile (fun c => !isQuote c) =
      s.path := by
    rw [List.takeWhile_append_of_pos fun c hc => by simp [s.path_plain c hc],
      List.takeWhile_cons_of_neg (by simp [s.closing_isQuote]), List.append_nil]
  have hrest : (s.rest ++ ';' :: behind).dropWhile (fun c => decide (c ≠ ';')) = ';' :: behind := by
    rw [List.dropWhile_append_of_pos fun c hc => by simp [s.rest_plain c hc],
      List.dropWhile_cons_of_neg (by simp)]
  have hne : ¬ s.path.isEmpty = true := by simp [s.path_ne_nil]
  have hend : [';'].isPrefixOf? (';' :: behind) = some behind := isPrefixOf?_eq_some_iff.2 rfl
  have hlength : (margin ++ s.text ++ behind).length - behind.length =
      (margin ++ s.text).length := by
    rw [List.length_append]
    omega
  simp only [importStatement, hb, hstart, hkeyword, hword, hclause, s.opening_isQuote, hpath, hne,
    hrest, hend, hlength, List.drop_left, Option.bind_eq_bind, Option.bind_some, Bool.not_true,
    Bool.false_eq_true, if_false]

/-! ### Pragma statements -/

/-- A pragma statement from its keyword to its semicolon. -/
structure PragmaForm where
  /-- The white space behind the keyword. -/
  gap : Text
  name : Text
  rest : Text
  gap_ne_nil : gap ≠ []
  gap_blank : ∀ c ∈ gap, isBlank c = true
  name_ne_nil : name ≠ []
  name_word : ∀ c ∈ name, isWord c = true
  rest_plain : ';' ∉ rest
  bounded : ∀ c ∈ rest.head?, isWord c = false

namespace PragmaForm

def text (s : PragmaForm) : Text :=
  pragmaKeyword ++ s.gap ++ s.name ++ s.rest ++ [';']

def pragma (s : PragmaForm) : Pragma :=
  ⟨s.name, onOneLine s.text⟩

end PragmaForm

theorem PragmaForm.length_text (s : PragmaForm) (behind : Text) :
    (s.text ++ behind).length - behind.length = s.text.length := by
  rw [List.length_append]
  omega

theorem pragmaStatement_append {before : Option Char} (hb : startsWord before = true)
    (s : PragmaForm) (behind : Text) :
    pragmaStatement before (s.text ++ behind) = some ⟨s.text.length, s.pragma⟩ := by
  have htext : s.text ++ behind =
      pragmaKeyword ++ (s.gap ++ (s.name ++ (s.rest ++ ';' :: behind))) := by
    simp [PragmaForm.text]
  have hkeyword : pragmaKeyword.isPrefixOf? (s.text ++ behind) =
      some (s.gap ++ (s.name ++ (s.rest ++ ';' :: behind))) := isPrefixOf?_eq_some_iff.2 htext
  have hgap : (s.gap ++ (s.name ++ (s.rest ++ ';' :: behind))).head?.any isBlank = true := by
    obtain ⟨c, cs, hc⟩ := List.exists_cons_of_ne_nil s.gap_ne_nil
    have hblank := s.gap_blank c (by rw [hc]; exact List.mem_cons_self ..)
    rw [hc]
    simpa using hblank
  have hname : (s.gap ++ (s.name ++ (s.rest ++ ';' :: behind))).dropWhile isBlank =
      s.name ++ (s.rest ++ ';' :: behind) := by
    obtain ⟨c, cs, hc⟩ := List.exists_cons_of_ne_nil s.name_ne_nil
    have hblank := isBlank_of_isWord (s.name_word c (by rw [hc]; exact List.mem_cons_self ..))
    rw [List.dropWhile_append_of_pos s.gap_blank, hc, List.cons_append,
      List.dropWhile_cons_of_neg (by simp [hblank])]
  have htake : (s.name ++ (s.rest ++ ';' :: behind)).takeWhile isWord = s.name := by
    rw [List.takeWhile_append_of_pos s.name_word]
    cases hr : s.rest with
    | nil => simp [isWord]
    | cons c cs =>
      have hc := s.bounded c (by rw [hr]; rfl)
      rw [List.cons_append, List.takeWhile_cons_of_neg (by simp [hc]), List.append_nil]
  have hrest : (s.rest ++ ';' :: behind).takeWhile (fun c => decide (c ≠ ';')) = s.rest := by
    have hplain : ∀ c ∈ s.rest, decide (c ≠ ';') = true := by
      intro c hc
      rw [decide_eq_true_eq]
      rintro rfl
      exact s.rest_plain hc
    rw [List.takeWhile_append_of_pos hplain, List.takeWhile_cons_of_neg (by simp), List.append_nil]
  have hne : ¬ s.name.isEmpty = true := by simp [s.name_ne_nil]
  have hend : [';'].isPrefixOf? (';' :: behind) = some behind := isPrefixOf?_eq_some_iff.2 rfl
  simp only [pragmaStatement, hb, hkeyword, hgap, hname, htake, hne, List.drop_left, hrest, hend,
    s.length_text, List.take_left, Option.bind_eq_bind, Option.bind_some, Bool.not_true,
    Bool.false_eq_true, if_false]
  rfl

/-- The pattern for pragma statements takes what has their form, at the start of a word. -/
theorem pragmaStatement_eq_some_iff {before : Option Char} {t : Text} {m : Match Pragma} :
    pragmaStatement before t = some m ↔ startsWord before = true ∧
      ∃ (s : PragmaForm) (behind : Text), t = s.text ++ behind ∧ m = ⟨s.text.length, s.pragma⟩ := by
  constructor
  · intro h
    have hmatch := h
    simp only [pragmaStatement, Option.bind_eq_bind, Option.bind_none] at h
    split at h
    · simp at h
    next hword =>
    obtain ⟨u, hu, h⟩ := Option.bind_eq_some_iff.1 h
    rw [isPrefixOf?_eq_some_iff] at hu
    subst hu
    split at h
    · simp at h
    next hblank =>
    obtain ⟨gap, v, rfl, hgap, -, hdrop, hv⟩ := exists_takeWhile_append (p := isBlank) (t := u)
    obtain ⟨name, w, rfl, hname, htake, -, hw⟩ := exists_takeWhile_append (p := isWord) (t := v)
    obtain ⟨rest, z, rfl, hrest, htake', -⟩ :=
      exists_takeWhile_append (p := fun c => decide (c ≠ ';')) (t := w)
    rw [hdrop, htake, List.drop_left, htake', List.drop_left] at h
    split at h
    · simp at h
    next hempty =>
    obtain ⟨behind, hbehind, -⟩ := Option.bind_eq_some_iff.1 h
    rw [isPrefixOf?_eq_some_iff] at hbehind
    subst hbehind
    have hgap_ne : gap ≠ [] := by
      rintro rfl
      cases name with
      | nil => simp at hempty
      | cons c cs =>
        have hc := isBlank_of_isWord (hname c (List.mem_cons_self ..))
        simp [hc] at hblank
    let s : PragmaForm :=
      ⟨gap, name, rest, hgap_ne, hgap, by simpa using hempty, hname,
        fun hc => by simpa using hrest ';' hc, fun c hc => hw c (by
          cases rest with
          | nil => simp at hc
          | cons d ds => simpa using hc)⟩
    have htext : pragmaKeyword ++ (gap ++ (name ++ (rest ++ ([';'] ++ behind)))) =
        s.text ++ behind := by simp [s, PragmaForm.text]
    have hb : startsWord before = true := by simpa using hword
    rw [htext, pragmaStatement_append hb] at hmatch
    exact ⟨hb, s, behind, htext, (Option.some.inj hmatch).symm⟩
  · rintro ⟨hb, s, behind, rfl, rfl⟩
    exact pragmaStatement_append hb s behind

/-! ### Licence lines -/

theorem exists_of_licenseLine {before : Option Char} {t : Text} {m : Match Text}
    (h : licenseLine before t = some m) :
    startsLine before = true ∧ ∃ margin rest, (∀ c ∈ margin, isMargin c = true) ∧ '\n' ∉ rest ∧
      m.value = trim (margin ++ '/' :: '/' :: rest) := by
  simp only [licenseLine, Option.bind_eq_bind, Option.bind_none] at h
  split at h
  · simp at h
  next hline =>
  obtain ⟨margin, t', rfl, hmargin, -, hdrop, -⟩ := exists_takeWhile_append (p := isMargin) (t := t)
  obtain ⟨u, hu, h⟩ := Option.bind_eq_some_iff.1 h
  rw [hdrop, isPrefixOf?_eq_some_iff] at hu
  subst hu
  obtain ⟨rest, v, rfl, hrest, htake, -⟩ :=
    exists_takeWhile_append (p := fun c => decide (c ≠ '\n')) (t := u)
  obtain ⟨-, -, h⟩ := Option.bind_eq_some_iff.1 h
  have hplain : ∀ c ∈ margin ++ ['/', '/'], decide (c ≠ '\n') = true := by
    intro c hc
    rcases List.mem_append.1 hc with hc | hc
    · have hmc := hmargin c hc
      rw [decide_eq_true_eq]
      rintro rfl
      revert hmc
      decide
    · have hsc : c = '/' := by simpa using hc
      rw [hsc]
      decide
  have hm := (Option.some.inj h).symm
  rw [← List.append_assoc margin, List.takeWhile_append_of_pos hplain, htake] at hm
  refine ⟨by simpa using hline, margin, rest, hmargin, ?_, ?_⟩
  · exact fun hc => by simpa using hrest '\n' hc
  · rw [hm]
    simp

end Source

end FlatSol
