import FlatSol.Proofs.Source.Apart
import FlatSol.Proofs.Source.HeaderStart
import FlatSol.Proofs.Text.LineEnds

/-!
# Patterns that read lines

The patterns for imports, pragmas and licence lines take texts that differ only in what stands in front
of their line feeds alike, and nothing in front of a line feed. Main statement: what such a pattern finds
in a text with returns added is what it finds in the text, at the moved offsets.
-/

namespace FlatSol

open Text

namespace Pattern

variable {α : Type} {p : Pattern α} {R : (Text → Text → Prop) → α → α → Prop}

/-- A pattern that takes nothing in front of a line feed, and takes texts with the same lines alike, with
values that `R` relates. -/
structure ReadsLines (p : Pattern α) (R : (Text → Text → Prop) → α → α → Prop) : Prop where
  skips : ∀ before u t, Returns u → p before (u ++ '\n' :: t) = none
  carries : ∀ {P before x y m}, SameLines P x y → p before x = some m →
    ∃ k, p before y = some k ∧ R P m.value k.value ∧
      SameLines P (x.take m.length) (y.take k.length)

theorem ReadsLines.eq_none_iff (h : ReadsLines p R) {P : Text → Text → Prop} {before : Option Char}
    {x y : Text} (hxy : SameLines P x y) : p before x = none ↔ p before y = none := by
  have half : ∀ {P x y}, SameLines P x y → p before y = none → p before x = none := by
    intro P x y hxy hy
    cases hx : p before x with
    | none => rfl
    | some m =>
      obtain ⟨k, hk, -⟩ := h.carries hxy hx
      rw [hy] at hk
      cases hk
  exact ⟨half hxy.symm, half hxy⟩

/-- A match of a text and the one of the text with returns added. -/
def Moved (R : (Text → Text → Prop) → α → α → Prop) (t : Text) (f g : Found α) : Prop :=
  g.span = movedSpan t f.span ∧ R Added f.value g.value

/-- Behind a common first character, stretches with the same lines still have the same lines. -/
theorem sameLines_take_pred {c : Char} {x y : Text} {k j : Nat} (hc : c ≠ '\n')
    (h : SameLines Added ((c :: x).take k) ((c :: y).take j)) :
    SameLines Added (x.take (k - 1)) (y.take (j - 1)) := by
  cases k with
  | zero =>
    cases j with
    | zero => exact .nil
    | succ j => exact absurd (h.eq_nil_iff.1 rfl) (by simp)
  | succ k =>
    cases j with
    | zero => exact absurd (h.eq_nil_iff.2 rfl) (by simp)
    | succ j =>
      rw [List.take_succ_cons, List.take_succ_cons] at h
      exact h.of_cons hc

/-- Stretches with the same lines behind a place of the text and behind the moved one. -/
theorem movedSpan_take (a : Text) {x y : Text} {k j : Nat}
    (h : SameLines Added (x.take k) (y.take j)) :
    (⟨byteSize a + a.count '\n', byteSize a + a.count '\n' + byteSize (y.take j)⟩ : Span) =
      movedSpan (a ++ x) ⟨byteSize a, byteSize a + byteSize (x.take k)⟩ := by
  have hsplit : a ++ x = (a ++ x.take k) ++ x.drop k := by
    rw [List.append_assoc, List.take_append_drop]
  have hstop : moved (a ++ x) (byteSize (a ++ x.take k)) =
      byteSize (a ++ x.take k) + (a ++ x.take k).count '\n' := by
    rw [hsplit, moved_byteSize]
  rw [movedSpan, moved_byteSize, ← byteSize_append, hstop, h.byteSize_eq, byteSize_append,
    List.count_append, Span.mk.injEq]
  exact ⟨rfl, by omega⟩

/-- The matches in a text with returns added are the moved ones: the searches go along both texts
together, inside matches that cover the same lines. -/
theorem findFrom_added (h : ReadsLines p R) {a x y : Text} {k j : Nat} {before : Option Char}
    (hxy : SameLines Added x y) (hcovered : SameLines Added (x.take k) (y.take j)) :
    List.Forall₂ (Moved R (a ++ x)) (p.findFrom (byteSize a) k before x)
      (p.findFrom (byteSize a + a.count '\n') j before y) := by
  induction hxy generalizing a k j before with
  | nil => exact .nil
  | @cons c x y hc hxy ih =>
    have happend : a ++ c :: x = (a ++ [c]) ++ x := by simp
    have hsize : byteSize (a ++ [c]) = byteSize a + c.utf8Size := by simp
    have hcount : byteSize (a ++ [c]) + (a ++ [c]).count '\n' =
        byteSize a + a.count '\n' + c.utf8Size := by
      rw [hsize, List.count_append, List.count_singleton, if_neg (by simpa using hc)]
      omega
    have hrest : ∀ {k j}, SameLines Added ((c :: x).take k) ((c :: y).take j) →
        List.Forall₂ (Moved R (a ++ c :: x)) (p.findFrom (byteSize a + c.utf8Size) (k - 1) (some c) x)
          (p.findFrom (byteSize a + a.count '\n' + c.utf8Size) (j - 1) (some c) y) := by
      intro k j hkj
      rw [happend, ← hcount, ← hsize]
      exact ih (sameLines_take_pred hc hkj)
    cases k with
    | succ k =>
      cases j with
      | zero => exact absurd (hcovered.eq_nil_iff.2 rfl) (by simp)
      | succ j => exact hrest hcovered
    | zero =>
      cases j with
      | succ j => exact absurd (hcovered.eq_nil_iff.1 rfl) (by simp)
      | zero =>
        rw [findFrom, findFrom]
        cases hm : p before (c :: x) with
        | none =>
          rw [(h.eq_none_iff (hxy.cons hc)).1 hm]
          exact hrest hcovered
        | some m =>
          obtain ⟨m', hm', hvalue, htake⟩ := h.carries (hxy.cons hc) hm
          rw [hm']
          exact .cons ⟨movedSpan_take a htake, hvalue⟩ (hrest htake)
  | @line u v x y hp hu hv hxy ih =>
    obtain ⟨rfl, e, rfl⟩ := hp
    have hfeed : Char.utf8Size '\n' = 1 := rfl
    have he : e.utf8Size = 1 := byteSize_of_isReturn (hv e (List.mem_singleton_self e))
    have happend : a ++ '\n' :: x = (a ++ ['\n']) ++ x := by simp
    have hsize : byteSize (a ++ ['\n']) = byteSize a + 1 := by simp [hfeed]
    have hcount : byteSize (a ++ ['\n']) + (a ++ ['\n']).count '\n' =
        byteSize a + a.count '\n' + 1 + 1 := by
      rw [hsize, List.count_append, List.count_singleton_self]
      omega
    have hrest : ∀ {k j}, SameLines Added (x.take k) (y.take j) →
        List.Forall₂ (Moved R (a ++ '\n' :: x)) (p.findFrom (byteSize a + 1) k (some '\n') x)
          (p.findFrom (byteSize a + a.count '\n' + 1 + 1) j (some '\n') y) := by
      intro k j hkj
      rw [happend, ← hcount, ← hsize]
      exact ih hkj
    rw [List.nil_append, List.singleton_append] at hcovered ⊢
    cases k with
    | zero =>
      cases j with
      | succ j => exact absurd (hcovered.eq_nil_iff.1 rfl) (by simp)
      | zero =>
        -- nothing is taken in front of the line feed, in neither text
        have hx : p before ('\n' :: x) = none := h.skips before [] x hu
        have hy : p before (e :: '\n' :: y) = none := h.skips before [e] y hv
        have hy' : p (some e) ('\n' :: y) = none := h.skips (some e) [] y hu
        rw [findFrom, hx, findFrom, hy, findFrom, hy', he, hfeed]
        exact hrest .nil
    | succ k =>
      -- a match that covers the line feed covers the return in front of it
      rw [List.take_succ_cons] at hcovered
      obtain ⟨e', z, hz, hkj⟩ := hcovered.exists_of_lineFeed
      obtain ⟨j, rfl⟩ : ∃ i, j = i + 2 := by
        have hlength := congrArg List.length hz
        simp only [List.length_take, List.length_cons] at hlength
        exact ⟨j - 2, by omega⟩
      rw [List.take_succ_cons, List.take_succ_cons] at hz
      obtain ⟨-, hz⟩ := List.cons.inj hz
      obtain ⟨-, rfl⟩ := List.cons.inj hz
      rw [findFrom, findFrom, findFrom, he, hfeed]
      exact hrest hkj

/-- The matches in a text with returns added are the moved ones. -/
theorem findAll_added (h : ReadsLines p R) {x y : Text} (hxy : SameLines Added x y) :
    List.Forall₂ (Moved R x) (p.findAll x) (p.findAll y) :=
  findFrom_added (a := []) h hxy .nil

end Pattern

namespace Source

/-! ### The patterns read lines -/

theorem isQuote_of_isReturn {c : Char} (h : isReturn c = true) : isQuote c = false := by
  have hc : c = ' ' ∨ c = '\r' := by simpa [isReturn] using h
  rcases hc with rfl | rfl <;> rfl

theorem ne_semicolon_of_isReturn {c : Char} (h : isReturn c = true) : c ≠ ';' := by
  rintro rfl
  exact absurd h (by decide)

theorem margin_ne_returns {u t margin w : Text} {c : Char} (hu : Returns u)
    (hmargin : ∀ d ∈ margin, isMargin d = true) (hc : isBlank c = false) :
    u ++ '\n' :: t ≠ margin ++ c :: w := by
  intro h
  have hreturn : isReturn c = false := isReturn_of_not_blank hc
  have hnot : isMargin c = false := by
    rw [Bool.eq_false_iff]
    intro hm
    rw [isBlank_of_isMargin hm] at hc
    exact Bool.noConfusion hc
  -- the first character besides spaces, tabs and carriage returns
  have hfirst : '\n' = c := head_inj_of_append (p := fun d => isMargin d || isReturn d) h
    (fun d hd => by simp [hu d hd]) (fun d hd => by simp [hmargin d hd]) rfl
    (by simp [hnot, hreturn])
  rw [← hfirst] at hc
  exact absurd hc (by decide)

/-- A statement whose parts have the same lines as those of `s`. -/
def Statement.withLines {P : Text → Text → Prop} (s : Statement) {clause path rest : Text}
    (hclause : SameLines P s.clause clause) (hpath : SameLines P s.path path)
    (hrest : SameLines P s.rest rest) : Statement where
  clause := clause
  opening := s.opening
  path := path
  closing := s.closing
  rest := rest
  clause_plain c hc := by
    rcases hclause.mem_or hc with hmem | hreturn
    · exact s.clause_plain c hmem
    · exact ⟨isQuote_of_isReturn hreturn, ne_semicolon_of_isReturn hreturn⟩
  opening_isQuote := s.opening_isQuote
  path_ne_nil hnil := s.path_ne_nil (hpath.eq_nil_iff.2 hnil)
  path_plain c hc := (hpath.mem_or hc).elim (s.path_plain c) isQuote_of_isReturn
  closing_isQuote := s.closing_isQuote
  rest_plain c hc := (hrest.mem_or hc).elim (s.rest_plain c) ne_semicolon_of_isReturn
  bounded := by
    have h := s.bounded
    rcases hclause.head?_eq_or with hhead | ⟨-, c, hc, hblank⟩
    · cases hx : s.clause with
      | nil => rw [hclause.eq_nil_iff.1 hx]; rwa [hx] at h
      | cons c cs =>
        cases clause with
        | nil => rw [hx] at hhead; cases hhead
        | cons d ds =>
          rw [hx] at hhead h
          obtain rfl : c = d := Option.some.inj hhead
          exact h
    · cases clause with
      | nil => cases hc
      | cons d ds =>
        obtain rfl : d = c := Option.some.inj hc
        simp [isWord_of_isBlank hblank]

theorem readsLines_import : Pattern.ReadsLines importStatement SameLines := by
  constructor
  case skips =>
    intro before u t hu
    cases hm : importStatement before (u ++ '\n' :: t) with
    | none => rfl
    | some m =>
      obtain ⟨-, margin, s, behind, hmargin, htext, -⟩ := exists_of_importStatement hm
      obtain ⟨w, hw⟩ := s.exists_text
      rw [hw.1, List.append_assoc, List.cons_append] at htext
      exact absurd htext (margin_ne_returns hu hmargin (by decide))
  case carries =>
    intro P before x y m hxy hm
    obtain ⟨hline, margin, s, behind, hmargin, rfl, rfl⟩ := exists_of_importStatement hm
    have htext : ∀ s : Statement, ∀ behind, margin ++ s.text ++ behind = (margin ++ importKeyword) ++
        (s.clause ++ s.opening :: (s.path ++ s.closing :: (s.rest ++ ';' :: behind))) := by
      intro s behind
      simp [Statement.text, Statement.inside]
    have hfront : '\n' ∉ margin ++ importKeyword := by
      have hfeed := lineFeed_notMem_of_isMargin hmargin
      simp [hfeed, importKeyword]
    have hopening := isBlank_of_isQuote s.opening_isQuote
    have hclosing := isBlank_of_isQuote s.closing_isQuote
    rw [htext] at hxy
    obtain ⟨w, rfl, hw⟩ := hxy.exists_of_notMem hfront (by simp [importKeyword, isReturn])
    obtain ⟨clause, v, rfl, hclause, hv⟩ := hw.exists_append_cons (isReturn_of_not_blank hopening)
      (ne_lineFeed_of_not_blank hopening)
    obtain ⟨path, u, rfl, hpath, hu⟩ := hv.exists_append_cons (isReturn_of_not_blank hclosing)
      (ne_lineFeed_of_not_blank hclosing)
    obtain ⟨rest, w, rfl, hrest, -⟩ := hu.exists_append_cons rfl (by decide)
    let s' := s.withLines hclause hpath hrest
    have htext' : (margin ++ importKeyword) ++
        (clause ++ s.opening :: (path ++ s.closing :: (rest ++ ';' :: w))) =
          margin ++ s'.text ++ w := (htext s' w).symm
    rw [htext']
    refine ⟨_, importStatement_append hline hmargin s' w, hpath, ?_⟩
    have hwhole : ∀ s : Statement, margin ++ s.text = (margin ++ importKeyword) ++
        (s.clause ++ ([s.opening] ++ (s.path ++ ([s.closing] ++ (s.rest ++ [';']))))) := by
      intro s
      simp [Statement.text, Statement.inside]
    have hsingle : ∀ {c}, isBlank c = false → SameLines P [c] [c] := fun hc =>
      .cons (ne_lineFeed_of_not_blank hc) .nil
    rw [List.take_left, List.take_left, hwhole, hwhole]
    exact (SameLines.refl_of_notMem P hfront).append <| hclause.append <|
      (hsingle hopening).append <| hpath.append <| (hsingle hclosing).append <|
      hrest.append (hsingle rfl)

/-- A pragma statement whose parts have the same lines as those of `s`. -/
def PragmaForm.withLines {P : Text → Text → Prop} (s : PragmaForm) {gap rest : Text}
    (hgap : SameLines P s.gap gap) (hrest : SameLines P s.rest rest) : PragmaForm where
  gap := gap
  name := s.name
  rest := rest
  gap_ne_nil hnil := s.gap_ne_nil (hgap.eq_nil_iff.2 hnil)
  gap_blank c hc := (hgap.mem_or hc).elim (s.gap_blank c) isBlank_of_isReturn
  name_ne_nil := s.name_ne_nil
  name_word := s.name_word
  rest_plain hmem := (hrest.mem_or hmem).elim s.rest_plain (by decide)
  bounded c hc := by
    rcases hrest.head?_eq_or with hhead | ⟨-, d, hd, hblank⟩
    · exact s.bounded c (hhead ▸ hc)
    · obtain rfl : d = c := Option.some.inj (hd.symm.trans hc)
      exact isWord_of_isBlank hblank

theorem readsLines_pragma : Pattern.ReadsLines pragmaStatement fun _ => Eq := by
  constructor
  case skips =>
    intro before u t hu
    cases hm : pragmaStatement before (u ++ '\n' :: t) with
    | none => rfl
    | some m =>
      obtain ⟨-, s, behind, htext, -⟩ := pragmaStatement_eq_some_iff.1 hm
      have hmargin : ∀ c ∈ ([] : Text), isMargin c = true := by simp
      exact absurd htext (margin_ne_returns (c := 'p') hu hmargin rfl)
  case carries =>
    intro P before x y m hxy hm
    obtain ⟨hword, s, behind, rfl, rfl⟩ := pragmaStatement_eq_some_iff.1 hm
    have htext : ∀ s : PragmaForm, ∀ behind, s.text ++ behind =
        pragmaKeyword ++ (s.gap ++ (s.name ++ (s.rest ++ ';' :: behind))) := by
      intro s behind
      simp [PragmaForm.text]
    have hname : ∀ c ∈ s.name, isReturn c = false ∧ c ≠ '\n' := fun c hc =>
      have hblank := isBlank_of_isWord (s.name_word c hc)
      ⟨isReturn_of_not_blank hblank, ne_lineFeed_of_not_blank hblank⟩
    have hkeyword : '\n' ∉ pragmaKeyword := by decide
    have hplain : '\n' ∉ s.name := fun hmem => (hname '\n' hmem).2 rfl
    rw [htext] at hxy
    obtain ⟨w, rfl, hw⟩ := hxy.exists_of_notMem hkeyword (by simp [pragmaKeyword, isReturn])
    obtain ⟨gap, v, rfl, hgap, hv⟩ := hw.exists_append (.inr fun c hc => by
      obtain ⟨d, ds, hd⟩ := List.exists_cons_of_ne_nil s.name_ne_nil
      obtain rfl : d = c := by simpa [hd] using hc
      exact hname d (by rw [hd]; exact List.mem_cons_self ..))
    obtain ⟨u, rfl, hu⟩ := hv.exists_of_notMem hplain fun c hc =>
      (hname c (List.mem_of_getLast? hc)).1
    obtain ⟨rest, w, rfl, hrest, -⟩ := hu.exists_append_cons rfl (by decide)
    let s' := s.withLines hgap hrest
    have htext' : pragmaKeyword ++ (gap ++ (s.name ++ (rest ++ ';' :: w))) = s'.text ++ w :=
      (htext s' w).symm
    have hwhole : ∀ s : PragmaForm, s.text =
        pragmaKeyword ++ (s.gap ++ (s.name ++ (s.rest ++ [';']))) := by
      intro s
      simp [PragmaForm.text]
    have hlines : SameLines P s.text s'.text := by
      rw [hwhole, hwhole]
      exact (SameLines.refl_of_notMem P hkeyword).append <| hgap.append <|
        (SameLines.refl_of_notMem P hplain).append <| hrest.append (.cons (by decide) .nil)
    have hpragma : s.pragma = s'.pragma := by
      rw [PragmaForm.pragma, PragmaForm.pragma, hlines.onOneLine_eq]
      rfl
    rw [htext']
    refine ⟨_, pragmaStatement_append hword s' w, hpragma, ?_⟩
    rw [List.take_left, List.take_left]
    exact hlines

/-- The first line of a text, of which `front` and `l` stand before returns and a line feed. -/
theorem firstLine_append_returns {front l e : Text} (hfront : '\n' ∉ front) (hl : '\n' ∉ l)
    (he : Returns e) (z : Text) :
    firstLine (front ++ (l ++ e ++ '\n' :: z)) =
      ⟨(front ++ (l ++ e ++ ['\n'])).length, trim (front ++ l)⟩ := by
  have hplain : '\n' ∉ front ++ l ++ e := by simp [hfront, hl, he.lineFeed_notMem]
  have h := firstLine_append hplain (v := '\n' :: z) (by simp)
  rw [trim_append_of_blank he.blank] at h
  rw [← List.append_assoc, ← List.append_assoc, h]
  simp

/-- First lines with a common front cover the same lines, and they are the same text. -/
theorem firstLine_sameLines {P : Text → Text → Prop} {front x y : Text} (hfront : '\n' ∉ front)
    (h : SameLines P x y) :
    (firstLine (front ++ x)).value = (firstLine (front ++ y)).value ∧
      SameLines P ((front ++ x).take (firstLine (front ++ x)).length)
        ((front ++ y).take (firstLine (front ++ y)).length) := by
  rcases h.exists_line with ⟨hx, rfl⟩ | ⟨l, u, v, z, z', rfl, rfl, hl, hp, hu, hv, -⟩
  · -- the line is the last one
    have hplain : '\n' ∉ front ++ y := by simp [hfront, hx]
    exact ⟨rfl, .refl_of_notMem P fun hmem => hplain (List.mem_of_mem_take hmem)⟩
  · rw [firstLine_append_returns hfront hl hu, firstLine_append_returns hfront hl hv]
    refine ⟨rfl, ?_⟩
    have htext : ∀ e z : Text, front ++ (l ++ e ++ '\n' :: z) =
        front ++ (l ++ e ++ ['\n']) ++ z := by simp
    rw [htext u z, htext v z', List.take_left, List.take_left, List.append_assoc, List.append_assoc l]
    exact (SameLines.refl_of_notMem P hfront).append <|
      (SameLines.refl_of_notMem P hl).append (.line hp hu hv .nil)

/-- A licence line is given without the return that may stand at its end. -/
theorem readsLines_license : Pattern.ReadsLines licenseLine fun _ => Eq := by
  constructor
  case skips =>
    intro before u t hu
    cases hm : licenseLine before (u ++ '\n' :: t) with
    | none => rfl
    | some m =>
      obtain ⟨-, hmark, -⟩ := licenseLine_eq_some_iff.1 hm
      obtain ⟨margin, b, hb, hmargin, -, hdrop, -⟩ :=
        exists_takeWhile_append (p := isMargin) (t := u ++ '\n' :: t)
      obtain ⟨gap, r, -, hr⟩ := startsMark_eq_true_iff.1 hmark
      rw [hdrop] at hr
      rw [hr] at hb
      exact absurd hb (margin_ne_returns (c := '/') hu hmargin rfl)
  case carries =>
    intro P before x y m hxy hm
    obtain ⟨hline, hmark, rfl⟩ := licenseLine_eq_some_iff.1 hm
    obtain ⟨margin, b, rfl, hmargin, -, hdrop, -⟩ := exists_takeWhile_append (p := isMargin) (t := x)
    rw [hdrop] at hmark
    obtain ⟨gap, r, hgap, rfl⟩ := startsMark_eq_true_iff.1 hmark
    obtain ⟨-, tag, htag⟩ := exists_licenseMark
    have hfront : '\n' ∉ margin ++ ('/' :: '/' :: gap ++ licenseMark) := by
      have hm' := lineFeed_notMem_of_isMargin hmargin
      have hg' := lineFeed_notMem_of_isMargin hgap
      have ht' : '\n' ∉ licenseMark := by decide
      simp [hm', hg', ht']
    have hlast : ∀ c ∈ (margin ++ ('/' :: '/' :: gap ++ licenseMark)).getLast?, isReturn c = false := by
      have hcolon : margin ++ ('/' :: '/' :: gap ++ licenseMark) =
          (margin ++ '/' :: '/' :: gap ++ tag) ++ [':'] := by simp [htag]
      rw [hcolon, List.getLast?_concat]
      rintro c ⟨⟩
      rfl
    have hassoc : margin ++ ('/' :: '/' :: gap ++ licenseMark ++ r) =
        margin ++ ('/' :: '/' :: gap ++ licenseMark) ++ r := (List.append_assoc ..).symm
    rw [hassoc] at hxy ⊢
    obtain ⟨w, rfl, hw⟩ := hxy.exists_of_notMem hfront hlast
    have htaken : licenseLine before (margin ++ ('/' :: '/' :: gap ++ licenseMark) ++ w) =
        some (firstLine (margin ++ ('/' :: '/' :: gap ++ licenseMark) ++ w)) := by
      refine licenseLine_eq_some_iff.2 ⟨hline, ?_, rfl⟩
      rw [List.append_assoc, List.dropWhile_append_of_pos hmargin, List.append_assoc, List.cons_append,
        List.dropWhile_cons_of_neg (by decide)]
      exact startsMark_eq_true_iff.2 ⟨gap, w, hgap, by simp⟩
    exact ⟨_, htaken, firstLine_sameLines hfront hw⟩

end Source

end FlatSol
