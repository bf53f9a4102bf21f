import FlatSol.Proofs.Source.ImportEdit
import FlatSol.Proofs.Source.Lexeme
import FlatSol.Proofs.Source.Trim

/-!
# The four forms of import declarations

A declaration names a file alone, gives it a name, gives all of its contents a name, or lists names
from it. Its tokens may be separated by white space, line breaks and comments, and what the comments
hold does not matter. Main statement: masked, every declaration with a path that is not empty has
the form that the pattern for import statements takes.
-/

namespace FlatSol

open Text

/-! ### Gaps and tokens -/

/-- What may stand between two tokens: white space, and comments that end before the next token. -/
inductive Gap : Text → Prop
  | nil : Gap []
  | blank {c : Char} {g : Text} : isBlank c = true → Gap g → Gap (c :: g)
  | line {s g : Text} : '\n' ∉ s → Gap g → Gap ('/' :: '/' :: (s ++ '\n' :: g))
  | block {s g : Text} : ¬ Lexeme.blockEnd <:+: s ++ ['*'] → Gap g →
      Gap ('/' :: '*' :: (s ++ (Lexeme.blockEnd ++ g)))

/-- The tokens one after the other, with a gap before each. -/
inductive Spaced : List Text → Text → Prop
  | nil : Spaced [] []
  | cons {t s g : Text} {ts : List Text} : Gap g → Spaced ts s → Spaced (t :: ts) (g ++ (t ++ s))

inductive ImportForm
  /-- `import "path";` -/
  | plain
  /-- `import "path" as name;` -/
  | named (name : Text)
  /-- `import * as name from "path";` -/
  | star (name : Text)
  /-- `import {name, name as other} from "path";` -/
  | names (items : List (Text × Option Text))

namespace ImportForm

def asWord : Text := ['a', 's']

def fromWord : Text := ['f', 'r', 'o', 'm']

def itemTokens : Text × Option Text → List Text
  | (name, none) => [name]
  | (name, some other) => [name, asWord, other]

def listTokens : List (Text × Option Text) → List Text
  | [] => []
  | [i] => itemTokens i
  | i :: is => itemTokens i ++ [','] :: listTokens is

/-- The tokens between the keyword and the path. -/
def lead : ImportForm → List Text
  | .plain | .named _ => []
  | .star name => [['*'], asWord, name, fromWord]
  | .names items => ['{'] :: listTokens items ++ [['}'], fromWord]

/-- The tokens between the path and the semicolon. -/
def trail : ImportForm → List Text
  | .named name => [asWord, name]
  | .plain | .star _ | .names _ => []

def identifiers : ImportForm → List Text
  | .plain => []
  | .named name | .star name => [name]
  | .names items => items.flatMap fun i => i.1 :: i.2.toList

end ImportForm

def IsIdentifier (t : Text) : Prop :=
  t ≠ [] ∧ ∀ c ∈ t, isWord c = true ∨ c = '$'

/-- An import declaration from its keyword to its semicolon. -/
structure Declaration where
  form : ImportForm
  quote : Char
  path : Text
  /-- The tokens before the path, each with the gap before it. -/
  lead : Text
  leadGap : Text
  /-- The tokens behind the path, each with the gap before it. -/
  trail : Text
  trailGap : Text
  isIdentifier : ∀ name ∈ form.identifiers, IsIdentifier name
  quote_isQuote : isQuote quote = true
  path_plain : ∀ c ∈ path, isQuote c = false ∧ c ≠ '\\' ∧ c ≠ '\n'
  lead_spaced : Spaced form.lead lead
  leadGap_gap : Gap leadGap
  trail_spaced : Spaced form.trail trail
  trailGap_gap : Gap trailGap

namespace Declaration

/-- The path between its quotes. -/
def literal (d : Declaration) : Text :=
  d.quote :: (d.path ++ [d.quote])

def text (d : Declaration) : Text :=
  Source.importKeyword ++ ((d.lead ++ d.leadGap) ++ (d.literal ++ ((d.trail ++ d.trailGap) ++ [';'])))

end Declaration

/-! ### Reading a part of code -/

namespace Source

/-- Read in code, the text `s` leaves `w`, and the reader is in code again. -/
def Leaves (s w : Text) : Prop :=
  ∀ r, mask (s ++ r) = w ++ mask r

theorem leaves_nil : Leaves [] [] := fun _ => rfl

theorem Leaves.append {s s' w w' : Text} (h : Leaves s w) (h' : Leaves s' w') :
    Leaves (s ++ s') (w ++ w') := by
  intro r
  rw [List.append_assoc, h, h', List.append_assoc]

theorem Leaves.byteSize_eq {s w : Text} (h : Leaves s w) : byteSize w = byteSize s := by
  have hw : mask s = w := by simpa [mask, maskFrom] using h []
  rw [← hw, byteSize_mask]

theorem leaves_of_code {s : Text} (hs : Scan.code.after s = .code) : Leaves s (mask s) := by
  intro r
  rw [Scan.mask_eq_paint, Scan.paint_append, hs, ← Scan.mask_eq_paint, ← Scan.mask_eq_paint]
  rw [hs]
  exact .inr (.inl Scan.noConfusion)

/-- A character that neither a comment nor a literal can begin with. -/
def isCodeChar (c : Char) : Bool :=
  !isQuote c && c != '/'

theorem leaves_of_codeChar {s : Text} (hs : ∀ c ∈ s, isCodeChar c = true) : Leaves s s := by
  intro r
  induction s with
  | nil => rfl
  | cons c cs ih =>
    obtain ⟨hc, hcs⟩ := List.forall_mem_cons.1 hs
    obtain ⟨hq, hslash⟩ : isQuote c = false ∧ c ≠ '/' := by simpa [isCodeChar] using hc
    have hcode : Lexeme.Before (.code c) (cs ++ r) := ⟨hq, fun h => hslash h.1⟩
    have hfirst := Lexeme.mask_text_append hcode
    rw [ih hcs] at hfirst
    exact hfirst

/-- Characters of code that begin no comment are lexemes of their own. -/
theorem lexed_codes_append {cs : Text} {ls : List Lexeme} (hcs : cs.all isCodeChar = true)
    (hls : Lexeme.Lexed ls) : Lexeme.Lexed (cs.map .code ++ ls) := by
  induction cs with
  | nil => exact hls
  | cons c cs ih =>
    rw [List.all_cons, Bool.and_eq_true] at hcs
    obtain ⟨hq, hslash⟩ : isQuote c = false ∧ c ≠ '/' := by simpa [isCodeChar] using hcs.1
    exact ⟨⟨hq, fun h => hslash h.1⟩, ih hcs.2⟩

theorem quoted_of_ne {q : Char} {s : Text} (hs : ∀ c ∈ s, c ≠ q ∧ c ≠ '\\' ∧ c ≠ '\n') :
    Lexeme.Quoted q s := by
  induction s with
  | nil => exact .nil
  | cons c cs ih =>
    obtain ⟨⟨hne, hback, hfeed⟩, hcs⟩ := List.forall_mem_cons.1 hs
    exact (ih hcs).plain hback hne hfeed

theorem quoted_of_plain {q : Char} {s : Text} (hq : isQuote q = true)
    (hs : ∀ c ∈ s, isQuote c = false ∧ c ≠ '\\' ∧ c ≠ '\n') : Lexeme.Quoted q s := by
  refine quoted_of_ne fun c hc => ⟨?_, (hs c hc).2⟩
  rintro rfl
  exact Bool.noConfusion (hq.symm.trans (hs c hc).1)

theorem leaves_literal (d : Declaration) : Leaves d.literal d.literal := by
  intro r
  have hquoted : Lexeme.Quoted d.quote d.path := quoted_of_plain d.quote_isQuote d.path_plain
  have hlit : Lexeme.Before (.literal d.quote d.path d.quote) r :=
    ⟨d.quote_isQuote, hquoted, .inl rfl⟩
  exact Lexeme.mask_text_append hlit

theorem isBlank_of_mem_blanked {s : Text} : ∀ c ∈ s.flatMap blanked, isBlank c = true := by
  intro c hc
  obtain ⟨d, -, hd⟩ := List.mem_flatMap.1 hc
  unfold blanked at hd
  split at hd
  · rw [List.mem_singleton.1 hd]
    decide
  · rw [List.eq_of_mem_replicate hd]
    decide

/-- A gap leaves white space. -/
theorem exists_leaves_of_gap {g : Text} (h : Gap g) :
    ∃ w, Leaves g w ∧ ∀ c ∈ w, isBlank c = true := by
  induction h with
  | nil => exact ⟨[], leaves_nil, by simp⟩
  | @blank c g hc _ ih =>
    obtain ⟨w, hw, hblank⟩ := ih
    have hcode : isCodeChar c = true := by
      have hslash : c ≠ '/' := ne_of_isBlank hc (by decide)
      simp [isCodeChar, Scan.isQuote_of_isBlank hc, hslash]
    have hfirst : Leaves [c] [c] := leaves_of_codeChar (by simpa using hcode)
    exact ⟨c :: w, hfirst.append hw, List.forall_mem_cons.2 ⟨hc, hblank⟩⟩
  | @line s g hs _ ih =>
    obtain ⟨w, hw, hblank⟩ := ih
    refine ⟨('/' :: '/' :: s).flatMap blanked ++ '\n' :: w, fun r => ?_, ?_⟩
    · have hline : Lexeme.Before (.lineComment s) ('\n' :: (g ++ r)) := ⟨hs, .inr rfl⟩
      have hfeed : mask ('\n' :: (g ++ r)) = '\n' :: mask (g ++ r) := rfl
      have hmask := Lexeme.mask_text_append hline
      rw [hfeed, hw] at hmask
      simpa [Lexeme.text, Lexeme.masked, Lexeme.isComment] using hmask
    · intro c hc
      rcases List.mem_append.1 hc with hc | hc
      · exact isBlank_of_mem_blanked c hc
      · rcases List.mem_cons.1 hc with rfl | hc
        · decide
        · exact hblank c hc
  | @block s g hs _ ih =>
    obtain ⟨w, hw, hblank⟩ := ih
    refine ⟨(Lexeme.text (.blockComment s)).flatMap blanked ++ w, fun r => ?_, ?_⟩
    · have hblock : Lexeme.Before (.blockComment s) (g ++ r) := hs
      have hmask := Lexeme.mask_text_append hblock
      rw [hw] at hmask
      simpa [Lexeme.text, Lexeme.masked, Lexeme.isComment] using hmask
    · intro c hc
      rcases List.mem_append.1 hc with hc | hc
      · exact isBlank_of_mem_blanked c hc
      · exact hblank c hc

/-! ### Declarations are statements -/

def isClauseChar (c : Char) : Bool :=
  isCodeChar c && c != ';'

/-- A text that stands in the masked form of a declaration outside its path. -/
def IsClause (t : Text) : Prop :=
  ∀ c ∈ t, isClauseChar c = true

theorem isClause_of_all {t : Text} (h : t.all isClauseChar = true) : IsClause t :=
  List.all_eq_true.1 h

theorem IsClause.append {s t : Text} (hs : IsClause s) (ht : IsClause t) : IsClause (s ++ t) := by
  intro c hc
  rcases List.mem_append.1 hc with hc | hc
  · exact hs c hc
  · exact ht c hc

theorem isClause_of_blank {t : Text} (h : ∀ c ∈ t, isBlank c = true) : IsClause t := by
  intro c hc
  have hslash : c ≠ '/' := ne_of_isBlank (h c hc) (by decide)
  have hend : c ≠ ';' := ne_of_isBlank (h c hc) (by decide)
  simp [isClauseChar, isCodeChar, Scan.isQuote_of_isBlank (h c hc), hslash, hend]

theorem isClause_of_identifier {t : Text} (h : IsIdentifier t) : IsClause t := by
  intro c hc
  have hne : ∀ d : Char, isWord d = false → d ≠ '$' → c ≠ d := by
    rintro d hd hdollar rfl
    rcases h.2 c hc with hw | hw
    · rw [hw] at hd
      exact Bool.noConfusion hd
    · exact hdollar hw
  have hdouble : c ≠ '"' := hne '"' (by decide) (by decide)
  have hsimple : c ≠ '\'' := hne '\'' (by decide) (by decide)
  have hslash : c ≠ '/' := hne '/' (by decide) (by decide)
  have hend : c ≠ ';' := hne ';' (by decide) (by decide)
  simp [isClauseChar, isCodeChar, isQuote, hdouble, hsimple, hslash, hend]

theorem isClause_itemTokens {i : Text × Option Text}
    (h : ∀ name ∈ i.1 :: i.2.toList, IsIdentifier name) :
    ∀ t ∈ ImportForm.itemTokens i, IsClause t := by
  obtain ⟨name, other⟩ := i
  cases other with
  | none =>
    intro t ht
    rw [List.mem_singleton.1 ht]
    exact isClause_of_identifier (h name List.mem_cons_self)
  | some other =>
    have has : IsClause ImportForm.asWord := isClause_of_all rfl
    have hname : IsClause name := isClause_of_identifier (h name List.mem_cons_self)
    have hother : IsClause other := isClause_of_identifier (h other (by simp))
    simpa [ImportForm.itemTokens] using ⟨hname, has, hother⟩

theorem isClause_listTokens {items : List (Text × Option Text)}
    (h : ∀ i ∈ items, ∀ name ∈ i.1 :: i.2.toList, IsIdentifier name) :
    ∀ t ∈ ImportForm.listTokens items, IsClause t := by
  have hcomma : IsClause [','] := isClause_of_all rfl
  fun_induction ImportForm.listTokens items with
  | case1 => simp
  | case2 i => exact isClause_itemTokens (h i (by simp))
  | case3 i is hne ih =>
    intro t ht
    rcases List.mem_append.1 ht with ht | ht
    · exact isClause_itemTokens (h i (by simp)) t ht
    · rcases List.mem_cons.1 ht with rfl | ht
      · exact hcomma
      · exact ih (fun j hj => h j (List.mem_cons_of_mem i hj)) t ht

theorem isClause_lead {f : ImportForm} (h : ∀ name ∈ f.identifiers, IsIdentifier name) :
    ∀ t ∈ f.lead, IsClause t := by
  have has : IsClause ImportForm.asWord := isClause_of_all rfl
  have hfrom : IsClause ImportForm.fromWord := isClause_of_all rfl
  cases f with
  | plain => simp [ImportForm.lead]
  | named name => simp [ImportForm.lead]
  | star name =>
    have hstar : IsClause ['*'] := isClause_of_all rfl
    have hname : IsClause name := isClause_of_identifier (h name (by simp [ImportForm.identifiers]))
    simpa [ImportForm.lead] using ⟨hstar, has, hname, hfrom⟩
  | names items =>
    have hopen : IsClause ['\x7b'] := isClause_of_all rfl
    have hclose : IsClause ['\x7d'] := isClause_of_all rfl
    have hitems : ∀ t ∈ ImportForm.listTokens items, IsClause t :=
      isClause_listTokens fun i hi name hname => h name (List.mem_flatMap.2 ⟨i, hi, hname⟩)
    intro t ht
    simp only [ImportForm.lead, List.cons_append, List.mem_cons, List.mem_append,
      List.not_mem_nil, or_false] at ht
    rcases ht with rfl | ht | rfl | rfl
    · exact hopen
    · exact hitems t ht
    · exact hclose
    · exact hfrom

theorem isClause_trail {f : ImportForm} (h : ∀ name ∈ f.identifiers, IsIdentifier name) :
    ∀ t ∈ f.trail, IsClause t := by
  cases f with
  | plain => simp [ImportForm.trail]
  | star name => simp [ImportForm.trail]
  | names items => simp [ImportForm.trail]
  | named name =>
    have has : IsClause ImportForm.asWord := isClause_of_all rfl
    have hname : IsClause name := isClause_of_identifier (h name (by simp [ImportForm.identifiers]))
    simpa [ImportForm.trail] using ⟨has, hname⟩

/-- A text does not go on a word that stands before it. -/
def Separate (t : Text) : Prop :=
  t.head?.any isWord = false

theorem Separate.append {s t : Text} (hs : Separate s) (ht : Separate t) : Separate (s ++ t) := by
  cases s with
  | nil => exact ht
  | cons c cs => exact hs

theorem separate_of_blank {t : Text} (h : ∀ c ∈ t, isBlank c = true) : Separate t := by
  cases t with
  | nil => rfl
  | cons c cs => exact isWord_of_isBlank (h c List.mem_cons_self)

theorem exists_leaves_of_spaced {ts : List Text} {s : Text} (h : Spaced ts s)
    (hts : ∀ t ∈ ts, IsClause t) : ∃ w, Leaves s w ∧ IsClause w := by
  induction h with
  | nil => exact ⟨[], leaves_nil, by simp [IsClause]⟩
  | @cons t s g ts hg _ ih =>
    obtain ⟨ht, hts⟩ := List.forall_mem_cons.1 hts
    obtain ⟨v, hv, hblank⟩ := exists_leaves_of_gap hg
    obtain ⟨w, hw, hclause⟩ := ih hts
    have htoken : Leaves t t := leaves_of_codeChar fun c hc => (Bool.and_eq_true_iff.1 (ht c hc)).1
    exact ⟨v ++ (t ++ w), hv.append (htoken.append hw),
      (isClause_of_blank hblank).append (ht.append hclause)⟩

theorem exists_leaves_of_mark {m : Char} {ts : List Text} {s : Text} (h : Spaced ([m] :: ts) s)
    (hts : ∀ t ∈ [m] :: ts, IsClause t) (hm : isWord m = false) :
    ∃ w, Leaves s w ∧ IsClause w ∧ Separate w := by
  cases h with
  | @cons _ s g _ hg hs =>
    obtain ⟨hmc, hts⟩ := List.forall_mem_cons.1 hts
    obtain ⟨v, hv, hblank⟩ := exists_leaves_of_gap hg
    obtain ⟨w, hw, hwc⟩ := exists_leaves_of_spaced hs hts
    have hmark : Leaves [m] [m] :=
      leaves_of_codeChar fun c hc => (Bool.and_eq_true_iff.1 (hmc c hc)).1
    exact ⟨v ++ ([m] ++ w), hv.append (hmark.append hw),
      (isClause_of_blank hblank).append (hmc.append hwc), (separate_of_blank hblank).append hm⟩

/-- The keyword is a whole word: what stands behind it begins with a gap, a mark or the path. -/
theorem exists_leaves_lead {f : ImportForm} {s : Text} (h : Spaced f.lead s)
    (hid : ∀ name ∈ f.identifiers, IsIdentifier name) :
    ∃ w, Leaves s w ∧ IsClause w ∧ Separate w := by
  have hclause : ∀ t ∈ f.lead, IsClause t := isClause_lead hid
  cases f with
  | plain =>
    cases h
    exact ⟨[], leaves_nil, isClause_of_all rfl, rfl⟩
  | named name =>
    cases h
    exact ⟨[], leaves_nil, isClause_of_all rfl, rfl⟩
  | star name => exact exists_leaves_of_mark h hclause (by decide)
  | names items => exact exists_leaves_of_mark h hclause (by decide)

theorem exists_statement (d : Declaration) (hpath : d.path ≠ []) :
    ∃ s : Statement, s.path = d.path ∧ Leaves d.text s.text := by
  obtain ⟨v, hv, hvc, hsep⟩ := exists_leaves_lead d.lead_spaced d.isIdentifier
  obtain ⟨u, hu, hub⟩ := exists_leaves_of_gap d.leadGap_gap
  obtain ⟨w, hw, hwc⟩ := exists_leaves_of_spaced d.trail_spaced (isClause_trail d.isIdentifier)
  obtain ⟨g, hg, hblank⟩ := exists_leaves_of_gap d.trailGap_gap
  have hquote : Separate [d.quote] := by
    rcases isQuote_iff.1 d.quote_isQuote with hq | hq <;> rw [hq] <;> rfl
  have hclause : IsClause (v ++ u) := hvc.append (isClause_of_blank hub)
  have hrest : IsClause (w ++ g) := hwc.append (isClause_of_blank hblank)
  have hplain : ∀ {t : Text}, IsClause t → ∀ c ∈ t, isQuote c = false ∧ c ≠ ';' := by
    intro t ht c hc
    have hcc := ht c hc
    simp only [isClauseChar, isCodeChar, Bool.and_eq_true, bne_iff_ne, Bool.not_eq_true'] at hcc
    exact ⟨hcc.1.1, hcc.2⟩
  let s : Statement :=
    { clause := v ++ u
      opening := d.quote
      path := d.path
      closing := d.quote
      rest := w ++ g
      clause_plain := hplain hclause
      opening_isQuote := d.quote_isQuote
      path_ne_nil := hpath
      path_plain := fun c hc => (d.path_plain c hc).1
      closing_isQuote := d.quote_isQuote
      rest_plain := fun c hc => (hplain hrest c hc).2
      bounded := (hsep.append (separate_of_blank hub)).append hquote }
  have hkeyword : Leaves importKeyword importKeyword :=
    leaves_of_codeChar (List.all_eq_true.1 rfl)
  have hsemicolon : Leaves [';'] [';'] := leaves_of_codeChar (List.all_eq_true.1 rfl)
  have htext : s.text = importKeyword ++ ((v ++ u) ++ (d.literal ++ ((w ++ g) ++ [';']))) := by
    simp [s, Statement.text, Statement.inside, Declaration.literal]
  refine ⟨s, rfl, ?_⟩
  rw [htext]
  exact hkeyword.append ((hv.append hu).append
    ((leaves_literal d).append ((hw.append hg).append hsemicolon)))

end Source

end FlatSol
