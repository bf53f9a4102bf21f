import FlatSol.Proofs.Source.ImportForm
import FlatSol.Proofs.Text.Place

/-!
# Texts made of import declarations

Import declarations, each on a line of its own behind a margin, stand between stretches of other
text that end in code at a line break and have no line that begins with the keyword. Main statement:
the imports found in such a text are exactly the declared ones, in order, each with its lines.
-/

namespace FlatSol

open Text

/-- A declaration with the other text before it. -/
structure ImportLine where
  stretch : Text
  margin : Text
  decl : Declaration
  stretch_code : Scan.code.after stretch = .code
  margin_isMargin : ∀ c ∈ margin, isMargin c = true

namespace ImportLine

def text (e : ImportLine) : Text :=
  e.stretch ++ (e.margin ++ e.decl.text)

def textOf (es : List ImportLine) : Text :=
  es.flatMap text

/-- A text in which no line, once it is masked, has the keyword as its first word. -/
def Quiet (t : Text) : Prop :=
  ∀ l ∈ pieces '\n' (Source.mask t), Source.startsImport (l.dropWhile isMargin) = false

instance (t : Text) : Decidable (Quiet t) :=
  inferInstanceAs (Decidable (∀ l ∈ pieces '\n' (Source.mask t), _ = false))

def lineBreak : Text → Text
  | '\r' :: '\n' :: _ => ['\r', '\n']
  | '\n' :: _ => ['\n']
  | _ => []

/-- The blanks at the front of a text, with the line break if nothing else stands before it. -/
def restOfLine (t : Text) : Text :=
  t.takeWhile isMargin ++ lineBreak (t.dropWhile isMargin)

/-- The imports that are declared, the first stretch of the text being at byte `n`. -/
def declared : Nat → List ImportLine → Text → List ImportDirective
  | _, [], _ => []
  | n, e :: es, tail =>
    ⟨e.decl.path, ⟨n + byteSize e.stretch,
      n + byteSize e.text + byteSize (restOfLine (textOf es ++ tail))⟩⟩ ::
        declared (n + byteSize e.text) es tail

theorem lineRestEnd_append (a b : Text) :
    lineRestEnd (a ++ b) (byteSize a) = byteSize a + byteSize (restOfLine b) := by
  have hbreak : ∀ t : Text, lineBreakSize t = byteSize (lineBreak t) := by
    intro t
    unfold lineBreakSize
    split
    · rfl
    · rfl
    · next hcrlf hlf => rw [lineBreak, byteSize_nil] <;> assumption
  rw [lineRestEnd, dropBytes_byteSize_append, hbreak, restOfLine, byteSize_append, Nat.add_assoc]

/-! ### Quiet stretches are passed -/

/-- The rest of a line from its start on is one of the lines. -/
theorem takeWhile_mem_pieces {x : Text} (hx : startsLine x.getLast? = true) (y : Text) :
    y.takeWhile (· ≠ '\n') ∈ pieces '\n' (x ++ y) := by
  obtain ⟨ps, hps⟩ := exists_pieces_eq y
  rcases eq_nil_or_exists_of_startsLine hx with rfl | ⟨u, rfl⟩
  · rw [List.nil_append, hps]
    exact List.mem_cons_self
  · obtain ⟨l, ls, hls⟩ := exists_pieces_append_cons '\n' u y
    have hassoc : u ++ ['\n'] ++ y = u ++ '\n' :: y := by simp
    rw [hassoc, hls, hps]
    simp

/-- No statement begins with a line that does not begin with the keyword, whatever stands on the
lines behind it. -/
theorem importStatement_line_eq_none {before : Option Char} {l z : Text}
    (hl : Source.startsImport (l.dropWhile isMargin) = false) (hz : z = [] ∨ z.head? = some '\n') :
    Source.importStatement before (l ++ z) = none := by
  obtain ⟨margin, w, rfl, hmargin, -, hdrop, hw⟩ := exists_takeWhile_append (p := isMargin) (t := l)
  rw [hdrop] at hl
  rw [List.append_assoc]
  have hkeyword : Source.startsImport (w ++ z) = false := by
    rcases hz with rfl | hz
    · rwa [List.append_nil]
    · obtain ⟨v, rfl⟩ := List.head?_eq_some_iff.1 hz
      rwa [Source.startsImport_append_lineFeed]
  refine Source.importStatement_eq_none hmargin ?_ hkeyword
  intro c hc
  cases w with
  | cons d ds => exact hw c hc
  | nil =>
    rcases hz with rfl | hz
    · cases hc
    · obtain rfl : '\n' = c := by
        rw [List.nil_append, hz] at hc
        simpa using hc
      rfl

theorem findFrom_quiet {a u t : Text}
    (hu : ∀ l ∈ pieces '\n' u, Source.startsImport (l.dropWhile isMargin) = false)
    (hend : t = [] ∨ u = [] ∨ u.getLast? = some '\n') :
    Source.importStatement.findFrom (byteSize a) 0 a.getLast? (u ++ t) =
      Source.importStatement.findFrom (byteSize (a ++ u)) 0 (a ++ u).getLast? t := by
  refine Pattern.findFrom_append_of_eq_none fun x c y hxy => ?_
  by_cases hline : startsLine (a ++ x).getLast? = true
  · have hx : startsLine x.getLast? = true := by
      cases hl : x.getLast? with
      | none => rfl
      | some d => rwa [List.getLast?_append, hl] at hline
    obtain ⟨l, z, hcy, hlz, htake, -, hz⟩ :=
      exists_takeWhile_append (p := fun d => decide (d ≠ '\n')) (t := c :: y)
    have hquiet : Source.startsImport (l.dropWhile isMargin) = false := by
      apply hu
      rw [hxy, ← htake]
      exact takeWhile_mem_pieces hx (c :: y)
    rw [hcy, List.append_assoc]
    refine importStatement_line_eq_none hquiet ?_
    cases z with
    | cons d ds =>
      obtain rfl : d = '\n' := by simpa using hz d rfl
      exact .inr rfl
    | nil =>
      -- the line does not end in `u`, so it is the last one of the text
      rcases hend with rfl | rfl | hlast
      · exact .inl rfl
      · cases x <;> cases hxy
      · have hlast' : l.getLast? = some '\n' := by
          rw [List.append_nil] at hcy
          rw [hxy, hcy, List.getLast?_append] at hlast
          cases l with
          | nil => cases hcy
          | cons e es => simpa using hlast
        have hmem : '\n' ∈ l := List.mem_of_getLast? hlast'
        exact absurd (hlz '\n' hmem) (by simp)
  · exact Source.importStatement_of_not_startsLine (by simpa using hline) _

/-! ### The search finds the declarations -/

/-- The matches of the search: each declaration with its margin, up to its semicolon. -/
def found : Nat → List ImportLine → List (Found Text)
  | _, [] => []
  | n, e :: es =>
    ⟨⟨n + byteSize e.stretch, n + byteSize e.text⟩, e.decl.path⟩ :: found (n + byteSize e.text) es

theorem mask_text_append {e : ImportLine} {s : Source.Statement}
    (hs : Source.Leaves e.decl.text s.text) (r : Text) :
    Source.mask (e.text ++ r) =
      Source.mask e.stretch ++ ((e.margin ++ s.text) ++ Source.mask r) := by
  have hmargin : Source.Leaves e.margin e.margin := by
    refine Source.leaves_of_codeChar fun c hc => ?_
    rcases isMargin_iff.1 (e.margin_isMargin c hc) with rfl | rfl <;> rfl
  have hstretch : Source.Leaves e.stretch (Source.mask e.stretch) :=
    Source.leaves_of_code e.stretch_code
  have htext := hstretch.append (hmargin.append hs)
  rw [text, htext, List.append_assoc]

theorem getLast?_mask {t : Text} (h : t.getLast? = some '\n') :
    (Source.mask t).getLast? = some '\n' := by
  obtain ⟨u, rfl⟩ := List.getLast?_eq_some_iff.1 h
  rw [Scan.mask_eq_paint, Scan.paint_append_lineFeed]
  simp [Scan.paint]

theorem startsLine_append_mask {a t : Text} (h : t.getLast? = some '\n') :
    startsLine (a ++ Source.mask t).getLast? = true := by
  rw [List.getLast?_append, getLast?_mask h]
  rfl

/-- The search comes to the end of the declarations, whatever stands behind them. -/
theorem findFrom_textOf_append {es : List ImportLine} {a : Text} (tail : Text)
    (hfirst : ∀ e ∈ es.head?, startsLine (a ++ Source.mask e.stretch).getLast? = true)
    (hlater : ∀ e ∈ es.tail, e.stretch.getLast? = some '\n')
    (hquiet : ∀ e ∈ es, Quiet e.stretch) (hpath : ∀ e ∈ es, e.decl.path ≠ []) :
    ∃ b, Source.importStatement.findFrom (byteSize a) 0 a.getLast? (Source.mask (textOf es ++ tail)) =
      found (byteSize a) es ++
        Source.importStatement.findFrom (byteSize b) 0 b.getLast? (Source.mask tail) := by
  induction es generalizing a with
  | nil => exact ⟨a, rfl⟩
  | cons e es ih =>
    obtain ⟨hq, hquiet⟩ := List.forall_mem_cons.1 hquiet
    obtain ⟨hp, hpath⟩ := List.forall_mem_cons.1 hpath
    obtain ⟨s, hsp, hs⟩ := Source.exists_statement e.decl hp
    have hline : startsLine (a ++ Source.mask e.stretch).getLast? = true := hfirst e rfl
    have hend : Source.mask e.stretch = [] ∨ (Source.mask e.stretch).getLast? = some '\n' := by
      cases hl : (Source.mask e.stretch).getLast? with
      | none => exact .inl (List.getLast?_eq_none_iff.1 hl)
      | some c =>
        rw [List.getLast?_append, hl] at hline
        exact .inr (by simpa [startsLine] using hline)
    have hmatch := Source.importStatement_append hline e.margin_isMargin s
      (Source.mask (textOf es ++ tail))
    have hne : e.margin ++ s.text ≠ [] := by simp [Source.Statement.text]
    have hsize : byteSize (a ++ Source.mask e.stretch ++ (e.margin ++ s.text)) =
        byteSize a + byteSize e.text := by
      simp only [text, byteSize_append, Source.byteSize_mask, hs.byteSize_eq, Nat.add_assoc]
    have hhead : ∀ e' ∈ es.head?, startsLine (a ++ Source.mask e.stretch ++ (e.margin ++ s.text) ++
        Source.mask e'.stretch).getLast? = true :=
      fun e' he' => startsLine_append_mask (hlater e' (List.mem_of_mem_head? he'))
    obtain ⟨b, hrest⟩ := ih hhead (fun e' he' => hlater e' (List.mem_of_mem_tail he')) hquiet hpath
    have hassoc : textOf (e :: es) ++ tail = e.text ++ (textOf es ++ tail) := by
      simp [textOf]
    refine ⟨b, ?_⟩
    rw [hassoc, mask_text_append hs, findFrom_quiet hq (.inr hend),
      Pattern.findFrom_append_of_eq_some hmatch rfl hne, hrest, hsize, byteSize_append,
      Source.byteSize_mask, hsp]
    rfl

theorem findFrom_textOf {es : List ImportLine} {a tail : Text}
    (hfirst : ∀ e ∈ es.head?, startsLine (a ++ Source.mask e.stretch).getLast? = true)
    (hlater : ∀ e ∈ es.tail, e.stretch.getLast? = some '\n')
    (hquiet : ∀ e ∈ es, Quiet e.stretch) (htail : Quiet tail)
    (hpath : ∀ e ∈ es, e.decl.path ≠ []) :
    Source.importStatement.findFrom (byteSize a) 0 a.getLast? (Source.mask (textOf es ++ tail)) =
      found (byteSize a) es := by
  obtain ⟨b, hb⟩ := findFrom_textOf_append tail hfirst hlater hquiet hpath
  have hpass := findFrom_quiet (a := b) (t := []) htail (.inl rfl)
  rw [List.append_nil] at hpass
  rw [hb, hpass]
  exact List.append_nil _

theorem map_found (es : List ImportLine) (pre tail : Text) :
    (found (byteSize pre) es).map (fun f => (⟨f.value, f.span.start,
        lineRestEnd (pre ++ (textOf es ++ tail)) f.span.stop⟩ : ImportDirective)) =
      declared (byteSize pre) es tail := by
  induction es generalizing pre with
  | nil => rfl
  | cons e es ih =>
    have hassoc : pre ++ (textOf (e :: es) ++ tail) = (pre ++ e.text) ++ (textOf es ++ tail) := by
      simp [textOf]
    have hrest := ih (pre ++ e.text)
    rw [byteSize_append] at hrest
    have hend := lineRestEnd_append (pre ++ e.text) (textOf es ++ tail)
    rw [byteSize_append] at hend
    rw [hassoc, found, List.map_cons, hrest, hend]
    rfl

end ImportLine

/-- The imports of a text are the declarations that it is made of, and they take their margins, the
blanks behind them and, if nothing else follows, the line break. -/
theorem Source.imports_declared (es : List ImportLine) (tail : Text)
    (hfirst : ∀ e ∈ es.head?, e.stretch = [] ∨ e.stretch.getLast? = some '\n')
    (hlater : ∀ e ∈ es.tail, e.stretch.getLast? = some '\n')
    (hquiet : ∀ e ∈ es, ImportLine.Quiet e.stretch) (htail : ImportLine.Quiet tail)
    (hpath : ∀ e ∈ es, e.decl.path ≠ []) :
    Source.imports (ImportLine.textOf es ++ tail) = ImportLine.declared 0 es tail := by
  have hline : ∀ e ∈ es.head?, startsLine ([] ++ Source.mask e.stretch).getLast? = true := by
    intro e he
    rcases hfirst e he with hnil | hend
    · rw [hnil]
      rfl
    · exact ImportLine.startsLine_append_mask hend
  have hfound := ImportLine.findFrom_textOf hline hlater hquiet htail hpath
  have hmap := ImportLine.map_found es [] tail
  rw [← hfound] at hmap
  exact hmap

/-- The declarations `import "a";`, `import"b" as B;`, `import * as C from/*';import*/'c';` and
`import {D, E as F}` with `from "d";` on its next line, with a comment behind the second one. -/
def ImportLine.fourForms : List ImportLine :=
  have space : Gap [' '] := .blank rfl .nil
  [{ stretch := []
     margin := []
     decl :=
      { form := .plain, quote := '"', path := ['a'], lead := [], leadGap := [' '], trail := [],
        trailGap := [], isIdentifier := by simp [ImportForm.identifiers], quote_isQuote := rfl,
        path_plain := by simp [isQuote], lead_spaced := .nil, leadGap_gap := space, trail_spaced := .nil,
        trailGap_gap := .nil }
     stretch_code := rfl
     margin_isMargin := by simp [isMargin] },
   { stretch := ['\r', '\n']
     margin := ['\t']
     decl :=
      { form := .named ['B'], quote := '"', path := ['b'], lead := [], leadGap := [],
        trail := [' '] ++ (ImportForm.asWord ++ ([' '] ++ (['B'] ++ []))), trailGap := [],
        isIdentifier := by simp [ImportForm.identifiers, IsIdentifier, isWord],
        quote_isQuote := rfl, path_plain := by simp [isQuote], lead_spaced := .nil, leadGap_gap := .nil,
        trail_spaced := .cons space (.cons space .nil), trailGap_gap := .nil }
     stretch_code := rfl
     margin_isMargin := by simp [isMargin] },
   { stretch := "  // import;\n".toList
     margin := []
     decl :=
      { form := .star ['C'], quote := '\'', path := ['c'],
        lead := [' '] ++ (['*'] ++ ([' '] ++ (ImportForm.asWord ++ ([' '] ++ (['C'] ++
          ([' '] ++ (ImportForm.fromWord ++ []))))))),
        leadGap := "/*';import*/".toList, trail := [], trailGap := [],
        isIdentifier := by simp [ImportForm.identifiers, IsIdentifier, isWord],
        quote_isQuote := rfl, path_plain := by simp [isQuote],
        lead_spaced := .cons space (.cons space (.cons space (.cons space .nil))),
        leadGap_gap := .block (s := "';import".toList) (by decide) .nil, trail_spaced := .nil,
        trailGap_gap := .nil }
     stretch_code := rfl
     margin_isMargin := by simp [isMargin] },
   { stretch := ['\n']
     margin := []
     decl :=
      { form := .names [(['D'], none), (['E'], some ['F'])], quote := '"', path := ['d'],
        lead := [' '] ++ (['\x7b'] ++ ([] ++ (['D'] ++ ([] ++ ([','] ++ ([' '] ++ (['E'] ++
          ([' '] ++ (ImportForm.asWord ++ ([' '] ++ (['F'] ++ ([] ++ (['\x7d'] ++
          (['\n'] ++ (ImportForm.fromWord ++ []))))))))))))))),
        leadGap := [' '], trail := [], trailGap := [],
        isIdentifier := by simp [ImportForm.identifiers, IsIdentifier, isWord],
        quote_isQuote := rfl, path_plain := by simp [isQuote],
        lead_spaced := .cons space (.cons .nil (.cons .nil (.cons space (.cons space (.cons space
          (.cons .nil (.cons (.blank rfl .nil) .nil))))))),
        leadGap_gap := space, trail_spaced := .nil, trailGap_gap := .nil }
     stretch_code := rfl
     margin_isMargin := by simp [isMargin] }]

theorem Source.imports_declared_fourForms :
    Source.imports (ImportLine.textOf ImportLine.fourForms ++ ['\n']) =
      ImportLine.declared 0 ImportLine.fourForms ['\n'] :=
  Source.imports_declared ImportLine.fourForms ['\n'] (by rintro e ⟨⟩; exact .inl rfl) (by decide)
    (by decide) (by decide) (by decide)

/-- The declaration `import "";`. -/
def ImportLine.emptyPath : ImportLine where
  stretch := []
  margin := []
  decl :=
    { form := .plain, quote := '"', path := [], lead := [], leadGap := [' '], trail := [],
      trailGap := [], isIdentifier := by simp [ImportForm.identifiers], quote_isQuote := rfl,
      path_plain := by simp [isQuote], lead_spaced := .nil, leadGap_gap := .blank rfl .nil,
      trail_spaced := .nil, trailGap_gap := .nil }
  stretch_code := rfl
  margin_isMargin := by simp [isMargin]

/-- An import with an empty path is declared and not found. -/
theorem Source.imports_emptyPath :
    ImportLine.Quiet ImportLine.emptyPath.stretch ∧ ImportLine.Quiet ['\n'] ∧
      ImportLine.textOf [ImportLine.emptyPath] ++ ['\n'] = "import \"\";\n".toList ∧
      ImportLine.declared 0 [ImportLine.emptyPath] ['\n'] = [⟨[], ⟨0, 11⟩⟩] ∧
      Source.imports (ImportLine.textOf [ImportLine.emptyPath] ++ ['\n']) = [] := by
  decide

end FlatSol
