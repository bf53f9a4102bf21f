import FlatSol.Proofs.Flatten.Headers
import FlatSol.Proofs.Text.Block

/-!
# Flattening a flattened text

The flattened text of one file is its header and its body. Main statement: if the cut of the header
lines brings no header line and no import to light, then these are the parts of the flattened text
again, and flattening it changes nothing.
-/

namespace FlatSol

open Text Scan

namespace Source

/-! ### Statements that are not found -/

/-- What the pattern takes begins with no line feed and ends in a semicolon, whatever stands behind
that, and is taken at the start of a line as well. -/
def TakesStatements {α : Type} (p : Pattern α) : Prop :=
  ∀ before t m, p before t = some m →
    ∃ c u behind, t = c :: u ++ ';' :: behind ∧ c ≠ '\n' ∧
      ∀ before' behind', startsLine before' = true ∨ before' = before →
        ∃ m', p before' (c :: u ++ ';' :: behind') = some m' ∧ 0 < m'.length

theorem takesStatements_pragma : TakesStatements pragmaStatement := by
  intro before t m h
  obtain ⟨hword, s, behind, rfl, rfl⟩ := pragmaStatement_eq_some_iff.1 h
  have hpos : 0 < s.text.length := by simp [PragmaForm.text]
  have htext : ∀ r, s.text ++ r =
      'p' :: (pragmaKeyword.tail ++ s.gap ++ s.name ++ s.rest) ++ ';' :: r := fun r => by
    simp [PragmaForm.text, pragmaKeyword]
  refine ⟨'p', _, behind, htext behind, by decide, fun before' behind' hbefore => ?_⟩
  have hword' : startsWord before' = true := by
    rcases hbefore with hline | rfl
    · exact startsWord_of_startsLine hline
    · exact hword
  exact ⟨_, htext behind' ▸ pragmaStatement_append hword' s behind', hpos⟩

theorem takesStatements_import : TakesStatements importStatement := by
  intro before t m h
  obtain ⟨hline, margin, s, behind, hmargin, rfl, rfl⟩ := exists_of_importStatement h
  have hpos : 0 < (margin ++ s.text).length := by simp [Statement.text]
  obtain ⟨c, u, hu, hc⟩ : ∃ c u, margin ++ (importKeyword ++ s.inside) = c :: u ∧ c ≠ '\n' := by
    cases margin with
    | nil => exact ⟨'i', _, rfl, by decide⟩
    | cons d ds =>
      refine ⟨d, _, rfl, ?_⟩
      rintro rfl
      exact lineFeed_notMem_of_isMargin hmargin List.mem_cons_self
  have htext : ∀ r, margin ++ s.text ++ r = c :: u ++ ';' :: r := fun r => by
    simp [← hu, Statement.text]
  refine ⟨c, u, behind, htext behind, hc, fun before' behind' hbefore => ?_⟩
  have hline' : startsLine before' = true := by
    rcases hbefore with h' | rfl
    · exact h'
    · exact hline
  exact ⟨_, htext behind' ▸ importStatement_append hline' hmargin s behind', hpos⟩

/-- Line feeds around a text do not let a statement be found in it. -/
theorem absent_lineFeeds {α : Type} {p : Pattern α} (hp : TakesStatements p) {t : Text}
    (h : p.findAll t = []) (i j : Nat) :
    Absent p (List.replicate i '\n' ++ t ++ List.replicate j '\n') := by
  intro a ha
  refine Pattern.findFrom_eq_nil fun x y hxy => ?_
  cases hm : p (a ++ x).getLast? y with
  | none => rfl
  | some m =>
    -- what is taken here stands in the text itself, and is taken there as well
    obtain ⟨c, u, behind, rfl, hc, htakes⟩ := hp _ _ _ hm
    obtain ⟨x', behind', rfl, rfl⟩ := exists_of_lineFeeds_append hc (by decide) hxy
    have hbefore : startsLine x'.getLast? = true ∨
        x'.getLast? = (a ++ (List.replicate i '\n' ++ x')).getLast? := by
      cases x' with
      | nil => exact .inl rfl
      | cons d ds =>
        refine .inr ?_
        rw [← List.append_assoc, List.getLast?_append_of_ne_nil _ (List.cons_ne_nil d ds)]
    obtain ⟨m', hm', hpos⟩ := htakes _ behind' hbefore
    obtain ⟨f, hf, -⟩ := Pattern.exists_covering hm' hpos (by simp)
    rw [h] at hf
    exact absurd hf List.not_mem_nil

/-! ### Imports in front of which header lines stand -/

/-- Whether an import statement may stand at the front of a line, by its first character. -/
def mayImport (l : Text) : Bool :=
  (l.dropWhile isMargin).head? == some 'i'

theorem mayImport_append_lineFeed (l t : Text) : mayImport (l ++ '\n' :: t) = mayImport l := by
  induction l with
  | nil => rfl
  | cons c cs ih =>
    simp only [mayImport] at ih ⊢
    by_cases hc : isMargin c = true
    · rw [List.cons_append, List.dropWhile_cons_of_pos hc, List.dropWhile_cons_of_pos hc, ih]
    · rw [List.cons_append, List.dropWhile_cons_of_neg hc, List.dropWhile_cons_of_neg hc]
      rfl

theorem mayImport_of_importStatement {before : Option Char} {t : Text} {m : Match Text}
    (h : importStatement before t = some m) : mayImport t = true := by
  obtain ⟨-, margin, s, behind, hmargin, rfl, -⟩ := exists_of_importStatement h
  rw [mayImport, List.append_assoc, List.dropWhile_append_of_pos hmargin]
  rfl

theorem mayImport_of_blank {l : Text} (h : ∀ c ∈ l, isBlank c = true) : mayImport l = false := by
  cases hd : l.dropWhile isMargin with
  | nil => rw [mayImport, hd]; rfl
  | cons c cs =>
    have hc : isBlank c = true := h c ((List.dropWhile_sublist _).mem (hd ▸ List.mem_cons_self))
    have hne : c ≠ 'i' := ne_of_isBlank hc rfl
    rw [mayImport, hd, List.head?_cons]
    simpa using hne

theorem findFrom_import_line {a l t : Text} (hl : '\n' ∉ l) (hi : mayImport l = false) :
    importStatement.findFrom (byteSize a) 0 a.getLast? (l ++ ['\n'] ++ t) =
      importStatement.findFrom (byteSize (a ++ (l ++ ['\n']))) 0 (a ++ (l ++ ['\n'])).getLast? t := by
  refine Pattern.findFrom_append_of_eq_none fun x c y hxy => ?_
  cases hm : importStatement (a ++ x).getLast? (c :: y ++ t) with
  | none => rfl
  | some m =>
    obtain ⟨hline, -⟩ := exists_of_importStatement hm
    have hx : '\n' ∉ x := by
      rcases List.append_eq_append_iff.1 hxy with ⟨z, rfl, hz⟩ | ⟨z, rfl, -⟩
      · cases z with
        | nil => simpa using hl
        | cons e es => simp at hz
      · exact fun hmem => hl (List.mem_append_left z hmem)
    -- a line starts at the front only
    obtain rfl : x = [] := by
      cases x with
      | nil => rfl
      | cons d ds =>
        rw [List.getLast?_append_of_ne_nil _ (List.cons_ne_nil d ds)] at hline
        rcases eq_nil_or_exists_of_startsLine hline with hnil | ⟨z, hz⟩
        · exact hnil
        · rw [hz] at hx
          simp at hx
    have hmay := mayImport_of_importStatement hm
    rw [List.nil_append] at hxy
    rw [← hxy, List.append_assoc, List.singleton_append, mayImport_append_lineFeed, hi] at hmay
    cases hmay

theorem absent_import_headerText {ls : List Text} {t : Text}
    (hls : ∀ l ∈ ls, '\n' ∉ l ∧ mayImport l = false) (ht : Absent importStatement t) :
    Absent importStatement (Render.headerText ls ++ t) := by
  induction ls with
  | nil => exact ht
  | cons l ls ih =>
    obtain ⟨⟨hl, hi⟩, hrest⟩ := List.forall_mem_cons.1 hls
    intro a _
    have htext : Render.headerText (l :: ls) ++ t =
        l ++ ['\n'] ++ (Render.headerText ls ++ t) := by
      simp [Render.headerText]
    rw [htext, findFrom_import_line hl hi]
    apply ih hrest
    simp [startsLine]

/-! ### The spans of header lines -/

theorem lineRestEnd_append_lineFeed (a t : Text) :
    lineRestEnd (a ++ '\n' :: t) (byteSize a) = byteSize a + 1 := by
  simp [lineRestEnd, isMargin, lineBreakSize]

theorem covers_foundLines (ss : List PragmaForm) (a t : Text) (n : Nat) :
    covers ((foundLines (byteSize a) ss).map fun f => ⟨f.span.start,
      lineRestEnd (a ++ (Render.headerText (ss.map PragmaForm.text) ++ t)) f.span.stop⟩) n = true ↔
        byteSize a ≤ n ∧ n < byteSize a + byteSize (Render.headerText (ss.map PragmaForm.text)) := by
  induction ss generalizing a with
  | nil =>
    have hnil : byteSize (Render.headerText []) = 0 := rfl
    simp only [foundLines, List.map_nil, covers_eq_true_iff, List.not_mem_nil, false_and,
      exists_false, false_iff, not_and]
    omega
  | cons s ss ih =>
    have htext : a ++ (Render.headerText ((s :: ss).map PragmaForm.text) ++ t) =
        (a ++ s.text ++ ['\n']) ++ (Render.headerText (ss.map PragmaForm.text) ++ t) := by
      simp [Render.headerText]
    have hline : a ++ (Render.headerText ((s :: ss).map PragmaForm.text) ++ t) =
        (a ++ s.text) ++ '\n' :: (Render.headerText (ss.map PragmaForm.text) ++ t) := by
      simp [Render.headerText]
    have hstop := lineRestEnd_append_lineFeed (a ++ s.text)
      (Render.headerText (ss.map PragmaForm.text) ++ t)
    have hsize : byteSize (a ++ s.text ++ ['\n']) = byteSize a + byteSize s.text + 1 := by
      rw [byteSize_append, byteSize_append]
      rfl
    have hheader : byteSize (Render.headerText ((s :: ss).map PragmaForm.text)) =
        byteSize s.text + 1 + byteSize (Render.headerText (ss.map PragmaForm.text)) := by
      have hcons : Render.headerText ((s :: ss).map PragmaForm.text) =
          s.text ++ ['\n'] ++ Render.headerText (ss.map PragmaForm.text) := by
        simp [Render.headerText]
      rw [hcons, byteSize_append, byteSize_append]
      rfl
    have hrest := ih (a ++ s.text ++ ['\n'])
    rw [hsize, ← htext] at hrest
    rw [← hline, byteSize_append] at hstop
    rw [foundLines, List.map_cons, ← List.singleton_append, covers_append, Bool.or_eq_true, hrest,
      hheader]
    simp only [covers_eq_true_iff, List.mem_singleton, exists_eq_left, hstop]
    omega

end Source

namespace Render

/-! ### One file -/

/-- A file that imports nothing; its path plays no part. -/
def onePortion (t : Text) : Portion :=
  ⟨⟨[]⟩, Source.split t []⟩

/-- What such a file is flattened to. -/
def alone (t : Text) : Text :=
  assemble (headerLines [onePortion t]) (blocks ⟨[]⟩ false [onePortion t])

theorem exists_split_onePortion (t : Text) :
    ∀ p ∈ [onePortion t], ∃ t strip, p.parts = Source.split t strip := by
  intro p hp
  rw [List.mem_singleton.1 hp]
  exact ⟨t, [], rfl⟩

theorem kept_onePortion (t : Text) :
    keptLicense [onePortion t] = (Source.split t []).license ∧
      keptVersion [onePortion t] = (Source.split t []).versionPragma ∧
      keptPragmas [onePortion t] = (Source.split t []).otherPragmas := by
  refine ⟨by simp [keptLicense, onePortion], by simp [keptVersion, onePortion], ?_⟩
  have hother : (Source.split t []).otherPragmas.Nodup := nodup_eraseDups _
  rw [keptPragmas, List.flatMap_singleton]
  exact eraseDups_of_nodup hother

/-! ### The parts of the flattened text -/

end Render

namespace Source

/-- A text whose header lines can be cut without bringing a header line or an import to light. -/
structure Settles (t : Text) : Prop where
  license : licenses (split t []).body = []
  pragma : pragmas (split t []).body = []
  imports : imports (split t []).body = []
  /-- The pragma statements of the header open no comment on their lines. -/
  oneLine : ∀ l ∈ (split t []).versionPragma.toList ++ (split t []).otherPragmas, mask l = l

/-- So it is if the cuts keep the header lines and the imports of the text. -/
theorem settles_of_keeps {t : Text} (himports : imports t = []) (hheaders : KeepsHeaders t [])
    (hkeeps : KeepsImports t []) (hend : (Scan.code.after t).inBlock = false)
    (hline : ∀ l ∈ (split t []).versionPragma.toList ++ (split t []).otherPragmas, mask l = l) :
    Settles t := by
  have hpaths : pathsWithout t [] = [] := by
    rw [pathsWithout, himports]
    rfl
  have hlicense := lacks_license_body hheaders (by simp)
  have hpragma := lacks_pragma_body hheaders (by simp) hend
  have hreads := reads_body hkeeps (by simp) hend
  rw [hpaths] at hreads
  refine ⟨licenses_of_lacks hlicense, ?_, ?_, hline⟩
  · rw [pragmas, List.map_eq_nil_iff]
    exact findFrom_of_lacks (a := []) rfl hpragma
  · rw [imports, List.map_eq_nil_iff]
    exact List.map_eq_nil_iff.1 (findAll_of_reads hreads)

end Source

namespace Render

section Parts

variable {t : Text} {i j : Nat}

/-- The body of a text between line feeds, as it stands behind the header. -/
def bodyLines (i j : Nat) (t : Text) : Text :=
  List.replicate i '\n' ++ (Source.split t []).body ++ List.replicate j '\n'

theorem exists_alone_eq (t : Text) :
    ∃ i j, alone t = headerText (headerLines [onePortion t]) ++ bodyLines i j t := by
  obtain ⟨i, j, h⟩ := exists_assemble_eq (headerLines [onePortion t])
    (blocks ⟨[]⟩ false [onePortion t])
  have hblocks : joinWith ['\n', '\n'] (blocks ⟨[]⟩ false [onePortion t]) =
      (Source.split t []).body := by
    rw [blocks_eq ⟨[]⟩ (exists_split_onePortion t)]
    show joinWith _ ([(Source.split t []).body].filter _) = _
    cases (Source.split t []).body <;> rfl
  rw [hblocks] at h
  exact ⟨i, j, h⟩

theorem pragmaLines_onePortion (t : Text) : pragmaLines [onePortion t] =
    (Source.split t []).versionPragma.toList ++ (Source.split t []).otherPragmas := by
  obtain ⟨-, hversion, hothers⟩ := kept_onePortion t
  rw [pragmaLines, hversion, hothers]

theorem mask_bodyLines (i j : Nat) (t : Text) : Source.mask (bodyLines i j t) =
    List.replicate i '\n' ++ Source.mask (Source.split t []).body ++ List.replicate j '\n' := by
  rw [bodyLines, mask_eq_paint, paint_append_lineFeeds, paint_code_lineFeeds_append, mask_eq_paint]

theorem licenses_header_bodyLines (h : Source.Settles t) :
    Source.licenses (headerText (headerLines [onePortion t]) ++ bodyLines i j t) =
      (keptLicense [onePortion t]).toList.map fun k => ⟨⟨0, byteSize (k ++ ['\n'])⟩, k⟩ := by
  apply licenses_headerLines (exists_split_onePortion t)
  exact (Source.lacks_of_licenses_eq_nil h.license).lineFeeds Source.beginning_license i j

theorem findAll_header_bodyLines (h : Source.Settles t) {ss : List Source.PragmaForm}
    (hss : pragmaLines [onePortion t] = ss.map Source.PragmaForm.text) :
    Source.pragmaStatement.findAll
        (Source.mask (headerText (headerLines [onePortion t]) ++ bodyLines i j t)) =
      Source.foundLines (byteSize (headerText (keptLicense [onePortion t]).toList)) ss := by
  apply findAll_headerLines (exists_split_onePortion t) _ hss
  · rw [mask_bodyLines]
    apply Source.absent_lineFeeds Source.takesStatements_pragma
    exact List.map_eq_nil_iff.1 h.pragma
  · rw [pragmaLines_onePortion]
    exact h.oneLine

theorem covers_header_bodyLines (h : Source.Settles t) (n : Nat) :
    covers (Source.cutSpans (headerText (headerLines [onePortion t]) ++ bodyLines i j t) []) n =
      true ↔ n < byteSize (headerText (headerLines [onePortion t])) := by
  obtain ⟨ss, hss, -, -⟩ := exists_forms (exists_split_onePortion t)
  have hpragmas := findAll_header_bodyLines (i := i) (j := j) h hss
  have hlicenses := licenses_header_bodyLines (i := i) (j := j) h
  have hheader : headerText (headerLines [onePortion t]) =
      headerText (keptLicense [onePortion t]).toList ++
        headerText (ss.map Source.PragmaForm.text) := by
    rw [headerLines_eq, hss, headerText, List.flatMap_append]
    rfl
  have hlicense : covers ((Source.licenses (headerText (headerLines [onePortion t]) ++
      bodyLines i j t)).map Found.span) n = true ↔
        n < byteSize (headerText (keptLicense [onePortion t]).toList) := by
    rw [hlicenses]
    cases keptLicense [onePortion t] with
    | none => simp [covers, headerText]
    | some k => simp [covers, headerText]
  have hlines := Source.covers_foundLines ss
    (headerText (keptLicense [onePortion t]).toList) (bodyLines i j t) n
  rw [← List.append_assoc, ← hheader] at hlines
  rw [Source.cutSpans, List.nil_append, covers_append, Bool.or_eq_true, hlicense, Source.pragmas,
    hpragmas, List.map_map]
  refine (or_congr Iff.rfl hlines).trans ?_
  rw [hheader, byteSize_append]
  omega

theorem cut_header_bodyLines (h : Source.Settles t) :
    cut (Source.cutSpans (headerText (headerLines [onePortion t]) ++ bodyLines i j t) [])
      (headerText (headerLines [onePortion t]) ++ bodyLines i j t) = bodyLines i j t := by
  have hcovers := covers_header_bodyLines (i := i) (j := j) h
  have hheader : keep (fun n => !covers (Source.cutSpans
      (headerText (headerLines [onePortion t]) ++ bodyLines i j t) []) n) 0
        (headerText (headerLines [onePortion t])) = [] := by
    apply keep_eq_nil
    intro k _ hk
    rw [Nat.zero_add] at hk
    rw [(hcovers k).2 hk, Bool.not_true]
  rw [cut_eq_keep (Source.fits_of_mem_cutSpans (by simp)), keep_append, hheader, List.nil_append]
  apply keep_eq_self
  intro k hk _
  rw [Nat.zero_add] at hk
  rw [Bool.not_eq_true', Bool.eq_false_iff, Ne, hcovers k]
  omega

/-- The text of a file that imports nothing has the parts of the file. -/
theorem split_header_bodyLines (h : Source.Settles t) :
    Source.split (headerText (headerLines [onePortion t]) ++ bodyLines i j t) [] =
      Source.split t [] := by
  obtain ⟨hlicense, hversion, hothers⟩ := kept_onePortion t
  obtain ⟨ss, hss, hversions, hrest⟩ := exists_forms (exists_split_onePortion t)
  have hlicenses := licenses_header_bodyLines (i := i) (j := j) h
  have hpragmas := findAll_header_bodyLines (i := i) (j := j) h hss
  have hcut := cut_header_bodyLines (i := i) (j := j) h
  generalize headerText (headerLines [onePortion t]) ++ bodyLines i j t = u at *
  have hfound : (Source.pragmas u).map Found.value = ss.map Source.PragmaForm.pragma := by
    rw [Source.pragmas, List.map_map, hpragmas]
    exact Source.map_value_foundLines _ ss
  have hfirst : (Source.split u []).license = (Source.split t []).license := by
    rw [← hlicense, Source.split, hlicenses]
    cases keptLicense [onePortion t] <;> rfl
  have hsecond : (Source.split u []).versionPragma = (Source.split t []).versionPragma := by
    rw [← hversion, Source.split]
    simp only [hfound]
    rw [← List.head?_map, hversions]
    cases keptVersion [onePortion t] <;> rfl
  have hthird : (Source.split u []).otherPragmas = (Source.split t []).otherPragmas := by
    rw [← hothers, Source.split]
    simp only [hfound, hrest]
    exact eraseDups_of_nodup (nodup_eraseDups _)
  have hbody : (Source.split u []).body = (Source.split t []).body := by
    show asBlock (cut (Source.cutSpans u []) u) = _
    rw [hcut, bodyLines, asBlock_lineFeeds]
    exact asBlock_asBlock _
  cases hu : Source.split u []
  simp only [hu] at hfirst hsecond hthird hbody
  rw [hfirst, hsecond, hthird, hbody]

theorem mayImport_headerLine (h : Source.Settles t) :
    ∀ m ∈ (headerLines [onePortion t]).map Source.mask,
      '\n' ∉ m ∧ Source.mayImport m = false := by
  intro m hm
  obtain ⟨l, hl, rfl⟩ := List.mem_map.1 hm
  rw [headerLines_eq, pragmaLines_onePortion] at hl
  rcases List.mem_append.1 hl with hl | hl
  · obtain ⟨t', f, hf, rfl⟩ := exists_license (exists_split_onePortion t) hl
    have hblank := (Source.license_reads hf).1
    refine ⟨?_, Source.mayImport_of_blank hblank⟩
    rw [mask_eq_paint]
    exact Source.lineFeed_notMem_paint (Source.license_value hf).2.2
  · rw [h.oneLine l hl]
    rw [← pragmaLines_onePortion] at hl
    obtain ⟨t', f, hf, rfl⟩ := exists_pragma (exists_split_onePortion t) hl
    obtain ⟨-, ⟨u, hu⟩, hfeed⟩ := Source.exists_pragma_statement hf
    refine ⟨hfeed, ?_⟩
    rw [hu]
    rfl

theorem imports_alone (h : Source.Settles t) : Source.imports (alone t) = [] := by
  obtain ⟨i, j, htext⟩ := exists_alone_eq t
  have hbody : Source.Absent Source.importStatement (Source.mask (bodyLines i j t)) := by
    rw [mask_bodyLines]
    apply Source.absent_lineFeeds Source.takesStatements_import
    exact List.map_eq_nil_iff.1 h.imports
  have hall := Source.absent_import_headerText (mayImport_headerLine h) hbody
  have hpragmas : ∀ l ∈ pragmaLines [onePortion t], Source.mask l = l := by
    rw [pragmaLines_onePortion]
    exact h.oneLine
  rw [Source.imports, htext, mask_headerLines (exists_split_onePortion t) hpragmas,
    List.map_eq_nil_iff]
  exact hall [] rfl

theorem alone_alone (h : Source.Settles t) : alone (alone t) = alone t := by
  obtain ⟨i, j, htext⟩ := exists_alone_eq t
  have hsplit : Source.split (alone t) [] = Source.split t [] := by
    rw [htext]
    exact split_header_bodyLines h
  have hportion : onePortion (alone t) = onePortion t := by
    rw [onePortion, hsplit]
    rfl
  rw [alone, hportion]
  rfl

end Parts

end Render

/-- The path leads to a file with this text. -/
def FileTree.Gives (t : FileTree) (p : Path) (text : Text) : Prop :=
  ∃ l, t.locate p = .ok l ∧ t.textAt l = .ok text

namespace Graph

/-- The graph of a file that imports nothing. -/
def single (l : Location) (text : Text) : Graph :=
  ⟨[⟨l, text, []⟩], [], [], []⟩

theorem flattenOrder_single (l : Location) (text : Text) :
    (single l text).flattenOrder = [⟨l, text, []⟩] := by
  have hstep : Tour.step? (single l text) ⟨[(l, [])], [], []⟩ = some ⟨[], [], [l]⟩ := rfl
  have horder : (single l text).orderedLocations = [l] := by
    show Tour.run (single l text) ⟨[(l, [])], [], []⟩ = [l]
    rw [Tour.run_of_step hstep, Tour.run_of_empty]
  have hfile : (single l text).fileAt? l = some ⟨l, text, []⟩ := by
    simp [fileAt?, single]
  rw [flattenOrder, horder, List.filterMap_cons, hfile]
  rfl

theorem text_render_single (l : Location) (text : Text) (project : Path) {s : Settings}
    (hs : s.sourceComments = false) : (render (single l text) project s).text = Render.alone text := by
  rw [render, flattenOrder_single, hs]
  rfl

variable {t : FileTree} {entry root : Path} {l : Location} {text : Text}

theorem build_single (hl : t.locate entry = .ok l) (htext : t.textAt l = .ok text)
    (himports : Source.imports text = []) : build t entry root = .ok (single l text) := by
  have hstart : Build.start t (t.normalize root) l text =
      ⟨single l text, [⟨l, []⟩], [l]⟩ := by
    simp [Build.start, Build.enter, Build.importsOf, Build.missing, himports, single, empty]
  have hleave : Build.step? t (t.normalize root) ⟨single l text, [⟨l, []⟩], [l]⟩ =
      some ⟨single l text, [], [l].erase l⟩ := rfl
  simp only [build, hl, htext, hstart]
  rw [Build.run_of_step hleave, Build.run_of_empty]

/-- A file that imports nothing is flattened to a text without imports, and that text to itself, if
the cut of its header lines brings no header line and no import to light. -/
theorem render_settled (hfile : t.Gives entry text) (himports : Source.imports text = [])
    (h : Source.Settles text) {s : Settings} (hs : s.sourceComments = false) (root project : Path) :
    ∃ g, build t entry root = .ok g ∧ Source.imports (render g project s).text = [] ∧
      ∀ {u : FileTree} {again : Path} (base place : Path),
        u.Gives again (render g project s).text →
          ∃ k, build u again base = .ok k ∧
            (render k place s).text = (render g project s).text := by
  obtain ⟨l, hl, htext⟩ := hfile
  have hrender := text_render_single l text project hs
  refine ⟨single l text, build_single hl htext himports, ?_, ?_⟩
  · rw [hrender]
    exact Render.imports_alone h
  · rw [hrender]
    intro u again base place ⟨k, hk, hagain⟩
    refine ⟨single k (Render.alone text), build_single hk hagain (Render.imports_alone h), ?_⟩
    rw [text_render_single k _ place hs]
    exact Render.alone_alone h

/-- A directory of one file. -/
def loneTree (a : Text) : FileTree where
  entries := [(["p".toList], .dir), (["p".toList, "A".toList], .file (toBytes a))]
  workDir := some ["p".toList]

theorem gives_loneTree (a : Text) : (loneTree a).Gives ⟨"A".toList⟩ a := by
  have hfile : (loneTree a).get? ["p".toList, "A".toList] = some (.file (toBytes a)) := by cbv
  refine ⟨["p".toList, "A".toList], by cbv, ?_⟩
  simp only [FileTree.textAt, hfile, ofBytes?_toBytes]

/-- Header lines in the midst of a text, and white space to be taken away. -/
def looseText : Text :=
  "A \n// SPDX-License-Identifier: M\npragma  solidity 1;\n\n".toList

def settledText : Text :=
  "// SPDX-License-Identifier: M\npragma solidity 1;\n\nA\n".toList

theorem settles_looseText : Source.Settles looseText := by
  have hsplit : Source.split looseText [] =
      ⟨some "// SPDX-License-Identifier: M".toList, some "pragma solidity 1;".toList, [],
        ['A']⟩ := by cbv
  refine ⟨?_, ?_, ?_, ?_⟩ <;> rw [hsplit]
  · cbv
  · cbv
  · cbv
  · decide

theorem render_settled_looseText :
    ∃ g, build (loneTree looseText) ⟨"A".toList⟩ ⟨"/p".toList⟩ = .ok g ∧
      (render g ⟨"/p".toList⟩ {}).text = settledText ∧ Source.imports settledText = [] ∧
        ∃ k, build (loneTree settledText) ⟨"A".toList⟩ ⟨"/p".toList⟩ = .ok k ∧
          (render k ⟨"/p".toList⟩ {}).text = settledText := by
  have hnone : Source.imports looseText = [] := by cbv
  have hgives := gives_loneTree looseText
  obtain ⟨g, hg, himports, hagain⟩ := render_settled (s := {}) hgives hnone
    settles_looseText rfl ⟨"/p".toList⟩ ⟨"/p".toList⟩
  obtain ⟨l, hl, htext⟩ := hgives
  obtain rfl : single l looseText = g := by
    rw [build_single hl htext hnone] at hg
    exact Except.ok.inj hg
  have hrender : (render (single l looseText) ⟨"/p".toList⟩ {}).text = settledText := by
    rw [text_render_single l looseText _ rfl]
    cbv
  rw [hrender] at himports hagain
  exact ⟨_, hg, hrender, himports, hagain _ _ (gives_loneTree settledText)⟩

/-- An import behind a pragma statement: it starts its line once the pragma is cut. -/
def hiddenText : Text :=
  "pragma p;import './B';\nA".toList

theorem render_settled_hiddenText :
    Source.imports hiddenText = [] ∧
      build (loneTree hiddenText) ⟨"A".toList⟩ ⟨"/p".toList⟩ =
        .ok (single ["p".toList, "A".toList] hiddenText) ∧
      Source.imports (render (single ["p".toList, "A".toList] hiddenText) ⟨"/p".toList⟩ {}).text ≠
        [] := by
  have himports : Source.imports
      (render (single ["p".toList, "A".toList] hiddenText) ⟨"/p".toList⟩ {}).text =
        [⟨"./B".toList, ⟨11, 25⟩⟩] := by
    rw [text_render_single _ _ _ rfl]
    cbv
  refine ⟨by cbv, by cbv, ?_⟩
  rw [himports]
  exact List.cons_ne_nil _ _

end Graph

end FlatSol
