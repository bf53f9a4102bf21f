import FlatSol.Proofs.Flatten.Code
import FlatSol.Proofs.Flatten.Kept
import FlatSol.Proofs.Graph.Warnings

/-!
# Flattening leaves the unresolved imports

The import statements found in a flattened text are the unresolved ones of the files, in their order,
each statement once if statements are written only once.
-/

namespace FlatSol

open Text Scan

namespace Render

/-- The unresolved imports of a file, each as its statement and its path. -/
def leftovers (text : Text) (imports : List (ImportDirective × Resolution)) : List (Text × Text) :=
  imports.filterMap fun i =>
    match i.2 with
    | .resolved _ => none
    | .unresolved _ => some (i.1.statement text, i.1.path)

/-- The imports that stay, behind the statements seen before: all of them, or the first one of each
statement. -/
def staying (dedupe : Bool) : List Text → List (Text × Text) → List (Text × Text)
  | _, [] => []
  | seen, u :: us =>
    if u.1 ∈ seen then
      if dedupe then staying dedupe seen us else u :: staying dedupe seen us
    else u :: staying dedupe (u.1 :: seen) us

theorem staying_false (seen : List Text) (us : List (Text × Text)) :
    staying false seen us = us := by
  induction us generalizing seen with
  | nil => rfl
  | cons u us ih =>
    rw [staying]
    split
    · rw [if_neg Bool.false_ne_true, ih]
    · rw [ih]

theorem staying_true (seen : List Text) (us : List (Text × Text)) :
    staying true seen us =
      (us.filter fun u => decide (u.1 ∉ seen)).eraseDupsBy fun a b => a.1 == b.1 := by
  induction us generalizing seen with
  | nil => rfl
  | cons u us ih =>
    rw [staying]
    by_cases hu : u.1 ∈ seen
    · rw [if_pos hu, if_pos rfl, ih, List.filter_cons_of_neg (by simp [hu])]
    · rw [if_neg hu, ih, List.filter_cons_of_pos (by simp [hu]), List.eraseDupsBy_cons,
        List.filter_filter]
      congr 2
      refine List.filter_congr fun v _ => ?_
      by_cases hv : v.1 = u.1 <;> simp [hv]

theorem staying_sublist (dedupe : Bool) (seen : List Text) (us : List (Text × Text)) :
    (staying dedupe seen us).Sublist us := by
  induction us generalizing seen with
  | nil => exact List.Sublist.slnil
  | cons u us ih =>
    rw [staying]
    split
    · split
      · exact (ih seen).cons u
      · exact (ih seen).cons_cons u
    · exact (ih (u.1 :: seen)).cons_cons u

/-- The imports that stay behind other ones stay behind the statements that those leave seen. -/
theorem staying_append (dedupe : Bool) (text : Text) (seen : List Text)
    (imports : List (ImportDirective × Resolution)) (us : List (Text × Text)) :
    staying dedupe seen (leftovers text imports ++ us) =
      staying dedupe seen (leftovers text imports) ++
        staying dedupe (strips dedupe text seen imports).2 us := by
  induction imports generalizing seen with
  | nil => rfl
  | cons i is ih =>
    obtain ⟨d, r⟩ := i
    cases r with
    | resolved l => exact ih seen
    | unresolved why =>
      have hleft : leftovers text ((d, .unresolved why) :: is) =
          (d.statement text, d.path) :: leftovers text is := rfl
      rw [hleft, List.cons_append, staying, staying, strips]
      by_cases hseen : d.statement text ∈ seen
      · simp only [if_pos hseen, ih]
        cases dedupe <;> rfl
      · simp only [if_neg hseen, ih]
        rfl

theorem filter_strips {dedupe : Bool} {text : Text} {seen : List Text}
    {imports : List (ImportDirective × Resolution)}
    (hn : (imports.map fun i => i.1.span).Nodup) :
    ((imports.map Prod.fst).filter fun d =>
        decide (d.span ∉ (strips dedupe text seen imports).1)).map ImportDirective.path =
      (staying dedupe seen (leftovers text imports)).map Prod.snd := by
  induction imports generalizing seen with
  | nil => rfl
  | cons i is ih =>
    obtain ⟨d, r⟩ := i
    rw [List.map_cons, List.nodup_cons] at hn
    obtain ⟨hnew, hrest⟩ := hn
    -- a span that is cut for the other imports is one of theirs
    have hlater : ∀ seen, d.span ∉ (strips dedupe text seen is).1 := by
      intro seen hmem
      obtain ⟨before, i, after, rfl, -, hspan⟩ := mem_strips_iff.1 hmem
      exact hnew (List.mem_map.2 ⟨i, by simp, hspan⟩)
    have hother : ∀ seen, ∀ e ∈ is.map Prod.fst,
        decide (e.span ∉ d.span :: (strips dedupe text seen is).1) =
          decide (e.span ∉ (strips dedupe text seen is).1) := by
      intro seen e he
      obtain ⟨i, hi, rfl⟩ := List.mem_map.1 he
      have hne : i.1.span ≠ d.span := fun h => hnew (List.mem_map.2 ⟨i, hi, h⟩)
      simp [hne]
    have hcut : ∀ seen, ((d :: is.map Prod.fst).filter fun e =>
        decide (e.span ∉ d.span :: (strips dedupe text seen is).1)).map ImportDirective.path =
          (staying dedupe seen (leftovers text is)).map Prod.snd := by
      intro seen
      rw [List.filter_cons_of_neg (by simp), List.filter_congr (hother seen), ih hrest]
    have hkept : ∀ seen, ((d :: is.map Prod.fst).filter fun e =>
        decide (e.span ∉ (strips dedupe text seen is).1)).map ImportDirective.path =
          d.path :: (staying dedupe seen (leftovers text is)).map Prod.snd := by
      intro seen
      rw [List.filter_cons_of_pos (by simp [hlater seen]), List.map_cons, ih hrest]
    cases r with
    | resolved l => exact hcut seen
    | unresolved why =>
      have hleft : leftovers text ((d, .unresolved why) :: is) =
          (d.statement text, d.path) :: leftovers text is := rfl
      rw [hleft, staying, strips]
      by_cases hseen : d.statement text ∈ seen
      · simp only [if_pos hseen]
        cases dedupe with
        | true => exact hcut seen
        | false => exact hkept seen
      · simp only [if_neg hseen]
        exact hkept (d.statement text :: seen)

theorem flatMap_pathsWithout {dedupe : Bool} {seen : List Text} {files : List SourceFile}
    (hf : ∀ f ∈ files, f.imports.map Prod.fst = Source.imports f.text) :
    ((listing dedupe seen files).flatMap fun l => Source.pathsWithout l.1.text l.2) =
      (staying dedupe seen
        (files.flatMap fun f => leftovers f.text f.imports)).map Prod.snd := by
  induction files generalizing seen with
  | nil => rfl
  | cons f fs ih =>
    obtain ⟨hfirst, hrest⟩ := List.forall_mem_cons.1 hf
    have hnodup : (f.imports.map fun i => i.1.span).Nodup := by
      have h := Source.nodup_imports f.text
      rw [← hfirst, List.map_map] at h
      exact h
    have hfile : Source.pathsWithout f.text (strips dedupe f.text seen f.imports).1 =
        (staying dedupe seen (leftovers f.text f.imports)).map Prod.snd := by
      rw [Source.pathsWithout, ← hfirst, filter_strips hnodup]
    rw [listing, List.flatMap_cons, ih hrest, List.flatMap_cons, staying_append, List.map_append,
      hfile]

/-! ### Blocks with their headings -/

/-- What stands in a heading behind the slashes. -/
def headingText (root file : Path) : Text :=
  " File: ".toList ++ (Path.relative root file).text

theorem heading_eq (root file : Path) :
    heading root file = '/' :: '/' :: headingText root file ++ ['\n'] := by
  have hlabel : "// File: ".toList = '/' :: '/' :: " File: ".toList := by decide
  delta heading headingText
  rw [hlabel]
  simp only [List.cons_append, List.append_assoc]

theorem lineFeed_notMem_headingText {root file : Path}
    (h : '\n' ∉ (Path.relative root file).text) : '\n' ∉ headingText root file := by
  have hlabel : '\n' ∉ " File: ".toList := by decide
  intro hmem
  rcases List.mem_append.1 hmem with hmem | hmem
  · exact hlabel hmem
  · exact h hmem

theorem block_true (root : Path) (p : Portion) : block root true p =
    '/' :: '/' :: headingText root p.path ++ '\n' :: p.parts.body := by
  rw [block, if_pos rfl, heading_eq]
  simp

/-- Below a heading every body is written, also one without text. -/
theorem isEmpty_trim_block_true (root : Path) (p : Portion) :
    (trim (block root true p)).isEmpty = false := by
  rw [List.isEmpty_eq_false_iff, Ne, trim_eq_nil_iff, block_true]
  intro h
  have hslash := h '/' (List.mem_append_left _ (List.mem_cons_self ..))
  exact absurd hslash (by decide)

/-- A heading without a body loses the white space at its end. -/
theorem trimEnd_block_true (root : Path) {p : Portion} {t : Text} (hp : p.parts.body = asBlock t) :
    trimEnd (block root true p) =
      if p.parts.body = [] then '/' :: '/' :: trimEnd (headingText root p.path)
      else '/' :: '/' :: headingText root p.path ++ '\n' :: p.parts.body := by
  have hlines : ∀ k b : Text, k ++ '\n' :: b = (k ++ ['\n']) ++ b := by simp
  rw [block_true, hlines]
  split
  · next hb =>
    have hfeed : ∀ c ∈ ['\n'], isBlank c = true := by simp [isBlank]
    rw [hb, List.append_nil, trimEnd_append_of_blank hfeed, Source.trimEnd_lineComment]
  · next hb =>
    have htrim : trimEnd p.parts.body = p.parts.body := by rw [hp, trimEnd_asBlock]
    rw [trimEnd_append_of_ne (by rw [htrim]; exact hb), htrim]

/-- A block that is written has the import statements `ps`, and two line feeds behind it lead back
into the code; a block that is not written has none. -/
def BlockReads (root : Path) (comments : Bool) (p : Portion) (ps : List Text) : Prop :=
  if (trim (block root comments p)).isEmpty then ps = []
  else Source.Reads true (Source.mask (trimEnd (block root comments p))) ps ∧
    Scan.code.after (trimEnd (block root comments p) ++ ['\n', '\n']) = .code

theorem blockReads {root : Path} {comments : Bool} {p : Portion} {t : Text} {ps : List Text}
    (hp : p.parts.body = asBlock t) (hr : Source.Reads true (Source.mask p.parts.body) ps)
    (ha : Scan.code.after (p.parts.body ++ ['\n', '\n']) = .code)
    (hroot : comments = true → '\n' ∉ (Path.relative root p.path).text) :
    BlockReads root comments p ps := by
  rw [BlockReads]
  have hnil : p.parts.body = [] → ps = [] := by
    intro hb
    rw [hb] at hr
    cases hr
    rfl
  cases comments with
  | false =>
    have hblock : block root false p = p.parts.body := rfl
    have htrim : trimEnd p.parts.body = p.parts.body := by rw [hp, trimEnd_asBlock]
    rw [hblock, htrim]
    split
    · next hempty =>
      rw [List.isEmpty_iff, hp, trim_asBlock_eq_nil_iff, ← hp] at hempty
      exact hnil hempty
    · exact ⟨hr, ha⟩
  | true =>
    have hplain := lineFeed_notMem_headingText (hroot rfl)
    rw [isEmpty_trim_block_true, if_neg Bool.false_ne_true, trimEnd_block_true root hp]
    split
    · next hb =>
      have hplain' := Source.notMem_trimEnd hplain
      rw [hnil hb, Source.after_lineComment_append hplain']
      exact ⟨Source.reads_nil_of_blank (Source.lineComment_reads hplain').1, rfl⟩
    · have hblank := (Source.lineComment_reads hplain).1
      rw [Source.mask_lineComment_append hplain, List.append_assoc]
      exact ⟨(Source.reads_nil_of_blank hblank).append_lineFeed hr,
        (Source.after_lineComment_append hplain _).trans ha⟩

/-- The blocks that are written, masked, each with the paths of its import statements. -/
theorem exists_blocks {root : Path} {comments : Bool} {portion : SourceFile × List Span → Portion}
    {paths : SourceFile × List Span → List Text} {ls : List (SourceFile × List Span)}
    (h : ∀ l ∈ ls, BlockReads root comments (portion l) (paths l)) :
    (∃ zs : List (Text × List Text),
      (blocks root comments (ls.map portion)).map Source.mask = zs.map Prod.fst ∧
        zs.flatMap Prod.snd = ls.flatMap paths ∧ ∀ z ∈ zs, Source.Reads true z.1 z.2) ∧
      ∀ b ∈ blocks root comments (ls.map portion),
        Scan.code.after (b ++ ['\n', '\n']) = .code := by
  induction ls with
  | nil => exact ⟨⟨[], rfl, rfl, by simp⟩, by simp [blocks]⟩
  | cons l ls ih =>
    obtain ⟨hl, hls⟩ := List.forall_mem_cons.1 h
    obtain ⟨⟨zs, hfst, hsnd, hreads⟩, hafter⟩ := ih hls
    cases hb : (trim (block root comments (portion l))).isEmpty with
    | true =>
      rw [BlockReads, hb, if_pos rfl] at hl
      have hblocks : blocks root comments ((l :: ls).map portion) =
          blocks root comments (ls.map portion) := by
        simp only [blocks, List.map_cons, List.filterMap_cons, hb, if_pos]
      rw [hblocks]
      exact ⟨⟨zs, hfst, by rw [List.flatMap_cons, hl, hsnd]; rfl, hreads⟩, hafter⟩
    | false =>
      rw [BlockReads, hb, if_neg Bool.false_ne_true] at hl
      have hblocks : blocks root comments ((l :: ls).map portion) =
          trimEnd (block root comments (portion l)) :: blocks root comments (ls.map portion) := by
        simp only [blocks, List.map_cons, List.filterMap_cons, hb]
        rfl
      rw [hblocks]
      refine ⟨⟨(Source.mask (trimEnd (block root comments (portion l))), paths l) :: zs,
        ?_, ?_, ?_⟩, ?_⟩
      · rw [List.map_cons, List.map_cons, hfst]
      · rw [List.flatMap_cons, List.flatMap_cons, hsnd]
      · exact List.forall_mem_cons.2 ⟨hl.1, hreads⟩
      · exact List.forall_mem_cons.2 ⟨hl.2, hafter⟩

theorem reads_headerLine {ps : List Portion}
    (hp : ∀ p ∈ ps, ∃ t strip, p.parts = Source.split t strip) :
    ∀ l ∈ headerLines ps, Source.Reads true (Source.mask l) [] := by
  intro l hl
  rw [headerLines_eq] at hl
  rcases List.mem_append.1 hl with hl | hl
  · obtain ⟨t, f, hf, rfl⟩ := exists_license hp hl
    exact Source.reads_nil_of_blank (Source.license_reads hf).1
  · obtain ⟨t, f, hf, rfl⟩ := exists_pragma hp hl
    exact Source.reads_nil_of_pragma hf

end Render

namespace Graph

variable {t : FileTree} {entry root : Path} {g : Graph}

/-- The unresolved imports of the files in their order, each as its statement and its path. -/
def leftovers (g : Graph) : List (Text × Text) :=
  g.flattenOrder.flatMap fun f => Render.leftovers f.text f.imports

/-- The paths of the imports left in the flattened text: those of all unresolved imports, or of the
first one of each statement. -/
def remainingPaths (g : Graph) (s : Settings) : List Text :=
  (if s.dedupeExternalImports then g.leftovers.eraseDupsBy fun a b => a.1 == b.1
    else g.leftovers).map Prod.snd

theorem remainingPaths_eq (g : Graph) (s : Settings) :
    g.remainingPaths s =
      (Render.staying s.dedupeExternalImports [] g.leftovers).map Prod.snd := by
  rw [remainingPaths]
  cases s.dedupeExternalImports with
  | false => rw [Render.staying_false, if_neg Bool.false_ne_true]
  | true =>
    have hall : (g.leftovers.filter fun u => decide (u.1 ∉ ([] : List Text))) = g.leftovers :=
      List.filter_eq_self.2 fun u _ => by simp
    rw [Render.staying_true, hall, if_pos rfl]

theorem flatMap_listing (h : build t entry root = .ok g) (s : Settings) :
    ((g.listing s).flatMap fun l => Source.pathsWithout l.1.text l.2) = g.remainingPaths s := by
  obtain ⟨_, -, ht⟩ := traversed_of_build h
  have hfiles : ∀ f ∈ g.flattenOrder, f.imports.map Prod.fst = Source.imports f.text :=
    fun f hf => ht.imports_eq f (mem_files_of_mem_flattenOrder hf)
  rw [listing, Render.flatMap_pathsWithout hfiles, remainingPaths_eq, leftovers]

theorem exists_warning_of_mem_remainingPaths (h : build t entry root = .ok g) {s : Settings}
    {p : Text} (hp : p ∈ g.remainingPaths s) :
    ∃ f ∈ g.files, ∃ why, .unresolvedImport p f.path why ∈ g.warnings := by
  rw [remainingPaths_eq] at hp
  obtain ⟨u, hstays, rfl⟩ := List.mem_map.1 hp
  have hu : u ∈ g.leftovers := (Render.staying_sublist _ _ _).subset hstays
  obtain ⟨f, hf, hu⟩ := List.mem_flatMap.1 hu
  obtain ⟨⟨d, r⟩, hi, hdr⟩ := List.mem_filterMap.1 hu
  have hfile := mem_files_of_mem_flattenOrder hf
  cases r with
  | resolved l => simp at hdr
  | unresolved why =>
    obtain rfl : (d.statement f.text, d.path) = u := by simpa using hdr
    exact ⟨f, hfile, why, warned_of_build h hfile hi⟩

theorem blockReads_of_mem_listing (h : build t entry root = .ok g) {s : Settings} {project : Path}
    {l : SourceFile × List Span} (hcut : Source.KeepsImports l.1.text l.2)
    (hends : ∀ f ∈ g.files, (Scan.code.after f.text).inBlock = false)
    (hproject : s.sourceComments = true →
      ∀ f ∈ g.files, '\n' ∉ (Path.relative project f.path).text) (hl : l ∈ g.listing s) :
    Render.BlockReads project s.sourceComments ⟨l.1.path, Source.split l.1.text l.2⟩
      (Source.pathsWithout l.1.text l.2) := by
  obtain ⟨hfile, hfits⟩ := fits_of_mem_listing h hl
  have hend := hends l.1 hfile
  exact Render.blockReads rfl (Source.reads_body hcut hfits hend)
    (Source.exists_mask_body hcut.toCutsCleanly hfits hend).2 fun hs => hproject hs _ hfile

/-- If the cuts leave the other import statements of a file as they are, the import statements found
in the flattened text are the unresolved ones of the files, in their order, and each was reported. -/
theorem imports_render (h : build t entry root = .ok g) {s : Settings} {project : Path}
    (hends : ∀ f ∈ g.files, (Scan.code.after f.text).inBlock = false)
    (hcut : ∀ l ∈ g.listing s, Source.KeepsImports l.1.text l.2)
    (hpragmas : ∀ l ∈ g.pragmaLines s, (Scan.code.after l).inBlock = false)
    (hproject : s.sourceComments = true →
      ∀ f ∈ g.files, '\n' ∉ (Path.relative project f.path).text) :
    (Source.imports (render g project s).text).map ImportDirective.path = g.remainingPaths s ∧
      ∀ p ∈ (Source.imports (render g project s).text).map ImportDirective.path,
        ∃ f ∈ g.files, ∃ why, .unresolvedImport p f.path why ∈ g.warnings := by
  have hparts : ∀ p ∈ Render.portions s.dedupeExternalImports [] g.flattenOrder,
      ∃ t strip, p.parts = Source.split t strip := Render.exists_split_of_mem_portions
  obtain ⟨⟨zs, hfst, hsnd, hreads⟩, hafter⟩ :=
    Render.exists_blocks fun l hl => blockReads_of_mem_listing h (hcut l hl) hends hproject hl
  rw [listing, ← Render.portions_eq] at hfst hafter
  have hheaders : ∀ l ∈ (Render.headerLines
      (Render.portions s.dedupeExternalImports [] g.flattenOrder)).map Source.mask,
        Source.Reads true l [] := by
    intro l hl
    obtain ⟨k, hk, rfl⟩ := List.mem_map.1 hl
    exact Render.reads_headerLine hparts k hk
  have hall := Render.reads_assemble hheaders hreads
  have hmask := Render.mask_assemble (Render.after_headerLine hparts hpragmas) hafter
  rw [← hfst, ← hmask] at hall
  have hpaths : (Source.imports (render g project s).text).map ImportDirective.path =
      g.remainingPaths s := by
    rw [← flatMap_listing h, Source.imports, List.map_map]
    exact (Source.findAll_of_reads hall).trans hsnd
  refine ⟨hpaths, fun p hp => ?_⟩
  rw [hpaths] at hp
  exact exists_warning_of_mem_remainingPaths h hp

def mixedText : Text :=
  "import './B';\nimport 'x';\nA".toList

def mixedGraph : Graph where
  files :=
    [⟨["p".toList, "A".toList], mixedText,
        [(⟨"./B".toList, ⟨0, 14⟩⟩, .resolved ["p".toList, "B".toList]),
          (⟨"x".toList, ⟨14, 26⟩⟩, .unresolved .external)]⟩,
      ⟨["p".toList, "B".toList], "B".toList, []⟩]
  links := [(["p".toList, "A".toList], ["p".toList, "B".toList])]
  warnings := [.unresolvedImport "x".toList ⟨"/p/A".toList⟩ .external]
  events :=
    [.warned (.unresolvedImport "x".toList ⟨"/p/A".toList⟩ .external),
      .following "./B".toList ⟨"/p/A".toList⟩]

theorem build_mixed : build (pairTree mixedText "B".toList) ⟨"A".toList⟩ ⟨"/p".toList⟩ =
    .ok mixedGraph := by cbv

theorem listing_mixed : mixedGraph.listing {} =
    [(⟨["p".toList, "B".toList], "B".toList, []⟩, []),
      (⟨["p".toList, "A".toList], mixedText,
        [(⟨"./B".toList, ⟨0, 14⟩⟩, .resolved ["p".toList, "B".toList]),
          (⟨"x".toList, ⟨14, 26⟩⟩, .unresolved .external)]⟩, [⟨0, 14⟩])] := by cbv

theorem imports_mixedText : Source.imports mixedText =
    [⟨"./B".toList, ⟨0, 14⟩⟩, ⟨"x".toList, ⟨14, 26⟩⟩] := by cbv

theorem keepsImports_mixed : ∀ l ∈ mixedGraph.listing {}, Source.KeepsImports l.1.text l.2 := by
  have hA : Source.cutSpans mixedText [⟨0, 14⟩] = [⟨0, 14⟩] := by cbv
  have hB : Source.cutSpans "B".toList [] = [] := by cbv
  have himports : Source.imports "B".toList = [] := by cbv
  rw [listing_mixed]
  intro l hl
  rcases List.mem_cons.1 hl with rfl | hl
  · refine ⟨⟨?_, ?_⟩, by cbv, ?_, ?_, ?_⟩
    · rw [hB]
      decide
    · rw [hB]
      cbv
    · rw [hB]
      cbv
    · rw [himports]
      decide
    · rw [himports]
      decide
  · rcases List.mem_singleton.1 hl with rfl
    refine ⟨⟨?_, ?_⟩, by cbv, ?_, ?_, ?_⟩
    · rw [hA]
      decide
    · rw [hA]
      cbv
    · rw [hA]
      cbv
    · rw [hA, imports_mixedText]
      decide
    · rw [imports_mixedText]
      decide

theorem imports_render_mixed :
    build (pairTree mixedText "B".toList) ⟨"A".toList⟩ ⟨"/p".toList⟩ = .ok mixedGraph ∧
      (Source.imports (render mixedGraph ⟨"/p".toList⟩ {}).text).map ImportDirective.path =
        ["x".toList] := by
  have hpragmas : mixedGraph.pragmaLines {} = [] := by cbv
  refine ⟨build_mixed, ?_⟩
  rw [(imports_render build_mixed (by decide) keepsImports_mixed (by rw [hpragmas]; decide)
    (by decide)).1]
  cbv

/-- Two imports on one line: the second one is no import statement until the first one is cut. -/
def twiceText : Text :=
  "import './B'; import './B';\nA".toList

theorem imports_render_twice :
    build (pairTree twiceText "B".toList) ⟨"A".toList⟩ ⟨"/p".toList⟩ =
        .ok (pairGraph twiceText "B".toList ⟨0, 14⟩) ∧
      (Source.imports (render (pairGraph twiceText "B".toList ⟨0, 14⟩) ⟨"/p".toList⟩ {}).text).map
        ImportDirective.path ≠ (pairGraph twiceText "B".toList ⟨0, 14⟩).remainingPaths {} := by
  have hrender : (Source.imports (render (pairGraph twiceText "B".toList ⟨0, 14⟩)
      ⟨"/p".toList⟩ {}).text).map ImportDirective.path = ["./B".toList] := by cbv
  have hnone : (pairGraph twiceText "B".toList ⟨0, 14⟩).remainingPaths {} = [] := by cbv
  refine ⟨by cbv, ?_⟩
  rw [hrender, hnone]
  decide

end Graph

end FlatSol
