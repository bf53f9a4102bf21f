import FlatSol.Proofs.Flatten.Assemble
import FlatSol.Proofs.Flatten.Listing
import FlatSol.Proofs.Flatten.Portion
import FlatSol.Proofs.Graph.Tour
import FlatSol.Proofs.Source.HeaderLine

/-!
# Flattening keeps the code

The code of a flattened text is the code of its header pragmas and then that of the files, in their
order, each without the statements that are cut.
-/

namespace FlatSol

open Text Scan

namespace Render

/-- The pragma statements among the header lines. -/
def pragmaLines (ps : List Portion) : List Text :=
  (keptVersion ps).toList ++ keptPragmas ps

theorem headerLines_eq (ps : List Portion) :
    headerLines ps = (keptLicense ps).toList ++ pragmaLines ps := by
  rw [headerLines, pragmaLines, List.append_assoc]

variable {ps : List Portion}

theorem exists_license {l : Text} (hp : ∀ p ∈ ps, ∃ t strip, p.parts = Source.split t strip)
    (h : l ∈ (keptLicense ps).toList) : ∃ t, ∃ f ∈ Source.licenses t, l = f.value := by
  rw [Option.mem_toList, keptLicense] at h
  obtain ⟨p, hmem, hl⟩ := List.exists_of_findSome?_eq_some h
  obtain ⟨t, strip, hparts⟩ := hp p hmem
  rw [hparts] at hl
  obtain ⟨f, hf, rfl⟩ := Option.map_eq_some_iff.1 hl
  exact ⟨t, f, List.mem_of_mem_head? hf, rfl⟩

theorem exists_pragma {l : Text} (hp : ∀ p ∈ ps, ∃ t strip, p.parts = Source.split t strip)
    (h : l ∈ pragmaLines ps) : ∃ t, ∃ f ∈ Source.pragmas t, l = f.value.statement := by
  rcases List.mem_append.1 h with h | h
  · rw [Option.mem_toList, keptVersion] at h
    obtain ⟨p, hmem, hl⟩ := List.exists_of_findSome?_eq_some h
    obtain ⟨t, strip, hparts⟩ := hp p hmem
    rw [hparts] at hl
    obtain ⟨q, hq, rfl⟩ := Option.map_eq_some_iff.1 hl
    have hq' := List.mem_of_mem_filter (List.mem_of_mem_head? hq)
    obtain ⟨f, hf, rfl⟩ := List.mem_map.1 hq'
    exact ⟨t, f, hf, rfl⟩
  · rw [keptPragmas, List.mem_eraseDups] at h
    obtain ⟨p, hmem, hl⟩ := List.mem_flatMap.1 h
    obtain ⟨t, strip, hparts⟩ := hp p hmem
    rw [hparts] at hl
    obtain ⟨q, hq, rfl⟩ := List.mem_map.1 (List.mem_eraseDups.1 hl)
    obtain ⟨f, hf, rfl⟩ := List.mem_map.1 (List.mem_of_mem_filter hq)
    exact ⟨t, f, hf, rfl⟩

theorem after_headerLine (hp : ∀ p ∈ ps, ∃ t strip, p.parts = Source.split t strip)
    (hpragmas : ∀ l ∈ pragmaLines ps, (Scan.code.after l).inBlock = false) :
    ∀ l ∈ headerLines ps, Scan.code.after (l ++ ['\n']) = .code := by
  intro l hl
  rw [headerLines_eq] at hl
  rcases List.mem_append.1 hl with hl | hl
  · obtain ⟨t, f, hf, rfl⟩ := exists_license hp hl
    exact (Source.license_reads hf).2
  · have hblock := hpragmas l hl
    obtain ⟨t, f, hf, rfl⟩ := exists_pragma hp hl
    obtain ⟨⟨u, hu⟩, -⟩ := Source.exists_pragma_statement hf
    rw [hu] at hblock ⊢
    exact Source.after_semicolon_lineFeed hblock

theorem inBlock_pragmaLine (hp : ∀ p ∈ ps, ∃ t strip, p.parts = Source.split t strip)
    (hpragmas : ∀ l ∈ pragmaLines ps, Source.mask l = l) :
    ∀ l ∈ pragmaLines ps, (Scan.code.after l).inBlock = false := by
  intro l hl
  have hmask := hpragmas l hl
  obtain ⟨t, f, hf, rfl⟩ := exists_pragma hp hl
  obtain ⟨⟨u, hu⟩, -⟩ := Source.exists_pragma_statement hf
  rw [hu] at hmask ⊢
  exact Source.inBlock_of_mask_eq hmask

theorem code_headerLines (hp : ∀ p ∈ ps, ∃ t strip, p.parts = Source.split t strip)
    (hpragmas : ∀ l ∈ pragmaLines ps, Source.mask l = l) :
    (headerLines ps).flatMap Source.code = (pragmaLines ps).flatMap squeeze := by
  have hlicense : (keptLicense ps).toList.flatMap Source.code = [] := by
    refine List.flatMap_eq_nil_iff.2 fun l hl => ?_
    obtain ⟨t, f, hf, rfl⟩ := exists_license hp hl
    exact squeeze_of_blank (Source.license_reads hf).1
  rw [headerLines_eq, List.flatMap_append, hlicense, List.nil_append]
  exact List.flatMap_congr fun l hl => by rw [Source.code, hpragmas l hl]

/-- Without headings, the blocks are the bodies with something in them. -/
theorem blocks_eq (root : Path) (hp : ∀ p ∈ ps, ∃ t strip, p.parts = Source.split t strip) :
    blocks root false ps = (ps.map fun p => p.parts.body).filter fun b => !b.isEmpty := by
  rw [blocks, ← List.filterMap_eq_filter, List.filterMap_map, List.filterMap_map]
  refine List.filterMap_congr fun p hmem => ?_
  obtain ⟨t, strip, hparts⟩ := hp p hmem
  have hblock : block root false p = asBlock (cut (Source.cutSpans t strip) t) := by
    rw [block, hparts]
    rfl
  have hbody : p.parts.body = asBlock (cut (Source.cutSpans t strip) t) := by
    rw [hparts]
    rfl
  simp only [Function.comp_apply, hblock, hbody, trimEnd_asBlock]
  cases hb : asBlock (cut (Source.cutSpans t strip) t) with
  | nil => rfl
  | cons c cs =>
    have hne : trim (c :: cs) ≠ [] := by
      rw [← hb]
      exact fun h => by simp [trim_asBlock_eq_nil_iff.1 h] at hb
    simp [hne]

end Render

namespace Graph

variable {t : FileTree} {entry root : Path} {g : Graph}

/-- The files of a flattened text in their order, each with the spans of the imports cut out. -/
def listing (g : Graph) (s : Settings) : List (SourceFile × List Span) :=
  Render.listing s.dedupeExternalImports [] g.flattenOrder

/-- The pragma statements in the header of the flattened text. -/
def pragmaLines (g : Graph) (s : Settings) : List Text :=
  Render.pragmaLines (Render.portions s.dedupeExternalImports [] g.flattenOrder)

theorem mem_files_of_mem_flattenOrder {f : SourceFile} (h : f ∈ g.flattenOrder) : f ∈ g.files := by
  obtain ⟨l, -, hl⟩ := List.mem_filterMap.1 h
  exact List.mem_of_find?_eq_some hl

theorem exists_import_of_mem_listing (h : build t entry root = .ok g) {s : Settings}
    {l : SourceFile × List Span} (hl : l ∈ g.listing s) :
    ∀ r ∈ l.2, ∃ d ∈ Source.imports l.1.text, d.span = r := by
  obtain ⟨_, -, ht⟩ := traversed_of_build h
  obtain ⟨before, after, horder, hspans⟩ := Render.mem_listing hl
  have hfile : l.1 ∈ g.files := mem_files_of_mem_flattenOrder (by rw [horder]; simp)
  intro r hr
  obtain ⟨former, i, latter, himports, -, rfl⟩ := (hspans r).1 hr
  refine ⟨i.1, ?_, rfl⟩
  rw [← ht.imports_eq l.1 hfile, himports]
  simp

theorem fits_of_mem_listing (h : build t entry root = .ok g) {s : Settings}
    {l : SourceFile × List Span} (hl : l ∈ g.listing s) :
    l.1 ∈ g.files ∧ ∀ r ∈ l.2, Fits l.1.text r := by
  obtain ⟨before, after, horder, -⟩ := Render.mem_listing hl
  refine ⟨mem_files_of_mem_flattenOrder (by rw [horder]; simp), fun r hr => ?_⟩
  obtain ⟨d, hd, rfl⟩ := exists_import_of_mem_listing h hl r hr
  exact Source.fits_of_mem_imports hd

/-- If the cuts do not change how the rest of a file is read, and the pragma statements of the header
are all code, then the code of the flattened text is that of these pragma statements and then, file
by file, all the code that is not cut. -/
theorem code_render (h : build t entry root = .ok g) {s : Settings} (hs : s.sourceComments = false)
    (hends : ∀ f ∈ g.files, (Scan.code.after f.text).inBlock = false)
    (hcut : ∀ l ∈ g.listing s, Source.KeepsCode l.1.text l.2)
    (hpragmas : ∀ l ∈ g.pragmaLines s, Source.mask l = l) (project : Path) :
    Source.code (render g project s).text =
      (g.pragmaLines s).flatMap squeeze ++
        (g.listing s).flatMap fun l => Source.codeWithout l.1.text l.2 := by
  have hparts : ∀ p ∈ Render.portions s.dedupeExternalImports [] g.flattenOrder,
      ∃ t strip, p.parts = Source.split t strip := Render.exists_split_of_mem_portions
  have hblocks : Render.blocks project s.sourceComments
      (Render.portions s.dedupeExternalImports [] g.flattenOrder) =
        ((g.listing s).map fun l => (Source.split l.1.text l.2).body).filter
          fun b => !b.isEmpty := by
    rw [hs, Render.blocks_eq project hparts, Render.portions_eq, List.map_map]
    rfl
  have hbody : ∀ l ∈ g.listing s,
      Source.code (Source.split l.1.text l.2).body = Source.codeWithout l.1.text l.2 ∧
        Scan.code.after ((Source.split l.1.text l.2).body ++ ['\n', '\n']) = .code := by
    intro l hl
    obtain ⟨hfile, hfits⟩ := fits_of_mem_listing h hl
    exact ⟨Source.code_body (hcut l hl) hfits (hends _ hfile),
      (Source.exists_mask_body (hcut l hl).toCutsCleanly hfits (hends _ hfile)).2⟩
  have hheaders := Render.after_headerLine hparts (Render.inBlock_pragmaLine hparts hpragmas)
  have hafter : ∀ b ∈ Render.blocks project s.sourceComments
      (Render.portions s.dedupeExternalImports [] g.flattenOrder),
        Scan.code.after (b ++ ['\n', '\n']) = .code := by
    rw [hblocks]
    intro b hb
    obtain ⟨l, hl, rfl⟩ := List.mem_map.1 (List.mem_of_mem_filter hb)
    exact (hbody l hl).2
  have hempty : ∀ bs : List Text, (bs.filter fun b => !b.isEmpty).flatMap Source.code =
      bs.flatMap Source.code := by
    intro bs
    induction bs with
    | nil => rfl
    | cons b bs ih => cases b <;> simp [ih, Source.code, Source.mask, Source.maskFrom, squeeze]
  unfold Source.code render
  simp only
  rw [Render.mask_assemble hheaders hafter, Render.squeeze_assemble, List.flatMap_map,
    List.flatMap_map]
  change (Render.headerLines _).flatMap Source.code ++ (Render.blocks _ _ _).flatMap Source.code = _
  rw [Render.code_headerLines hparts hpragmas, hblocks, hempty, List.flatMap_map]
  exact congrArg _ (List.flatMap_congr fun l hl => (hbody l hl).1)

/-- A directory of two files, the first of which is the entry. -/
def pairTree (a b : Text) : FileTree where
  entries :=
    [(["p".toList], .dir),
      (["p".toList, "A".toList], .file (toBytes a)),
      (["p".toList, "B".toList], .file (toBytes b))]
  workDir := some ["p".toList]

/-- The graph of a file that imports the other one by the statement in the span. -/
def pairGraph (a b : Text) (s : Span) : Graph where
  files :=
    [⟨["p".toList, "A".toList], a, [(⟨"./B".toList, s⟩, .resolved ["p".toList, "B".toList])]⟩,
      ⟨["p".toList, "B".toList], b, []⟩]
  links := [(["p".toList, "A".toList], ["p".toList, "B".toList])]
  warnings := []
  events := [.following "./B".toList ⟨"/p/A".toList⟩]

/-- An import below a pragma statement, with a comment on its line. -/
def plainText : Text :=
  "pragma p;\nimport './B'; // b\nA".toList

theorem build_plain : build (pairTree plainText "B".toList) ⟨"A".toList⟩ ⟨"/p".toList⟩ =
    .ok (pairGraph plainText "B".toList ⟨10, 24⟩) := by cbv

theorem listing_plain : (pairGraph plainText "B".toList ⟨10, 24⟩).listing {} =
    [(⟨["p".toList, "B".toList], "B".toList, []⟩, []),
      (⟨["p".toList, "A".toList], plainText,
        [(⟨"./B".toList, ⟨10, 24⟩⟩, .resolved ["p".toList, "B".toList])]⟩, [⟨10, 24⟩])] := by cbv

theorem pragmaLines_plain : (pairGraph plainText "B".toList ⟨10, 24⟩).pragmaLines {} =
    ["pragma p;".toList] := by cbv

theorem keepsCode_plain : ∀ l ∈ (pairGraph plainText "B".toList ⟨10, 24⟩).listing {},
    Source.KeepsCode l.1.text l.2 := by
  have hA : Source.cutSpans plainText [⟨10, 24⟩] = [⟨10, 24⟩, ⟨0, 10⟩] := by cbv
  have hB : Source.cutSpans "B".toList [] = [] := by cbv
  rw [listing_plain]
  intro l hl
  rcases List.mem_cons.1 hl with rfl | hl
  · refine ⟨⟨?_, ?_⟩, by decide⟩
    · rw [hB]
      decide
    · rw [hB]
      cbv
  · rcases List.mem_singleton.1 hl with rfl
    refine ⟨⟨?_, ?_⟩, by decide⟩
    · rw [hA]
      decide
    · rw [hA]
      cbv

theorem code_render_plain :
    build (pairTree plainText "B".toList) ⟨"A".toList⟩ ⟨"/p".toList⟩ =
        .ok (pairGraph plainText "B".toList ⟨10, 24⟩) ∧
      Source.code (render (pairGraph plainText "B".toList ⟨10, 24⟩) ⟨"/p".toList⟩ {}).text =
        "pragmap;BA".toList := by
  refine ⟨build_plain, ?_⟩
  rw [code_render build_plain rfl (by decide) keepsCode_plain
    (by rw [pragmaLines_plain]; decide), pragmaLines_plain, listing_plain]
  cbv

/-- An import on the line on which a block comment ends: its span starts inside the comment. -/
def openText : Text :=
  "/*\n*/ import './B';\nA".toList

/-- With the end of the comment cut out as well, the code behind the import is lost. -/
theorem code_render_open :
    build (pairTree openText "B".toList) ⟨"A".toList⟩ ⟨"/p".toList⟩ =
        .ok (pairGraph openText "B".toList ⟨3, 20⟩) ∧
      (∀ f ∈ (pairGraph openText "B".toList ⟨3, 20⟩).files,
        Scan.code.after f.text = .code) ∧
      Source.code (render (pairGraph openText "B".toList ⟨3, 20⟩) ⟨"/p".toList⟩ {}).text ≠
        ((pairGraph openText "B".toList ⟨3, 20⟩).pragmaLines {}).flatMap squeeze ++
          ((pairGraph openText "B".toList ⟨3, 20⟩).listing {}).flatMap fun l =>
            Source.codeWithout l.1.text l.2 := by
  have hrender : Source.code
      (render (pairGraph openText "B".toList ⟨3, 20⟩) ⟨"/p".toList⟩ {}).text = ['B'] := by cbv
  have hcode : ((pairGraph openText "B".toList ⟨3, 20⟩).pragmaLines {}).flatMap squeeze ++
      ((pairGraph openText "B".toList ⟨3, 20⟩).listing {}).flatMap (fun l =>
        Source.codeWithout l.1.text l.2) = ['B', 'A'] := by cbv
  refine ⟨by cbv, by decide, ?_⟩
  rw [hrender, hcode]
  decide

end Graph

end FlatSol
