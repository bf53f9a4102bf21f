import FlatSol.Proofs.Flatten.Settled

/-!
# The layout of a flattened text

Which header lines and which blocks a flattened text has, said of the parts of its files, and how they
are written one after the other. Main statement: every rendered text is laid out in this way, and its
warnings are those about the header lines of its files.
-/

namespace FlatSol

open Text

/-! ### What comes first, and what comes again -/

/-- The first value that is present, if there is one. -/
def IsFirst {α : Type} (xs : List (Option α)) (o : Option α) : Prop :=
  (o = none ∧ ∀ x ∈ xs, x = none) ∨
    ∃ before a after, xs = before ++ some a :: after ∧ (∀ x ∈ before, x = none) ∧ o = some a

/-- The values without later repeats: each of them once, in the order in which they come first. -/
structure IsDistinct {α : Type} [BEq α] (xs ys : List α) : Prop where
  mem : ∀ x, x ∈ ys ↔ x ∈ xs
  ordered : ys.Pairwise fun x y => xs.idxOf x < xs.idxOf y

theorem isFirst_findSome? {α β : Type} (f : α → Option β) (xs : List α) :
    IsFirst (xs.map f) (xs.findSome? f) := by
  cases h : xs.findSome? f with
  | none => exact .inl ⟨rfl, by simpa using h⟩
  | some b =>
    obtain ⟨before, x, after, rfl, hx, hbefore⟩ := List.findSome?_eq_some_iff.1 h
    refine .inr ⟨before.map f, b, after.map f, by simp [hx], ?_, rfl⟩
    intro y hy
    obtain ⟨z, hz, rfl⟩ := List.mem_map.1 hy
    exact hbefore z hz

theorem isDistinct_eraseDups {α : Type} [BEq α] [LawfulBEq α] (xs : List α) :
    IsDistinct xs xs.eraseDups := by
  refine ⟨fun x => List.mem_eraseDups, ?_⟩
  induction xs using List.reverseRecOn with
  | nil => exact .nil
  | append_singleton xs x ih =>
    have hold : xs.eraseDups.Pairwise fun y z => (xs ++ [x]).idxOf y < (xs ++ [x]).idxOf z := by
      refine ih.imp_of_mem fun {y z} hy hz hlt => ?_
      rw [List.idxOf_append_of_mem (List.mem_eraseDups.1 hy),
        List.idxOf_append_of_mem (List.mem_eraseDups.1 hz)]
      exact hlt
    rw [eraseDups_concat]
    split
    · exact hold
    · next hx =>
      refine List.pairwise_append.2 ⟨hold, List.pairwise_singleton _ _, fun y hy z hz => ?_⟩
      have hmem : y ∈ xs := List.mem_eraseDups.1 hy
      rw [List.mem_singleton.1 hz, List.idxOf_append_of_mem hmem, List.idxOf_append_of_notMem hx]
      have hlt : xs.idxOf y < xs.length := List.idxOf_lt_length_of_mem hmem
      omega

namespace Render

/-! ### Lines and blocks -/

/-- The header lines and the blocks, with an empty line between any two blocks and between the last
header line and the first block, each ended by a line feed. -/
def written (headers blocks : List Text) : Text :=
  (headers ++ (if headers = [] ∨ blocks = [] then [] else [[]]) ++ blocks.intersperse []).flatMap
    fun l => l ++ ['\n']

theorem joinWith_append_lineFeed {blocks : List Text} (h : blocks ≠ []) :
    joinWith ['\n', '\n'] blocks ++ ['\n'] =
      (blocks.intersperse []).flatMap fun l => l ++ ['\n'] := by
  induction blocks with
  | nil => exact absurd rfl h
  | cons b bs ih =>
    cases bs with
    | nil => simp [joinWith]
    | cons d ds =>
      rw [joinWith, List.append_assoc, ih (List.cons_ne_nil d ds)]
      simp

theorem endLine_headerText (headers : List Text) : endLine (headerText headers) = headerText headers := by
  rcases List.eq_nil_or_concat headers with rfl | ⟨ls, l, rfl⟩
  · rfl
  · have hlast : (headerText (ls.concat l)).getLast? = some '\n' := by
      simp [headerText, List.concat_eq_append]
    rw [endLine, hlast]
    simp

/-- Blocks that end in a character other than a line feed are followed by one. -/
theorem assemble_eq_written {headers blocks : List Text}
    (h : ∀ b ∈ blocks, b ≠ [] ∧ b.getLast? ≠ some '\n') :
    assemble headers blocks = written headers blocks := by
  rw [assemble_eq]
  rcases List.eq_nil_or_concat blocks with rfl | ⟨bs, b, rfl⟩
  · have hsections : sections headers [] = headerText headers := by simp [sections, joinWith]
    rw [hsections, endLine_headerText]
    simp [written, headerText]
  · obtain ⟨hne, hlast⟩ := h b (by simp)
    obtain ⟨u, c, rfl⟩ := (List.eq_nil_or_concat b).resolve_left hne
    have hc : c ≠ '\n' := by simpa using hlast
    rw [List.concat_eq_append, List.concat_eq_append] at *
    obtain ⟨v, hv⟩ := exists_joinWith_append ['\n', '\n'] bs u c
    have hblocks : bs ++ [u ++ [c]] ≠ [] := by simp
    have hend : endLine (sections headers (bs ++ [u ++ [c]])) =
        sections headers (bs ++ [u ++ [c]]) ++ ['\n'] := by
      rw [endLine, sections, hv, ← List.append_assoc, List.getLast?_concat]
      simp [hc]
    rw [hend, sections, List.append_assoc, joinWith_append_lineFeed hblocks, written]
    cases headers with
    | nil => simp [headerText]
    | cons l ls => simp [headerText]

/-! ### Warnings -/

/-- The warnings about a header line of a file: none if the file has no such line, or if that is the
kept one, and otherwise one with both lines and the file's path. -/
inductive Conflicts (warning : Text → Text → Path → Warning) (kept : Option Text) (file : Path) :
    Option Text → List Warning → Prop
  | absent : Conflicts warning kept file none []
  | same {k : Text} : kept = some k → Conflicts warning kept file (some k) []
  | differs {k l : Text} : kept = some k → l ≠ k →
      Conflicts warning kept file (some l) [warning k l file]

theorem conflicts_conflict {warning : Text → Text → Path → Warning} {kept line : Option Text}
    (file : Path) (h : line ≠ none → kept ≠ none) :
    Conflicts warning kept file line (conflict warning kept line file) := by
  cases line with
  | none =>
    cases kept <;> exact .absent
  | some l =>
    obtain ⟨k, rfl⟩ := Option.ne_none_iff_exists'.1 (h (by simp))
    by_cases hkl : k = l
    · subst hkl
      rw [conflict, if_pos rfl]
      exact .same rfl
    · rw [conflict, if_neg hkl]
      exact .differs rfl (Ne.symm hkl)

/-! ### The layout -/

/-- How the portions of the files make up a flattened text with its header lines and its blocks. -/
structure LaidOut (root : Path) (comments : Bool) (ps : List Portion) (license version : Option Text)
    (others blocks : List Text) (r : Rendered) : Prop where
  isFirst_license : IsFirst (ps.map fun p => p.parts.license) license
  isFirst_version : IsFirst (ps.map fun p => p.parts.versionPragma) version
  isDistinct_others : IsDistinct (ps.flatMap fun p => p.parts.otherPragmas) others
  plain : ∀ l ∈ license.toList ++ version.toList ++ others, l ≠ [] ∧ '\n' ∉ l
  trimmed : List.Forall₂ Trimmed ((ps.map (block root comments)).filter fun b => !b.all isBlank) blocks
  text : r.text = written (license.toList ++ version.toList ++ others) blocks
  files : r.files = ps.map Portion.path
  warnings : ∃ ws : List (List Warning × List Warning),
    r.warnings = (ws.flatMap fun w => w.1 ++ w.2) ∧ List.Forall₂ (fun p w =>
      Conflicts .conflictingLicense license p.path p.parts.license w.1 ∧
        Conflicts .conflictingPragma version p.path p.parts.versionPragma w.2) ps ws

theorem blocks_eq_map (root : Path) (comments : Bool) (ps : List Portion) :
    blocks root comments ps =
      ((ps.map (block root comments)).filter fun b => !b.all isBlank).map trimEnd := by
  rw [blocks, ← List.filterMap_eq_filter, List.map_filterMap]
  refine List.filterMap_congr fun b _ => ?_
  have hblank : (trim b).isEmpty = b.all isBlank := by
    rw [Bool.eq_iff_iff, List.isEmpty_iff, trim_eq_nil_iff, List.all_eq_true]
  rw [hblank]
  cases hb : b.all isBlank <;> simp [Option.guard, hb]

theorem last_of_mem_blocks {root : Path} {comments : Bool} {ps : List Portion} :
    ∀ b ∈ blocks root comments ps, b ≠ [] ∧ b.getLast? ≠ some '\n' := by
  rw [blocks_eq_map]
  intro b hb
  obtain ⟨c, hc, rfl⟩ := List.mem_map.1 hb
  have hnot : c.all isBlank = false := by simpa using (List.mem_filter.1 hc).2
  refine ⟨fun hnil => ?_, fun hlast => ?_⟩
  · rw [List.all_eq_true.2 (trimEnd_eq_nil_iff.1 hnil)] at hnot
    cases hnot
  · exact absurd (isBlank_getLast?_trimEnd hlast) (by decide)

theorem plain_of_mem_headerLines {ps : List Portion}
    (hp : ∀ p ∈ ps, ∃ t strip, p.parts = Source.split t strip) :
    ∀ l ∈ headerLines ps, l ≠ [] ∧ '\n' ∉ l := by
  intro l hl
  rw [headerLines_eq, List.mem_append] at hl
  rcases hl with hl | hl
  · obtain ⟨t, f, hf, rfl⟩ := exists_license hp hl
    obtain ⟨hmark, -, hplain⟩ := Source.license_value hf
    refine ⟨?_, hplain⟩
    rintro hnil
    rw [hnil] at hmark
    exact absurd hmark (by decide)
  · obtain ⟨t, f, hf, rfl⟩ := exists_pragma hp hl
    obtain ⟨-, ⟨u, hu⟩, hplain⟩ := Source.exists_pragma_statement hf
    exact ⟨by rw [hu]; exact List.cons_ne_nil _ _, hplain⟩

theorem map_path_portions (dedupe : Bool) (seen : List Text) (files : List SourceFile) :
    (portions dedupe seen files).map Portion.path = files.map SourceFile.path := by
  have hfst := congrArg (List.map SourceFile.path) (map_fst_listing dedupe seen files)
  rw [portions_eq, List.map_map, ← hfst, List.map_map]
  rfl

theorem findSome?_ne_none {α β : Type} {f : α → Option β} {xs : List α} {x : α} (hx : x ∈ xs)
    (h : f x ≠ none) : xs.findSome? f ≠ none :=
  fun hnone => h (List.findSome?_eq_none_iff.1 hnone x hx)

end Render

namespace Graph

/-- The parts of the files in their order, without the imports that are not kept. -/
def portions (g : Graph) (s : Settings) : List Portion :=
  Render.portions s.dedupeExternalImports [] g.flattenOrder

/-- Every flattened text is laid out as its files' parts tell. -/
theorem render_laidOut (g : Graph) (project : Path) (s : Settings) :
    ∃ license version others blocks, Render.LaidOut project s.sourceComments (g.portions s)
      license version others blocks (render g project s) := by
  let ps := g.portions s
  have hp : ∀ p ∈ ps, ∃ t strip, p.parts = Source.split t strip :=
    Render.exists_split_of_mem_portions
  refine ⟨Render.keptLicense ps, Render.keptVersion ps, Render.keptPragmas ps,
    Render.blocks project s.sourceComments ps, ?_⟩
  constructor
  case isFirst_license => exact isFirst_findSome? _ ps
  case isFirst_version => exact isFirst_findSome? _ ps
  case isDistinct_others => exact isDistinct_eraseDups _
  case plain => exact Render.plain_of_mem_headerLines hp
  case trimmed => exact forall₂_trimmed_iff.2 (Render.blocks_eq_map _ _ _)
  case text => exact Render.assemble_eq_written Render.last_of_mem_blocks
  case files =>
    exact (Render.map_path_portions s.dedupeExternalImports [] g.flattenOrder).symm
  case warnings =>
    refine ⟨ps.map fun p =>
      (Render.conflict .conflictingLicense (Render.keptLicense ps) p.parts.license p.path,
        Render.conflict .conflictingPragma (Render.keptVersion ps) p.parts.versionPragma p.path),
      ?_, ?_⟩
    · rw [List.flatMap_map]
      rfl
    · rw [List.forall₂_map_right_iff, List.forall₂_same]
      exact fun p hmem =>
        ⟨Render.conflicts_conflict _ fun h => Render.findSome?_ne_none hmem h,
          Render.conflicts_conflict _ fun h => Render.findSome?_ne_none hmem h⟩

/-- An empty file whose name ends in a space. -/
def blankNameTree : FileTree where
  entries := [(["p".toList], .dir), (["p".toList, "A ".toList], .file (toBytes []))]
  workDir := some ["p".toList]

/-- Without a body, the heading of a file loses the white space at its end. -/
theorem render_blankName :
    build blankNameTree ⟨"A ".toList⟩ ⟨"/p".toList⟩ = .ok (single ["p".toList, "A ".toList] []) ∧
      (Render.portions true [] (single ["p".toList, "A ".toList] []).flattenOrder).map
        (Render.block ⟨"/p".toList⟩ true) = ["// File: A \n".toList] ∧
      ¬ "// File: A ".toList <:+: (render (single ["p".toList, "A ".toList] []) ⟨"/p".toList⟩
        { sourceComments := true }).text := by
  have hportions : Render.portions true [] [⟨["p".toList, "A ".toList], [], []⟩] =
      [⟨⟨"/p/A ".toList⟩, ⟨none, none, [], []⟩⟩] := by cbv
  have hrelative : (Path.relative ⟨"/p".toList⟩ ⟨"/p/A ".toList⟩).text = "A ".toList := by decide
  have hheading : Render.heading ⟨"/p".toList⟩ ⟨"/p/A ".toList⟩ =
      "// File: ".toList ++ "A ".toList ++ ['\n'] :=
    congrArg (fun name => "// File: ".toList ++ name ++ ['\n']) hrelative
  have hblock : Render.block ⟨"/p".toList⟩ true ⟨⟨"/p/A ".toList⟩, ⟨none, none, [], []⟩⟩ =
      "// File: A \n".toList := by
    rw [Render.block, if_pos rfl, hheading]
    cbv
  have hblocks : Render.blocks ⟨"/p".toList⟩ true
      [⟨⟨"/p/A ".toList⟩, ⟨none, none, [], []⟩⟩] = ["// File: A".toList] := by
    rw [Render.blocks, List.map_singleton, hblock]
    cbv
  have htext : (render (single ["p".toList, "A ".toList] []) ⟨"/p".toList⟩
      { sourceComments := true }).text = "// File: A\n".toList := by
    rw [render, flattenOrder_single, hportions]
    have hheaders : Render.headerLines
        [⟨⟨"/p/A ".toList⟩, ⟨none, none, [], []⟩⟩] = [] := by cbv
    dsimp only
    rw [hheaders, hblocks]
    cbv
  refine ⟨by cbv, ?_, ?_⟩
  · rw [flattenOrder_single, hportions, List.map_singleton, hblock]
  · rw [htext]
    decide

end Graph

end FlatSol
