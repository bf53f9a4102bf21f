import FlatSol.Proofs.Flatten.Imports
import FlatSol.Proofs.Flatten.Layout
import FlatSol.Proofs.Source.Lexeme

/-!
# Headings

A heading is a comment, wherever it stands, if the path in it fits on one line and does not end a
block comment that is open there. Main statement: with such headings a flattened text has the code
that it has without them.
-/

namespace FlatSol

open Text Scan

namespace Source

/-- The code that a reader sees who comes to a text in the state `s`. -/
def codeFrom (s : Scan) (t : Text) : Text :=
  squeeze (paint s t)

theorem code_eq_codeFrom (t : Text) : code t = codeFrom .code t := by
  rw [code, codeFrom, mask_eq_paint]

theorem codeFrom_append_lineFeed (s : Scan) (a b : Text) :
    codeFrom s (a ++ '\n' :: b) = codeFrom s a ++ codeFrom ((s.after a).next '\n') b := by
  have hfeed : ∀ u : Text, squeeze ('\n' :: u) = squeeze u := fun _ => rfl
  rw [codeFrom, paint_append_lineFeed, squeeze_append, hfeed]
  rfl

theorem codeFrom_append_lineFeeds (s : Scan) (t : Text) (n : Nat) :
    codeFrom s (t ++ List.replicate n '\n') = codeFrom s t := by
  rw [codeFrom, paint_append_lineFeeds, squeeze_append, squeeze_lineFeeds, List.append_nil]
  rfl

/-- A text without the end mark of a block comment stays in the comment in which it is read. -/
theorem block_reads {t : Text} :
    (¬ Lexeme.blockEnd <:+: t → codeFrom .block t = [] ∧ (block.after t).inBlock = true) ∧
      (¬ Lexeme.blockEnd <:+: '*' :: t → codeFrom .star t = [] ∧ (star.after t).inBlock = true) := by
  have hblank : ∀ c, squeeze (blanked c) = [] := by
    intro c
    refine squeeze_of_blank fun d hd => ?_
    unfold blanked at hd
    split at hd
    · rw [List.mem_singleton.1 hd]
      rfl
    · rw [List.eq_of_mem_replicate hd]
      rfl
  induction t with
  | nil => exact ⟨fun _ => ⟨rfl, rfl⟩, fun _ => ⟨rfl, rfl⟩⟩
  | cons c cs ih =>
    have hcons : ∀ s : Scan, shown s c cs = blanked c →
        codeFrom s (c :: cs) = codeFrom (s.next c) cs := by
      intro s hs
      rw [codeFrom, paint, hs, squeeze_append, hblank, List.nil_append]
      rfl
    have hblock : ¬ Lexeme.blockEnd <:+: c :: cs →
        codeFrom (block.next c) cs = [] ∧ ((block.next c).after cs).inBlock = true := by
      intro h
      by_cases hc : c = '*'
      · subst hc
        exact ih.2 h
      · rw [next, if_neg hc]
        exact ih.1 fun hin => h (hin.trans (List.suffix_cons c cs).isInfix)
    refine ⟨fun h => ?_, fun h => ?_⟩
    · rw [hcons _ rfl, after_cons]
      exact hblock h
    · rw [hcons _ rfl, after_cons]
      have hne : c ≠ '/' := by
        rintro rfl
        exact h ⟨[], cs, rfl⟩
      have hnext : star.next c = block.next c := by simp [next, hne]
      rw [hnext]
      exact hblock fun hin => h (hin.trans (List.suffix_cons '*' (c :: cs)).isInfix)

/-- Behind a text without a star, the end mark of a block comment begins later. -/
theorem blockEnd_infix_append {a b : Text} (ha : '*' ∉ a) (h : Lexeme.blockEnd <:+: a ++ b) :
    Lexeme.blockEnd <:+: b := by
  induction a with
  | nil => exact h
  | cons c cs ih =>
    obtain ⟨hc, hcs⟩ : '*' ≠ c ∧ '*' ∉ cs := by simpa using ha
    rcases List.infix_cons_iff.1 h with hfront | hlater
    · exact absurd (List.cons_prefix_cons.1 hfront).1 hc
    · exact ih hcs hlater

/-- The states in front of a section of a flattened text. -/
def Between (s : Scan) : Prop :=
  s = .code ∨ s = .block

theorem between_next_next_lineFeed (s : Scan) : Between ((s.next '\n').next '\n') := by
  cases s <;> simp [next, isQuote, Between]

theorem codeFrom_append {s : Scan} {a : Text} (h : Between (s.after a)) (b : Text) :
    codeFrom s (a ++ b) = codeFrom s a ++ codeFrom (s.after a) b := by
  have hslash : s.after a ≠ .slash := by
    rcases h with h | h <;> simp [h]
  rw [codeFrom, paint_append (.inr (.inl hslash)), squeeze_append]
  rfl

theorem inBlock_next_lineFeed (s : Scan) : (s.next '\n').inBlock = s.inBlock := by
  cases s <;> simp [next, isQuote, inBlock]

theorem inBlock_after_lineFeeds (s : Scan) (t : Text) (n : Nat) :
    (s.after (t ++ List.replicate n '\n')).inBlock = (s.after t).inBlock := by
  induction n with
  | zero => rw [List.replicate_zero, List.append_nil]
  | succ n ih =>
    rw [List.replicate_succ', ← List.append_assoc, after_append]
    exact (inBlock_next_lineFeed _).trans ih

/-- The path in a heading fits on one line, and it does not end a block comment that is open. -/
structure Heads (s : Scan) (name : Text) : Prop where
  onOneLine : '\n' ∉ name
  inside : s.inBlock = true → ¬ Lexeme.blockEnd <:+: name

theorem lineComment_inside {s : Scan} {k : Text} (hs : Between s) (hline : '\n' ∉ k)
    (hin : s.inBlock = true → ¬ Lexeme.blockEnd <:+: k) (u : Text) :
    codeFrom s ('/' :: '/' :: k ++ '\n' :: u) = codeFrom s u ∧
      s.after ('/' :: '/' :: k ++ '\n' :: u) = s.after u := by
  have hreads : codeFrom s ('/' :: '/' :: k) = [] ∧
      (s.after ('/' :: '/' :: k)).next '\n' = s := by
    rcases hs with rfl | rfl
    · rw [← code_eq_codeFrom]
      exact ⟨squeeze_of_blank (lineComment_reads hline).1, next_after_lineComment hline⟩
    · have hnot : ¬ Lexeme.blockEnd <:+: '/' :: '/' :: k := fun h =>
        hin rfl (blockEnd_infix_append (a := ['/', '/']) (by decide) h)
      obtain ⟨hcode, hafter⟩ := block_reads.1 hnot
      refine ⟨hcode, ?_⟩
      revert hafter
      cases block.after ('/' :: '/' :: k) <;> simp [inBlock, next]
  have hafter : s.after ('/' :: '/' :: k ++ '\n' :: u) =
      ((s.after ('/' :: '/' :: k)).next '\n').after u := by
    rw [after_append]
    rfl
  rw [codeFrom_append_lineFeed, hafter, hreads.1, hreads.2]
  exact ⟨rfl, rfl⟩

end Source

namespace Render

open Source

/-! ### A text by its blocks -/

/-- Blocks with the empty line behind each of them. -/
def stretch (bs : List Text) : Text :=
  bs.flatMap fun b => b ++ ['\n', '\n']

theorem stretch_append (bs ds : List Text) : stretch (bs ++ ds) = stretch bs ++ stretch ds :=
  List.flatMap_append

theorem stretch_eq {bs : List Text} (h : bs ≠ []) :
    stretch bs = joinWith ['\n', '\n'] bs ++ List.replicate 2 '\n' := by
  induction bs with
  | nil => exact absurd rfl h
  | cons b bs ih =>
    cases bs with
    | nil => simp [stretch, joinWith]
    | cons d ds =>
      have hcons : stretch (b :: d :: ds) = b ++ ['\n', '\n'] ++ stretch (d :: ds) := rfl
      rw [hcons, ih (List.cons_ne_nil d ds), joinWith]
      simp

theorem between_after_stretch {s : Scan} (hs : Between s) (bs : List Text) :
    Between (s.after (stretch bs)) := by
  induction bs generalizing s with
  | nil => exact hs
  | cons b bs ih =>
    have hcons : stretch (b :: bs) = b ++ (['\n', '\n'] ++ stretch bs) := by simp [stretch]
    rw [hcons, after_append, after_append]
    exact ih (between_next_next_lineFeed _)

/-- A flattened text is made up of its header lines, an empty line, and its blocks, up to line feeds at
its ends. -/
theorem exists_assemble_stretch (headers blocks : List Text) : ∃ i j,
    headerText headers ++ '\n' :: stretch blocks =
      List.replicate i '\n' ++ assemble headers blocks ++ List.replicate j '\n' := by
  have hend : ∀ u : Text, ∃ j, u ++ List.replicate 2 '\n' = endLine u ++ List.replicate j '\n' := by
    intro u
    obtain ⟨j, hle, hj⟩ := exists_endLine_eq u
    refine ⟨2 - j, ?_⟩
    rw [hj, List.append_assoc, List.replicate_append_replicate, Nat.add_sub_cancel' (by omega)]
  rw [assemble_eq, sections]
  by_cases hb : blocks = []
  · subst hb
    have hheaders : endLine (headerText headers) = headerText headers := endLine_headerText headers
    refine ⟨0, 1, ?_⟩
    simp [stretch, joinWith, hheaders]
  · rw [stretch_eq hb]
    cases headers with
    | nil =>
      obtain ⟨j, hj⟩ := hend (joinWith ['\n', '\n'] blocks)
      refine ⟨1, j, ?_⟩
      have hgap : (if ([] : List Text).isEmpty || blocks.isEmpty then [] else ['\n']) =
          ([] : Text) := rfl
      rw [hgap]
      show '\n' :: (joinWith ['\n', '\n'] blocks ++ List.replicate 2 '\n') = _
      rw [hj]
      rfl
    | cons l ls =>
      obtain ⟨j, hj⟩ := hend (headerText (l :: ls) ++ ['\n'] ++ joinWith ['\n', '\n'] blocks)
      refine ⟨0, j, ?_⟩
      have hgap : (if (l :: ls).isEmpty || blocks.isEmpty then [] else ['\n']) = ['\n'] := by
        simp [hb]
      rw [hgap, List.replicate_zero, List.nil_append, ← hj]
      simp

/-- The state in front of the first block. -/
def blockStart (headers : List Text) : Scan :=
  (Scan.code.after (headerText headers)).next '\n'

theorem between_blockStart (headers : List Text) : Between (blockStart headers) := by
  rcases List.eq_nil_or_concat headers with rfl | ⟨ls, l, rfl⟩
  · exact .inl rfl
  · have htext : headerText (ls.concat l) = headerText ls ++ l ++ ['\n'] := by
      simp [headerText, List.concat_eq_append]
    rw [blockStart, htext, after_append]
    exact between_next_next_lineFeed _

theorem code_assemble (headers blocks : List Text) : Source.code (assemble headers blocks) =
    codeFrom .code (headerText headers) ++ codeFrom (blockStart headers) (stretch blocks) := by
  obtain ⟨i, j, h⟩ := exists_assemble_stretch headers blocks
  rw [blockStart, ← codeFrom_append_lineFeed, h, codeFrom_append_lineFeeds, codeFrom,
    paint_code_lineFeeds_append, squeeze_append, squeeze_lineFeeds, List.nil_append,
    Source.code, mask_eq_paint]

theorem inBlock_after_assemble (headers blocks : List Text) :
    (Scan.code.after (assemble headers blocks)).inBlock =
      ((blockStart headers).after (stretch blocks)).inBlock := by
  obtain ⟨i, j, h⟩ := exists_assemble_stretch headers blocks
  have hafter : (blockStart headers).after (stretch blocks) =
      Scan.code.after (headerText headers ++ '\n' :: stretch blocks) := by
    rw [after_append, after_cons, blockStart]
  rw [hafter, h, inBlock_after_lineFeeds, after_append, after_code_lineFeeds]

/-! ### One block -/

variable {root : Path} {p : Portion} {ps : List Portion}

theorem blocks_append (root : Path) (comments : Bool) (ps qs : List Portion) :
    blocks root comments (ps ++ qs) = blocks root comments ps ++ blocks root comments qs := by
  simp only [blocks, List.map_append, List.filterMap_append]

/-- Below its heading, a body is a block, and a heading stands alone if there is no body. -/
theorem blocks_true_singleton (root : Path) {t : Text} (hp : p.parts.body = asBlock t) :
    blocks root true [p] =
      [if p.parts.body = [] then '/' :: '/' :: trimEnd (headingText root p.path)
        else '/' :: '/' :: headingText root p.path ++ '\n' :: p.parts.body] := by
  have hblocks : blocks root true [p] = [trimEnd (block root true p)] := by
    simp only [blocks, List.map_cons, List.map_nil, List.filterMap_cons, isEmpty_trim_block_true,
      List.filterMap_nil]
    rfl
  rw [hblocks, trimEnd_block_true root hp]

theorem blocks_false_singleton (root : Path) (hp : ∃ t strip, p.parts = Source.split t strip) :
    blocks root false [p] = if p.parts.body = [] then [] else [p.parts.body] := by
  rw [blocks_eq root (by simpa using hp), List.map_singleton]
  cases p.parts.body <;> simp

/-- A heading adds nothing to the code of its block, and leaves the reader behind it in the same
state. -/
theorem codeFrom_block {s : Scan} (hs : Between s) (hp : ∃ t strip, p.parts = Source.split t strip)
    (h : Heads s (Path.relative root p.path).text) :
    codeFrom s (stretch (blocks root true [p])) = codeFrom s (stretch (blocks root false [p])) ∧
      s.after (stretch (blocks root true [p])) = s.after (stretch (blocks root false [p])) := by
  obtain ⟨t, strip, hparts⟩ := hp
  have hbody : p.parts.body = asBlock (cut (Source.cutSpans t strip) t) := by rw [hparts]; rfl
  have hline := lineFeed_notMem_headingText h.onOneLine
  have hinside : s.inBlock = true → ¬ Lexeme.blockEnd <:+: headingText root p.path := fun hopen hin =>
    have hlabel : '*' ∉ " File: ".toList := by decide
    h.inside hopen (blockEnd_infix_append hlabel hin)
  rw [blocks_true_singleton root hbody, blocks_false_singleton root ⟨t, strip, hparts⟩]
  by_cases hb : p.parts.body = []
  · rw [if_pos hb, if_pos hb]
    obtain ⟨w, hw, -⟩ := exists_blank_append_eq (headingText root p.path)
    have hprefix : trimEnd (headingText root p.path) <:+: headingText root p.path :=
      ⟨[], w, hw⟩
    obtain ⟨hcode, hafter⟩ := lineComment_inside hs (Source.notMem_trimEnd hline)
      (fun hopen hin => hinside hopen (hin.trans hprefix)) ['\n']
    have htext : stretch ['/' :: '/' :: trimEnd (headingText root p.path)] =
        '/' :: '/' :: trimEnd (headingText root p.path) ++ '\n' :: ['\n'] := by simp [stretch]
    rw [htext, hcode, hafter]
    rcases hs with rfl | rfl <;> exact ⟨rfl, rfl⟩
  · rw [if_neg hb, if_neg hb]
    obtain ⟨hcode, hafter⟩ := lineComment_inside hs hline hinside (p.parts.body ++ ['\n', '\n'])
    have htext : stretch ['/' :: '/' :: headingText root p.path ++ '\n' :: p.parts.body] =
        '/' :: '/' :: headingText root p.path ++ '\n' :: (p.parts.body ++ ['\n', '\n']) := by
      simp [stretch]
    have hbody : stretch [p.parts.body] = p.parts.body ++ ['\n', '\n'] := by simp [stretch]
    rw [htext, hbody]
    exact ⟨hcode, hafter⟩

/-- Every heading is a comment where it stands, in front of a reader who starts with the first block in
the state `s`. -/
def Headed (root : Path) (s : Scan) (ps : List Portion) : Prop :=
  ∀ before p after, ps = before ++ p :: after →
    Heads (s.after (stretch (blocks root false before))) (Path.relative root p.path).text

theorem codeFrom_blocks {s : Scan} (hs : Between s)
    (hp : ∀ p ∈ ps, ∃ t strip, p.parts = Source.split t strip) (h : Headed root s ps) :
    codeFrom s (stretch (blocks root true ps)) = codeFrom s (stretch (blocks root false ps)) := by
  induction ps generalizing s with
  | nil => rfl
  | cons p ps ih =>
    obtain ⟨hfirst, hrest⟩ := List.forall_mem_cons.1 hp
    have hblocks : ∀ comments, stretch (blocks root comments (p :: ps)) =
        stretch (blocks root comments [p]) ++ stretch (blocks root comments ps) := fun comments => by
      rw [← stretch_append, ← blocks_append]
      rfl
    obtain ⟨hcode, hafter⟩ := codeFrom_block hs hfirst (h [] p ps rfl)
    have hbetween := fun comments => between_after_stretch hs (blocks root comments [p])
    rw [hblocks, hblocks, codeFrom_append (hbetween true), codeFrom_append (hbetween false), hcode,
      hafter, ih (hbetween false) hrest]
    intro before q after hsplit
    have hq := h (p :: before) q after (by rw [hsplit]; rfl)
    have hbefore : blocks root false (p :: before) =
        blocks root false [p] ++ blocks root false before := blocks_append root false [p] before
    rwa [hbefore, stretch_append, after_append] at hq

end Render

namespace Graph

/-- The headings of a flattened text that are comments: their paths fit on one line, and none of them
ends a block comment that the text before it, without headings, leaves open. -/
def HeadingsHold (g : Graph) (project : Path) (s : Settings) : Prop :=
  ∀ before p after, g.portions s = before ++ p :: after →
    Source.Heads (Scan.code.after (Render.assemble (Render.headerLines (g.portions s))
      (Render.blocks project false before))) (Path.relative project p.path).text

/-- Headings change neither the files nor the warnings of a flattened text, and if they hold they change
none of its code. -/
theorem code_render_headings (g : Graph) (project : Path) (s : Settings) :
    (render g project { s with sourceComments := true }).files =
        (render g project { s with sourceComments := false }).files ∧
      (render g project { s with sourceComments := true }).warnings =
        (render g project { s with sourceComments := false }).warnings ∧
      (g.HeadingsHold project s →
        Source.code (render g project { s with sourceComments := true }).text =
          Source.code (render g project { s with sourceComments := false }).text) := by
  refine ⟨rfl, rfl, fun hholds => ?_⟩
  show Source.code (Render.assemble (Render.headerLines (g.portions s))
      (Render.blocks project true (g.portions s))) =
    Source.code (Render.assemble (Render.headerLines (g.portions s))
      (Render.blocks project false (g.portions s)))
  rw [Render.code_assemble, Render.code_assemble]
  refine congrArg _ (Render.codeFrom_blocks (Render.between_blockStart _)
    Render.exists_split_of_mem_portions fun before p after hsplit => ?_)
  obtain ⟨hline, hinside⟩ := hholds before p after hsplit
  rw [Render.inBlock_after_assemble] at hinside
  exact ⟨hline, hinside⟩

/-- In a graph whose paths below the project have neither a line feed nor a star, all headings hold. -/
theorem headingsHold_of_plain {g : Graph} {project : Path} {s : Settings}
    (h : ∀ p ∈ g.portions s, '\n' ∉ (Path.relative project p.path).text ∧
      '*' ∉ (Path.relative project p.path).text) : g.HeadingsHold project s := by
  intro before p after hsplit
  obtain ⟨hline, hstar⟩ := h p (by rw [hsplit]; simp)
  exact ⟨hline, fun _ hin => hstar (hin.subset (List.mem_cons_self ..))⟩

theorem code_render_headings_plain :
    build (pairTree plainText "B".toList) ⟨"A".toList⟩ ⟨"/p".toList⟩ =
        .ok (pairGraph plainText "B".toList ⟨10, 24⟩) ∧
      (pairGraph plainText "B".toList ⟨10, 24⟩).HeadingsHold ⟨"/p".toList⟩ {} ∧
      Source.code (render (pairGraph plainText "B".toList ⟨10, 24⟩) ⟨"/p".toList⟩
          { sourceComments := true }).text =
        Source.code (render (pairGraph plainText "B".toList ⟨10, 24⟩) ⟨"/p".toList⟩
          { sourceComments := false }).text := by
  have hpaths : ((pairGraph plainText "B".toList ⟨10, 24⟩).portions {}).map Portion.path =
      [⟨"/p/B".toList⟩, ⟨"/p/A".toList⟩] := by cbv
  have hplain : ∀ q ∈ [(⟨"/p/B".toList⟩ : Path), ⟨"/p/A".toList⟩],
      '\n' ∉ (Path.relative ⟨"/p".toList⟩ q).text ∧ '*' ∉ (Path.relative ⟨"/p".toList⟩ q).text := by
    decide
  have hholds : (pairGraph plainText "B".toList ⟨10, 24⟩).HeadingsHold ⟨"/p".toList⟩ {} :=
    headingsHold_of_plain fun p hp => hplain _ (hpaths ▸ List.mem_map_of_mem hp)
  exact ⟨build_plain, hholds,
    (code_render_headings (pairGraph plainText "B".toList ⟨10, 24⟩) ⟨"/p".toList⟩ {}).2.2 hholds⟩

/-- A file whose name has a line feed. -/
def brokenNameTree : FileTree where
  entries := [(["p".toList], .dir), (["p".toList, "A\nX".toList], .file (toBytes "B".toList))]
  workDir := some ["p".toList]

/-- A file in a directory named by a star, and another one that ends in an open block comment. -/
def starTree : FileTree where
  entries :=
    [(["p".toList], .dir), (["p".toList, "*".toList], .dir),
      (["p".toList, "*".toList, "A".toList], .file (toBytes "import '../B';\nA".toList)),
      (["p".toList, "B".toList], .file (toBytes "/*".toList))]
  workDir := some ["p".toList]

def starGraph : Graph where
  files :=
    [⟨["p".toList, "*".toList, "A".toList], "import '../B';\nA".toList,
        [(⟨"../B".toList, ⟨0, 15⟩⟩, .resolved ["p".toList, "B".toList])]⟩,
      ⟨["p".toList, "B".toList], "/*".toList, []⟩]
  links := [(["p".toList, "*".toList, "A".toList], ["p".toList, "B".toList])]
  warnings := []
  events := [.following "../B".toList ⟨"/p/*/A".toList⟩]

/-- A line feed in the name of a file ends its heading, and a star in front of a slash ends a block
comment that was open: the rest of the path, or the body, becomes code. -/
theorem code_render_brokenName :
    (build brokenNameTree ⟨"A\nX".toList⟩ ⟨"/p".toList⟩ =
        .ok (single ["p".toList, "A\nX".toList] "B".toList) ∧
      Source.code (render (single ["p".toList, "A\nX".toList] "B".toList) ⟨"/p".toList⟩
        { sourceComments := true }).text = "XB".toList ∧
      Source.code (render (single ["p".toList, "A\nX".toList] "B".toList) ⟨"/p".toList⟩
        { sourceComments := false }).text = "B".toList) ∧
    build starTree ⟨"*/A".toList⟩ ⟨"/p".toList⟩ = .ok starGraph ∧
      Source.code (render starGraph ⟨"/p".toList⟩ { sourceComments := true }).text = "AA".toList ∧
      Source.code (render starGraph ⟨"/p".toList⟩ { sourceComments := false }).text = [] := by
  have hname : (Path.relative ⟨"/p".toList⟩ ⟨"/p/A\nX".toList⟩).text = "A\nX".toList := by decide
  have hB : (Path.relative ⟨"/p".toList⟩ ⟨"/p/B".toList⟩).text = "B".toList := by decide
  have hA : (Path.relative ⟨"/p".toList⟩ ⟨"/p/*/A".toList⟩).text = "*/A".toList := by decide
  have hsingle : (single ["p".toList, "A\nX".toList] "B".toList).portions {} =
      [⟨⟨"/p/A\nX".toList⟩, ⟨none, none, [], "B".toList⟩⟩] := by
    rw [portions, flattenOrder_single]
    cbv
  have hstar : starGraph.portions {} = [⟨⟨"/p/B".toList⟩, ⟨none, none, [], "/*".toList⟩⟩,
      ⟨⟨"/p/*/A".toList⟩, ⟨none, none, [], "A".toList⟩⟩] := by cbv
  have hrender : ∀ (g : Graph) (comments : Bool), (render g ⟨"/p".toList⟩
      { sourceComments := comments }).text = Render.assemble (Render.headerLines (g.portions {}))
        (Render.blocks ⟨"/p".toList⟩ comments (g.portions {})) := fun _ _ => rfl
  have hheading : ∀ (file : Path) (name : Text), (Path.relative ⟨"/p".toList⟩ file).text = name →
      ∀ parts, Render.block ⟨"/p".toList⟩ true ⟨file, parts⟩ =
        '/' :: '/' :: (" File: ".toList ++ name) ++ ['\n'] ++ parts.body := by
    intro file name hname parts
    have htext : Render.headingText ⟨"/p".toList⟩ file = " File: ".toList ++ name := by
      delta Render.headingText
      rw [hname]
    rw [Render.block, if_pos rfl, Render.heading_eq, htext]
  refine ⟨⟨by cbv, ?_, ?_⟩, by cbv, ?_, ?_⟩
  · rw [hrender, hsingle, Render.blocks, List.map_singleton, hheading _ _ hname]
    cbv
  · rw [hrender, hsingle]
    cbv
  · rw [hrender, hstar, Render.blocks, List.map_cons, List.map_singleton, hheading _ _ hB,
      hheading _ _ hA]
    cbv
  · rw [hrender, hstar]
    cbv

end Graph

end FlatSol
