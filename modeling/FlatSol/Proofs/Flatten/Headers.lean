import FlatSol.Proofs.Flatten.Imports
import FlatSol.Proofs.Source.HeaderCut

/-!
# Flattening writes each header line once

A flattened text has one licence line at most, and its pragma statements are those of its header: one
version pragma at most, and every other pragma once.
-/

namespace FlatSol

open Text Scan

theorem nodup_eraseDups {α : Type} [BEq α] [LawfulBEq α] (xs : List α) : xs.eraseDups.Nodup := by
  induction xs using List.reverseRecOn with
  | nil => exact List.nodup_nil
  | append_singleton xs x ih =>
    rw [eraseDups_concat]
    split
    · exact ih
    · next hx =>
      refine List.nodup_append.2 ⟨ih, List.nodup_singleton x, fun y hy z hz hyz => hx ?_⟩
      rw [List.mem_singleton.1 hz] at hyz
      exact List.mem_eraseDups.1 (hyz ▸ hy)

theorem eraseDups_of_nodup {α : Type} [BEq α] [LawfulBEq α] {xs : List α} (h : xs.Nodup) :
    xs.eraseDups = xs := by
  induction xs using List.reverseRecOn with
  | nil => rfl
  | append_singleton xs x ih =>
    obtain ⟨hxs, -, hx⟩ := List.nodup_append.1 h
    have hnot : x ∉ xs := fun hmem => hx x hmem x (List.mem_singleton_self x) rfl
    rw [eraseDups_concat, if_neg hnot, ih hxs]

namespace Source

/-- A text in which no header line is given twice. -/
structure SingleHeaders (t : Text) : Prop where
  license : (licenses t).length ≤ 1
  version : (((pragmas t).map Found.value).filter fun p => p.name == versionName).length ≤ 1
  others : ((((pragmas t).map Found.value).filter fun p => p.name != versionName).map
    Pragma.statement).Nodup

variable {t : Text} {strip : List Span}

/-! ### Bodies -/

theorem lacks_license_body (h : KeepsHeaders t strip)
    (hstrip : ∀ s ∈ strip, ∃ d ∈ imports t, d.span = s) :
    Lacks beginsLicense (split t strip).body := by
  have hbody : (split t strip).body = asBlock (keep (stays t strip) 0 t) := by
    have hcut := cut_eq_keep (fits_of_strip hstrip)
    exact congrArg asBlock hcut
  rw [hbody]
  exact (lacks_license_keep h hstrip).asBlock beginning_license

theorem lacks_pragma_body (h : KeepsHeaders t strip)
    (hstrip : ∀ s ∈ strip, ∃ d ∈ imports t, d.span = s)
    (hend : (Scan.code.after t).inBlock = false) :
    Lacks beginsPragma (mask (split t strip).body) := by
  have hfits : ∀ s ∈ strip, Fits t s := by
    intro s hs
    obtain ⟨d, hd, rfl⟩ := hstrip s hs
    exact fits_of_mem_imports hd
  obtain ⟨⟨i, j, hlines⟩, -⟩ := exists_mask_body h.toCutsCleanly hfits hend
  exact ((lacks_pragma_keep h hstrip).of_padded beginning_pragma hlines).of_lineFeeds
    beginning_pragma

/-! ### Lines -/

/-- A line that begins with a character of its own can be a licence line by its front only. -/
theorem lacks_license_of_line {c : Char} {u : Text} (hu : '\n' ∉ c :: u) (hc : isMargin c = false)
    (hmark : startsMark (c :: u) = false) : Lacks beginsLicense (c :: u) := by
  intro a b hab
  cases a with
  | nil =>
    rw [List.nil_append] at hab
    rw [beginsLicense, ← hab, hmark, Bool.and_false]
  | cons d ds =>
    obtain ⟨rfl, rfl⟩ := List.cons.inj hab
    have hline : '\n' ∉ c :: ds := fun hmem => hu (by
      rcases List.mem_cons.1 hmem with hmem | hmem
      · exact List.mem_cons.2 (.inl hmem)
      · exact List.mem_cons.2 (.inr (List.mem_append_left b hmem)))
    rw [beginsLicense, lastLine_of_notMem hline, List.all_cons, hc, Bool.false_and, Bool.false_and]

/-! ### The search for pragma statements -/

theorem findFrom_of_lacks {a t : Text} (ha : startsLine a.getLast? = true)
    (h : Lacks beginsPragma t) : pragmaStatement.findFrom (byteSize a) 0 a.getLast? t = [] := by
  refine Pattern.findFrom_eq_nil fun x y hxy => ?_
  cases hm : pragmaStatement (a ++ x).getLast? y with
  | none => rfl
  | some m =>
    have hbegins := beginsPragma_of_pragmaStatement hm
    rw [lastLine_append_of_startsLine ha, h x y hxy] at hbegins
    exact Bool.noConfusion hbegins

/-- No pragma statement starts with a blank character. -/
theorem pragmaStatement_of_isBlank {before : Option Char} {c : Char} (hc : isBlank c = true)
    (t : Text) : pragmaStatement before (c :: t) = none := by
  cases hm : pragmaStatement before (c :: t) with
  | none => rfl
  | some m =>
    obtain ⟨-, s, behind, hs, -⟩ := pragmaStatement_eq_some_iff.1 hm
    obtain rfl : c = 'p' := (List.cons.inj hs).1
    exact absurd hc (by decide)

theorem findFrom_blank {a u t : Text} (hu : ∀ c ∈ u, isBlank c = true) :
    pragmaStatement.findFrom (byteSize a) 0 a.getLast? (u ++ t) =
      pragmaStatement.findFrom (byteSize (a ++ u)) 0 (a ++ u).getLast? t :=
  Pattern.findFrom_append_of_eq_none fun x c y hxy =>
    pragmaStatement_of_isBlank (hu c (by rw [hxy]; simp)) _

theorem startsWord_of_startsLine {before : Option Char} (h : startsLine before = true) :
    startsWord before = true := by
  cases before with
  | none => rfl
  | some c =>
    obtain rfl : c = '\n' := by simpa [startsLine] using h
    rfl

/-- What is found of pragma statements on lines of their own, the first of which starts at byte `n`. -/
def foundLines : Nat → List PragmaForm → List (Found Pragma)
  | _, [] => []
  | n, s :: ss => ⟨⟨n, n + byteSize s.text⟩, s.pragma⟩ :: foundLines (n + byteSize s.text + 1) ss

theorem map_value_foundLines (n : Nat) (ss : List PragmaForm) :
    (foundLines n ss).map Found.value = ss.map PragmaForm.pragma := by
  induction ss generalizing n with
  | nil => rfl
  | cons s ss ih => rw [foundLines, List.map_cons, ih, List.map_cons]

/-- The pattern finds nothing in the text, wherever that starts a line. -/
def Absent {α : Type} (p : Pattern α) (t : Text) : Prop :=
  ∀ a : Text, startsLine a.getLast? = true → p.findFrom (byteSize a) 0 a.getLast? t = []

/-- Pragma statements on lines of their own are found one by one. -/
theorem findFrom_headerText {ss : List PragmaForm} {a t : Text}
    (ha : startsLine a.getLast? = true) (h : Absent pragmaStatement t) :
    pragmaStatement.findFrom (byteSize a) 0 a.getLast?
      (Render.headerText (ss.map PragmaForm.text) ++ t) = foundLines (byteSize a) ss := by
  induction ss generalizing a with
  | nil => exact h a ha
  | cons s ss ih =>
    have hfeed : ∀ c ∈ ['\n'], isBlank c = true := by simp [isBlank]
    have htext : Render.headerText ((s :: ss).map PragmaForm.text) ++ t =
        s.text ++ (['\n'] ++ (Render.headerText (ss.map PragmaForm.text) ++ t)) := by
      simp [Render.headerText]
    have hne : s.text ≠ [] := by simp [PragmaForm.text]
    have hsize : byteSize (a ++ s.text ++ ['\n']) = byteSize a + byteSize s.text + 1 := by
      rw [byteSize_append, byteSize_append]
      rfl
    rw [htext, Pattern.findFrom_append_of_eq_some
      (pragmaStatement_append (startsWord_of_startsLine ha) s _) rfl hne, findFrom_blank hfeed,
      ih (by simp [startsLine]), hsize, byteSize_append, foundLines]

end Source

namespace Render

/-! ### Blocks -/

/-- A block that adds no header line and leaves the reader in the code. -/
structure Headerless (b : Text) : Prop where
  license : Lacks Source.beginsLicense b
  pragma : Lacks Source.beginsPragma (Source.mask b)
  after : Scan.code.after (b ++ ['\n', '\n']) = .code

theorem lacks_license_comment {k : Text} (hk : '\n' ∉ k)
    (hmark : Source.startsMark ('/' :: '/' :: k) = false) :
    Lacks Source.beginsLicense ('/' :: '/' :: k) := by
  refine Source.lacks_license_of_line ?_ rfl hmark
  intro hmem
  rcases List.mem_cons.1 hmem with hmem | hmem
  · exact absurd hmem (by decide)
  · rcases List.mem_cons.1 hmem with hmem | hmem
    · exact absurd hmem (by decide)
    · exact hk hmem

theorem headerless_comment {k : Text} (hk : '\n' ∉ k)
    (hmark : Source.startsMark ('/' :: '/' :: k) = false) : Headerless ('/' :: '/' :: k) := by
  have hblank := (Source.lineComment_reads hk).1
  refine ⟨lacks_license_comment hk hmark, lacks_of_blank Source.beginning_pragma hblank, ?_⟩
  rw [Source.after_lineComment_append hk]
  rfl

theorem headerless_comment_append {k b : Text} (hk : '\n' ∉ k)
    (hmark : Source.startsMark ('/' :: '/' :: k) = false) (hb : Headerless b) :
    Headerless ('/' :: '/' :: k ++ '\n' :: b) := by
  have hblank := (Source.lineComment_reads hk).1
  refine ⟨(lacks_license_comment hk hmark).append_lineFeed Source.beginning_license hb.license,
    ?_, ?_⟩
  · rw [Source.mask_lineComment_append hk]
    exact (lacks_of_blank Source.beginning_pragma hblank).append_lineFeed Source.beginning_pragma
      hb.pragma
  · rw [List.append_assoc]
    exact (Source.after_lineComment_append hk _).trans hb.after

theorem exists_headingText (root file : Path) : ∃ z, headingText root file = ' ' :: 'F' :: z ∧
    trimEnd (headingText root file) = ' ' :: 'F' :: trimEnd z := by
  have hlabel : " File: ".toList = ' ' :: 'F' :: "ile: ".toList := by decide
  have htext : headingText root file =
      ' ' :: 'F' :: ("ile: ".toList ++ (Path.relative root file).text) := by
    delta headingText
    rw [hlabel]
    simp only [List.cons_append]
  refine ⟨_, htext, ?_⟩
  rw [htext, trimEnd_cons_of_not (by simp [isBlank]), trimEnd_cons_of_not (by simp [isBlank])]

theorem startsMark_heading (z : Text) : Source.startsMark ('/' :: '/' :: ' ' :: 'F' :: z) = false := by
  rw [Bool.eq_false_iff, Ne, Source.startsMark_eq_true_iff]
  rintro ⟨margin, r, hmargin, h⟩
  obtain ⟨⟨u, hu⟩, -⟩ := Source.exists_licenseMark
  have htext : [' '] ++ 'F' :: z = margin ++ 'S' :: (u ++ r) := by simpa [hu] using h
  have hfirst : 'F' = 'S' := head_inj_of_append htext (by simp [isMargin]) hmargin rfl rfl
  exact absurd hfirst (by decide)

/-- What is written of a block: its body, its heading, or both. -/
theorem trimEnd_block_cases (root : Path) (comments : Bool) {p : Portion} {t : Text}
    (hp : p.parts.body = asBlock t) :
    trimEnd (block root comments p) = p.parts.body ∨ comments = true ∧
      (trimEnd (block root comments p) = '/' :: '/' :: trimEnd (headingText root p.path) ∨
        trimEnd (block root comments p) =
          '/' :: '/' :: headingText root p.path ++ '\n' :: p.parts.body) := by
  cases comments with
  | false =>
    have htrim : trimEnd p.parts.body = p.parts.body := by rw [hp, trimEnd_asBlock]
    exact .inl htrim
  | true =>
    refine .inr ⟨rfl, ?_⟩
    rw [trimEnd_block_true root hp]
    split
    · exact .inl rfl
    · exact .inr rfl

theorem headerless_block {root : Path} {comments : Bool} {p : Portion} {t : Text}
    (hp : p.parts.body = asBlock t) (hb : Headerless p.parts.body)
    (hroot : comments = true → '\n' ∉ (Path.relative root p.path).text) :
    Headerless (trimEnd (block root comments p)) := by
  rcases trimEnd_block_cases root comments hp with h | ⟨rfl, h⟩
  · rw [h]
    exact hb
  · have hplain := lineFeed_notMem_headingText (hroot rfl)
    obtain ⟨z, htext, htrim⟩ := exists_headingText root p.path
    rcases h with h | h
    · rw [h]
      refine headerless_comment (Source.notMem_trimEnd hplain) ?_
      rw [htrim, startsMark_heading]
    · rw [h]
      refine headerless_comment_append hplain ?_ hb
      rw [htext, startsMark_heading]

theorem headerless_of_mem_blocks {root : Path} {comments : Bool} {ps : List Portion}
    (h : ∀ p ∈ ps, Headerless (trimEnd (block root comments p))) :
    ∀ b ∈ blocks root comments ps, Headerless b := by
  intro b hb
  obtain ⟨c, hc, hcb⟩ := List.mem_filterMap.1 hb
  obtain ⟨p, hp, rfl⟩ := List.mem_map.1 hc
  split at hcb
  · cases hcb
  · rw [← Option.some.inj hcb]
    exact h p hp

/-! ### Sections -/

theorem exists_assemble_eq (headers blocks : List Text) :
    ∃ i j, assemble headers blocks = headerText headers ++
      (List.replicate i '\n' ++ joinWith ['\n', '\n'] blocks ++ List.replicate j '\n') := by
  have hgap : ∃ i, (if headers.isEmpty || blocks.isEmpty then [] else ['\n']) =
      List.replicate i '\n' := by
    split
    · exact ⟨0, rfl⟩
    · exact ⟨1, rfl⟩
  obtain ⟨i, hi⟩ := hgap
  obtain ⟨j, -, hj⟩ := exists_endLine_eq (sections headers blocks)
  refine ⟨i, j, ?_⟩
  rw [assemble_eq, hj, sections, hi]
  simp

/-- Blocks that add no header line, and lines before them that are none either, lack them. -/
theorem lacks_headerText_append {β : Text → Text → Bool} (hβ : Beginning β) {ls : List Text}
    {t : Text} (hl : ∀ l ∈ ls, Lacks β l) (ht : Lacks β t) : Lacks β (headerText ls ++ t) := by
  induction ls with
  | nil => exact ht
  | cons l ls ih =>
    obtain ⟨hfirst, hls⟩ := List.forall_mem_cons.1 hl
    have htext : headerText (l :: ls) ++ t = l ++ '\n' :: (headerText ls ++ t) := by
      simp [headerText]
    rw [htext]
    exact hfirst.append_lineFeed hβ (ih hls)

/-! ### Pragmas of the header -/

variable {ps : List Portion}

theorem exists_form_of_found {t : Text} {f : Found Pragma} (h : f ∈ Source.pragmas t) :
    ∃ s : Source.PragmaForm, s.text = f.value.statement ∧ s.pragma = f.value := by
  obtain ⟨a, s, b, -, -, rfl⟩ := Source.exists_form_of_mem_pragmas h
  exact s.exists_onOneLine

theorem exists_form_of_version (hp : ∀ p ∈ ps, ∃ t strip, p.parts = Source.split t strip) {l : Text}
    (h : l ∈ (keptVersion ps).toList) : ∃ s : Source.PragmaForm, s.text = l ∧
      (s.pragma.name = Source.versionName ∧ s.pragma.statement = l) := by
  rw [Option.mem_toList, keptVersion] at h
  obtain ⟨p, hmem, hl⟩ := List.exists_of_findSome?_eq_some h
  obtain ⟨t, strip, hparts⟩ := hp p hmem
  rw [hparts] at hl
  obtain ⟨q, hq, rfl⟩ := Option.map_eq_some_iff.1 hl
  obtain ⟨hfound, hname⟩ := List.mem_filter.1 (List.mem_of_mem_head? hq)
  obtain ⟨f, hf, rfl⟩ := List.mem_map.1 hfound
  obtain ⟨s, htext, hpragma⟩ := exists_form_of_found hf
  exact ⟨s, htext, by rw [hpragma]; simpa using hname, by rw [hpragma]⟩

theorem exists_form_of_other (hp : ∀ p ∈ ps, ∃ t strip, p.parts = Source.split t strip) {l : Text}
    (h : l ∈ keptPragmas ps) : ∃ s : Source.PragmaForm, s.text = l ∧
      (s.pragma.name ≠ Source.versionName ∧ s.pragma.statement = l) := by
  rw [keptPragmas, List.mem_eraseDups] at h
  obtain ⟨p, hmem, hl⟩ := List.mem_flatMap.1 h
  obtain ⟨t, strip, hparts⟩ := hp p hmem
  rw [hparts] at hl
  obtain ⟨q, hq, rfl⟩ := List.mem_map.1 (List.mem_eraseDups.1 hl)
  obtain ⟨hfound, hname⟩ := List.mem_filter.1 hq
  obtain ⟨f, hf, rfl⟩ := List.mem_map.1 hfound
  obtain ⟨s, htext, hpragma⟩ := exists_form_of_found hf
  exact ⟨s, htext, by rw [hpragma]; simpa using hname, by rw [hpragma]⟩

/-- Lines that are pragma statements of one kind. -/
theorem exists_forms_of_forall {q : Pragma → Prop} {ls : List Text}
    (h : ∀ l ∈ ls, ∃ s : Source.PragmaForm, s.text = l ∧ (q s.pragma ∧ s.pragma.statement = l)) :
    ∃ ss : List Source.PragmaForm, ls = ss.map Source.PragmaForm.text ∧
      (∀ p ∈ ss.map Source.PragmaForm.pragma, q p) ∧
        (ss.map Source.PragmaForm.pragma).map Pragma.statement = ls := by
  induction ls with
  | nil => exact ⟨[], rfl, by simp, rfl⟩
  | cons l ls ih =>
    obtain ⟨⟨s, rfl, hs, hstatement⟩, hls⟩ := List.forall_mem_cons.1 h
    obtain ⟨ss, htexts, hss, hstatements⟩ := ih hls
    exact ⟨s :: ss, by rw [htexts, List.map_cons], List.forall_mem_cons.2 ⟨hs, hss⟩,
      by rw [List.map_cons, List.map_cons, hstatements, hstatement]⟩

/-- The pragma lines of the header are pragma statements: the version pragma, if there is one, and
the others. -/
theorem exists_forms (hp : ∀ p ∈ ps, ∃ t strip, p.parts = Source.split t strip) :
    ∃ ss : List Source.PragmaForm, pragmaLines ps = ss.map Source.PragmaForm.text ∧
      ((ss.map Source.PragmaForm.pragma).filter fun p => p.name == Source.versionName).map
          Pragma.statement = (keptVersion ps).toList ∧
        ((ss.map Source.PragmaForm.pragma).filter fun p => p.name != Source.versionName).map
          Pragma.statement = keptPragmas ps := by
  obtain ⟨vs, hvs, hfirst, hversion⟩ := exists_forms_of_forall
    (q := fun p => p.name = Source.versionName) fun l hl => exists_form_of_version hp hl
  obtain ⟨os, hos, hsecond, hothers⟩ := exists_forms_of_forall
    (q := fun p => p.name ≠ Source.versionName) fun l hl => exists_form_of_other hp hl
  refine ⟨vs ++ os, by rw [pragmaLines, List.map_append, ← hvs, ← hos], ?_, ?_⟩
  · rw [List.map_append, List.filter_append,
      List.filter_eq_self.2 fun p hp => by simpa using hfirst p hp,
      List.filter_eq_nil_iff.2 fun p hp => by simpa using hsecond p hp, List.append_nil, hversion]
  · rw [List.map_append, List.filter_append,
      List.filter_eq_nil_iff.2 fun p hp => by simpa using hfirst p hp,
      List.filter_eq_self.2 fun p hp => by simpa using hsecond p hp, List.nil_append, hothers]

/-! ### The whole text -/

theorem lacks_license_pragmaLine (hp : ∀ p ∈ ps, ∃ t strip, p.parts = Source.split t strip) :
    ∀ l ∈ pragmaLines ps, Lacks Source.beginsLicense l := by
  intro l hl
  obtain ⟨t, f, hf, rfl⟩ := exists_pragma hp hl
  obtain ⟨-, ⟨u, hu⟩, hfeed⟩ := Source.exists_pragma_statement hf
  rw [hu] at hfeed ⊢
  exact Source.lacks_license_of_line hfeed rfl rfl

/-- In front of a text without licence lines, the header has its own. -/
theorem licenses_headerLines (hp : ∀ p ∈ ps, ∃ t strip, p.parts = Source.split t strip) {u : Text}
    (hu : Lacks Source.beginsLicense u) : Source.licenses (headerText (headerLines ps) ++ u) =
      (keptLicense ps).toList.map fun l => ⟨⟨0, byteSize (l ++ ['\n'])⟩, l⟩ := by
  have hrest := lacks_headerText_append Source.beginning_license (lacks_license_pragmaLine hp) hu
  rw [headerLines_eq]
  cases hk : keptLicense ps with
  | none => exact Source.licenses_of_lacks hrest
  | some l =>
    obtain ⟨t, f, hf, rfl⟩ := exists_license (l := l) hp (by rw [hk]; simp)
    obtain ⟨hmark, htrim, hline⟩ := Source.license_value hf
    have hfirst : headerText ((some f.value).toList ++ pragmaLines ps) ++ u =
        f.value ++ '\n' :: (headerText (pragmaLines ps) ++ u) := by
      simp [headerText]
    rw [hfirst]
    exact Source.licenses_append_lineFeed hmark htrim hline hrest

theorem length_licenses_assemble {blocks : List Text}
    (hp : ∀ p ∈ ps, ∃ t strip, p.parts = Source.split t strip)
    (hb : ∀ b ∈ blocks, Lacks Source.beginsLicense b) :
    (Source.licenses (assemble (headerLines ps) blocks)).length ≤ 1 := by
  obtain ⟨i, j, htext⟩ := exists_assemble_eq (headerLines ps) blocks
  have hblocks := (lacks_joinWith Source.beginning_license hb).lineFeeds Source.beginning_license i j
  rw [htext, licenses_headerLines hp hblocks, List.length_map]
  exact Option.length_toList_le

theorem mask_headerLines (hp : ∀ p ∈ ps, ∃ t strip, p.parts = Source.split t strip)
    (hpragmas : ∀ l ∈ pragmaLines ps, Source.mask l = l) (u : Text) :
    Source.mask (headerText (headerLines ps) ++ u) =
      headerText ((headerLines ps).map Source.mask) ++ Source.mask u := by
  have hafter := after_headerLine hp (inBlock_pragmaLine hp hpragmas)
  have hmask : Source.mask = paint code := funext mask_eq_paint
  rw [hmask, mask_headerText_append hafter]

/-- In front of a text without pragma statements, those of the header are found. -/
theorem findAll_headerLines {ss : List Source.PragmaForm}
    (hp : ∀ p ∈ ps, ∃ t strip, p.parts = Source.split t strip)
    (hpragmas : ∀ l ∈ pragmaLines ps, Source.mask l = l)
    (hss : pragmaLines ps = ss.map Source.PragmaForm.text) {u : Text}
    (hu : Source.Absent Source.pragmaStatement (Source.mask u)) :
    Source.pragmaStatement.findAll (Source.mask (headerText (headerLines ps) ++ u)) =
      Source.foundLines (byteSize (headerText (keptLicense ps).toList)) ss := by
  have hkept : (pragmaLines ps).map Source.mask = ss.map Source.PragmaForm.text := by
    rw [← hss]
    exact (List.map_congr_left hpragmas).trans (List.map_id _)
  have hmask : Source.mask (headerText (headerLines ps) ++ u) =
      headerText ((keptLicense ps).toList.map Source.mask) ++
        (headerText (ss.map Source.PragmaForm.text) ++ Source.mask u) := by
    rw [mask_headerLines hp hpragmas, headerLines_eq, List.map_append, hkept, headerText,
      List.flatMap_append, List.append_assoc]
    rfl
  -- the licence line is blank in the masked text
  have hblank : ∀ c ∈ headerText ((keptLicense ps).toList.map Source.mask), isBlank c = true := by
    intro c hc
    obtain ⟨m, hm, hc⟩ := List.mem_flatMap.1 hc
    obtain ⟨l, hl, rfl⟩ := List.mem_map.1 hm
    obtain ⟨t, f, hf, rfl⟩ := exists_license hp hl
    rcases List.mem_append.1 hc with hc | hc
    · exact (Source.license_reads hf).1 c hc
    · rw [List.mem_singleton.1 hc]
      rfl
  have hline : startsLine (headerText ((keptLicense ps).toList.map Source.mask)).getLast? = true := by
    cases keptLicense ps with
    | none => rfl
    | some l => simp [headerText, startsLine]
  have hsize : byteSize (headerText ((keptLicense ps).toList.map Source.mask)) =
      byteSize (headerText (keptLicense ps).toList) := by
    cases keptLicense ps with
    | none => rfl
    | some l => simp [headerText, Source.byteSize_mask]
  have hfound := Source.findFrom_blank (a := []) hblank
    (t := headerText (ss.map Source.PragmaForm.text) ++ Source.mask u)
  rw [hmask, ← hsize]
  exact hfound.trans (Source.findFrom_headerText hline hu)

theorem pragmas_assemble {blocks : List Text} {ss : List Source.PragmaForm}
    (hp : ∀ p ∈ ps, ∃ t strip, p.parts = Source.split t strip)
    (hpragmas : ∀ l ∈ pragmaLines ps, Source.mask l = l)
    (hss : pragmaLines ps = ss.map Source.PragmaForm.text) (hb : ∀ b ∈ blocks, Headerless b) :
    (Source.pragmas (assemble (headerLines ps) blocks)).map Found.value =
      ss.map Source.PragmaForm.pragma := by
  obtain ⟨i, j, htext⟩ := exists_assemble_eq (headerLines ps) blocks
  have hblocks : Lacks Source.beginsPragma (Source.mask (List.replicate i '\n' ++
      joinWith ['\n', '\n'] blocks ++ List.replicate j '\n')) := by
    rw [mask_eq_paint, paint_append_lineFeeds, paint_code_lineFeeds_append,
      mask_joinWith fun b hmem => (hb b hmem).after]
    refine Lacks.lineFeeds Source.beginning_pragma (lacks_joinWith Source.beginning_pragma ?_) i j
    intro m hm
    obtain ⟨b, hmem, rfl⟩ := List.mem_map.1 hm
    rw [← mask_eq_paint]
    exact (hb b hmem).pragma
  have hfound := findAll_headerLines hp hpragmas hss fun a ha => Source.findFrom_of_lacks ha hblocks
  rw [Source.pragmas, List.map_map, htext, hfound]
  exact Source.map_value_foundLines _ ss

theorem singleHeaders_assemble {blocks : List Text}
    (hp : ∀ p ∈ ps, ∃ t strip, p.parts = Source.split t strip)
    (hpragmas : ∀ l ∈ pragmaLines ps, Source.mask l = l) (hb : ∀ b ∈ blocks, Headerless b) :
    Source.SingleHeaders (assemble (headerLines ps) blocks) := by
  obtain ⟨ss, hss, hversion, hothers⟩ := exists_forms hp
  have hfound := pragmas_assemble hp hpragmas hss hb
  refine ⟨length_licenses_assemble hp fun b hmem => (hb b hmem).license, ?_, ?_⟩
  · have hlength := congrArg List.length hversion
    rw [List.length_map] at hlength
    rw [hfound, hlength]
    exact Option.length_toList_le
  · rw [hfound, hothers]
    exact nodup_eraseDups _

end Render

namespace Graph

variable {t : FileTree} {entry root : Path} {g : Graph}

theorem headerless_of_mem_listing (h : build t entry root = .ok g) {s : Settings} {project : Path}
    {l : SourceFile × List Span} (hcut : Source.KeepsHeaders l.1.text l.2)
    (hends : ∀ f ∈ g.files, (Scan.code.after f.text).inBlock = false)
    (hproject : s.sourceComments = true →
      ∀ f ∈ g.files, '\n' ∉ (Path.relative project f.path).text) (hl : l ∈ g.listing s) :
    Render.Headerless (trimEnd
      (Render.block project s.sourceComments ⟨l.1.path, Source.split l.1.text l.2⟩)) := by
  obtain ⟨hfile, hfits⟩ := fits_of_mem_listing h hl
  have hstrip := exists_import_of_mem_listing h hl
  have hend := hends l.1 hfile
  have hbody : Render.Headerless (Source.split l.1.text l.2).body :=
    ⟨Source.lacks_license_body hcut hstrip, Source.lacks_pragma_body hcut hstrip hend,
      (Source.exists_mask_body hcut.toCutsCleanly hfits hend).2⟩
  exact Render.headerless_block rfl hbody fun hs => hproject hs _ hfile

/-- If the cuts bring about no header line in any file, then no header line stands in the flattened
text twice. -/
theorem headers_render (h : build t entry root = .ok g) {s : Settings} {project : Path}
    (hends : ∀ f ∈ g.files, (Scan.code.after f.text).inBlock = false)
    (hcut : ∀ l ∈ g.listing s, Source.KeepsHeaders l.1.text l.2)
    (hpragmas : ∀ l ∈ g.pragmaLines s, Source.mask l = l)
    (hproject : s.sourceComments = true →
      ∀ f ∈ g.files, '\n' ∉ (Path.relative project f.path).text) :
    Source.SingleHeaders (render g project s).text := by
  refine Render.singleHeaders_assemble Render.exists_split_of_mem_portions hpragmas ?_
  refine Render.headerless_of_mem_blocks fun p hp => ?_
  rw [Render.portions_eq] at hp
  obtain ⟨l, hl, rfl⟩ := List.mem_map.1 hp
  exact headerless_of_mem_listing h (hcut l hl) hends hproject hl

/-- Two files that give the same licence and the same compiler version. -/
def sharedText : Text :=
  "// SPDX-License-Identifier: M\npragma solidity 1;\nimport './B';\nA".toList

def sharedImport : Text :=
  "// SPDX-License-Identifier: M\npragma solidity 1;\nB".toList

theorem build_shared : build (pairTree sharedText sharedImport) ⟨"A".toList⟩ ⟨"/p".toList⟩ =
    .ok (pairGraph sharedText sharedImport ⟨49, 63⟩) := by cbv

theorem listing_shared : (pairGraph sharedText sharedImport ⟨49, 63⟩).listing {} =
    [(⟨["p".toList, "B".toList], sharedImport, []⟩, []),
      (⟨["p".toList, "A".toList], sharedText,
        [(⟨"./B".toList, ⟨49, 63⟩⟩, .resolved ["p".toList, "B".toList])]⟩, [⟨49, 63⟩])] := by cbv

theorem pragmaLines_shared : (pairGraph sharedText sharedImport ⟨49, 63⟩).pragmaLines {} =
    ["pragma solidity 1;".toList] := by cbv

theorem blank_licenses_shared (t : Text) (ht : t = sharedText ∨ t = sharedImport) :
    ∀ f ∈ Source.licenses t, ∀ c ∈ slice f.span (Source.mask t), isBlank c = true := by
  have hfound : Source.licenses t = [⟨⟨0, 30⟩, "// SPDX-License-Identifier: M".toList⟩] := by
    rcases ht with rfl | rfl <;> cbv
  have hslice : slice ⟨0, 30⟩ (Source.mask t) = List.replicate 29 ' ' ++ ['\n'] := by
    rcases ht with rfl | rfl <;> cbv
  rw [hfound]
  intro f hf
  rw [List.mem_singleton.1 hf, hslice]
  exact List.all_eq_true.1 rfl

theorem keepsHeaders_shared : ∀ l ∈ (pairGraph sharedText sharedImport ⟨49, 63⟩).listing {},
    Source.KeepsHeaders l.1.text l.2 := by
  have hA : Source.cutSpans sharedText [⟨49, 63⟩] = [⟨49, 63⟩, ⟨0, 30⟩, ⟨30, 49⟩] := by cbv
  have hB : Source.cutSpans sharedImport [] = [⟨0, 30⟩, ⟨30, 49⟩] := by cbv
  rw [listing_shared]
  intro l hl
  rcases List.mem_cons.1 hl with rfl | hl
  · refine ⟨⟨⟨?_, ?_⟩, blank_licenses_shared _ (.inr rfl)⟩, ?_, by decide +kernel,
      by decide +kernel⟩
    · rw [hB]
      decide
    · rw [hB]
      cbv
    · unfold Source.stays
      rw [hB]
      decide +kernel
  · rcases List.mem_singleton.1 hl with rfl
    refine ⟨⟨⟨?_, ?_⟩, blank_licenses_shared _ (.inl rfl)⟩, ?_, by decide +kernel,
      by decide +kernel⟩
    · rw [hA]
      decide
    · rw [hA]
      cbv
    · unfold Source.stays
      rw [hA]
      decide +kernel

theorem headers_render_shared :
    build (pairTree sharedText sharedImport) ⟨"A".toList⟩ ⟨"/p".toList⟩ =
        .ok (pairGraph sharedText sharedImport ⟨49, 63⟩) ∧
      Source.SingleHeaders
        (render (pairGraph sharedText sharedImport ⟨49, 63⟩) ⟨"/p".toList⟩ {}).text :=
  ⟨build_shared, headers_render build_shared (by decide) keepsHeaders_shared
    (by rw [pragmaLines_shared]; decide) (by decide)⟩

/-- A licence comment behind an import: it starts its line once the import is cut. -/
def movedText : Text :=
  "import './B';// SPDX-License-Identifier: N\nA".toList

def movedImport : Text :=
  "// SPDX-License-Identifier: M\nB".toList

theorem headers_render_moved :
    build (pairTree movedText movedImport) ⟨"A".toList⟩ ⟨"/p".toList⟩ =
        .ok (pairGraph movedText movedImport ⟨0, 13⟩) ∧
      ¬ Source.SingleHeaders
        (render (pairGraph movedText movedImport ⟨0, 13⟩) ⟨"/p".toList⟩ {}).text := by
  have hlength : (Source.licenses (render (pairGraph movedText movedImport ⟨0, 13⟩)
      ⟨"/p".toList⟩ {}).text).length = 2 := by cbv
  refine ⟨by cbv, fun h => ?_⟩
  have hle := h.license
  omega

end Graph

end FlatSol
