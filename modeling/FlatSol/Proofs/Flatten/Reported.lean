import FlatSol.Proofs.Flatten.Layout

/-!
# Header lines that are kept or reported

Every licence line and every pragma statement of a file is cut out of its body. Main statement: those
that are neither the kept one nor in a warning about the file are the lines that differ from the
file's first one and from the kept one.
-/

namespace FlatSol

open Text

namespace Source

/-- The licence lines of a source text, without the white space around them. -/
def licenseLines (t : Text) : List Text :=
  (licenses t).map Found.value

/-- The pragma statements of a source text that give the compiler version, each on one line. -/
def versionLines (t : Text) : List Text :=
  (((pragmas t).map Found.value).filter fun p => p.name == versionName).map Pragma.statement

theorem license_split (t : Text) (strip : List Span) :
    (split t strip).license = (licenseLines t).head? :=
  List.head?_map.symm

theorem versionPragma_split (t : Text) (strip : List Span) :
    (split t strip).versionPragma = (versionLines t).head? :=
  List.head?_map.symm

end Source

namespace Render

/-- A header line of a file that is the kept one, or that a warning about the file gives as the
ignored one. -/
def Told (warning : Text → Text → Path → Warning) (kept : Option Text) (ws : List Warning)
    (file : Path) (l : Text) : Prop :=
  kept = some l ∨ ∃ k, warning k l file ∈ ws

theorem mem_conflict {warning : Text → Text → Path → Warning} {kept line : Option Text}
    {file : Path} {w : Warning} :
    w ∈ conflict warning kept line file ↔
      ∃ k l, kept = some k ∧ line = some l ∧ k ≠ l ∧ w = warning k l file := by
  cases kept with
  | none => simp [conflict]
  | some k =>
    cases line with
    | none => simp [conflict]
    | some l => by_cases h : k = l <;> simp [conflict, h]

variable {ps : List Portion} {k l : Text} {file : Path}

theorem mem_conflicts {w : Warning} :
    w ∈ conflicts ps ↔ ∃ p ∈ ps,
      w ∈ conflict .conflictingLicense (keptLicense ps) p.parts.license p.path ∨
        w ∈ conflict .conflictingPragma (keptVersion ps) p.parts.versionPragma p.path := by
  simp only [conflicts, List.mem_flatMap, List.mem_append]

theorem conflictingLicense_mem_conflicts :
    Warning.conflictingLicense k l file ∈ conflicts ps ↔
      ∃ p ∈ ps, p.path = file ∧ keptLicense ps = some k ∧ p.parts.license = some l ∧ k ≠ l := by
  simp only [mem_conflicts, mem_conflict]
  grind

theorem conflictingPragma_mem_conflicts :
    Warning.conflictingPragma k l file ∈ conflicts ps ↔
      ∃ p ∈ ps, p.path = file ∧ keptVersion ps = some k ∧ p.parts.versionPragma = some l ∧
        k ≠ l := by
  simp only [mem_conflicts, mem_conflict]
  grind

/-- Of the header lines of a file only the first one can be reported. -/
theorem told_iff {warning : Text → Text → Path → Warning} {line : Portion → Option Text}
    (hws : ∀ {k l file}, warning k l file ∈ conflicts ps ↔
      ∃ p ∈ ps, p.path = file ∧ ps.findSome? line = some k ∧ line p = some l ∧ k ≠ l)
    (hps : (ps.map Portion.path).Nodup) {p : Portion} (hp : p ∈ ps) (l : Text) :
    Told warning (ps.findSome? line) (conflicts ps) p.path l ↔
      ps.findSome? line = some l ∨ line p = some l := by
  refine or_congr_right' fun hkept => ⟨?_, fun hl => ?_⟩
  · rintro ⟨k, hk⟩
    obtain ⟨q, hq, hpath, -, hl, -⟩ := hws.1 hk
    rwa [← List.inj_on_of_nodup_map hps hq hp hpath]
  · obtain ⟨k, hk⟩ := Option.ne_none_iff_exists'.1
      (findSome?_ne_none hp (hl ▸ Option.some_ne_none l))
    exact ⟨k, hws.2 ⟨p, hp, rfl, hk, hl, fun h => hkept (h ▸ hk)⟩⟩

end Render

namespace Graph

/-- Every header line of a file is told, the licence lines and the version pragmas. -/
def TellsHeaders (g : Graph) (project : Path) (s : Settings) : Prop :=
  ∀ f ∈ g.files,
    (∀ l ∈ Source.licenseLines f.text, Render.Told .conflictingLicense
      (Render.keptLicense (g.portions s)) (render g project s).warnings f.path l) ∧
    ∀ l ∈ Source.versionLines f.text, Render.Told .conflictingPragma
      (Render.keptVersion (g.portions s)) (render g project s).warnings f.path l

variable {t : FileTree} {entry root : Path} {g : Graph}

theorem exists_portion {s : Settings} {f : SourceFile} (hf : f ∈ g.flattenOrder) :
    ∃ p ∈ g.portions s, p.path = f.path ∧
      p.parts.license = (Source.licenseLines f.text).head? ∧
      p.parts.versionPragma = (Source.versionLines f.text).head? := by
  rw [portions, Render.portions_eq]
  rw [← Render.map_fst_listing s.dedupeExternalImports [] g.flattenOrder] at hf
  obtain ⟨l, hl, rfl⟩ := List.mem_map.1 hf
  exact ⟨_, List.mem_map_of_mem hl, rfl, Source.license_split _ _, Source.versionPragma_split _ _⟩

theorem perm_and_distinct (hw : t.WellFormed) (h : build t entry root = .ok g) :
    g.flattenOrder.Perm g.files ∧ (g.files.map SourceFile.path).Nodup := by
  obtain ⟨l, hl, ht, hline⟩ := lined_of_build hw h
  have heq : line g.orderedLocations ⟨g, [], []⟩ = g.orderedLocations := by simp [line]
  have hclosure := isClosure_of_traversed hw (hw.stands_of_canonical hl) ht
  exact ⟨flattenOrder_perm ht.nodup (heq ▸ hline.perm), hclosure.distinct⟩

/-- The header lines of all files are told just if each of them is the first one of its file or the
kept one. -/
theorem tellsHeaders_iff (hw : t.WellFormed) (h : build t entry root = .ok g) (project : Path)
    (s : Settings) :
    g.TellsHeaders project s ↔ ∀ f ∈ g.files,
      (∀ l ∈ Source.licenseLines f.text, Render.keptLicense (g.portions s) = some l ∨
        (Source.licenseLines f.text).head? = some l) ∧
      ∀ l ∈ Source.versionLines f.text, Render.keptVersion (g.portions s) = some l ∨
        (Source.versionLines f.text).head? = some l := by
  obtain ⟨hperm, hdistinct⟩ := perm_and_distinct hw h
  have hps : ((g.portions s).map Portion.path).Nodup := by
    rw [portions, Render.map_path_portions]
    exact (hperm.map SourceFile.path).nodup_iff.2 hdistinct
  refine forall₂_congr fun f hf => ?_
  obtain ⟨p, hp, hpath, hlicense, hversion⟩ := exists_portion (s := s) (hperm.mem_iff.2 hf)
  rw [← hpath, ← hlicense, ← hversion]
  exact and_congr
    (forall₂_congr fun l _ => Render.told_iff Render.conflictingLicense_mem_conflicts hps hp l)
    (forall₂_congr fun l _ => Render.told_iff Render.conflictingPragma_mem_conflicts hps hp l)

/-- Two files: one gives the compiler version twice, and the other one gives another version. -/
def repeatedText : Text :=
  "pragma solidity 1;\npragma solidity 1;\nimport './B';\nA".toList

def otherVersion : Text :=
  "pragma solidity 2;\nB".toList

theorem tellsHeaders_repeated :
    build (pairTree repeatedText otherVersion) ⟨"A".toList⟩ ⟨"/p".toList⟩ =
        .ok (pairGraph repeatedText otherVersion ⟨38, 52⟩) ∧
      (pairGraph repeatedText otherVersion ⟨38, 52⟩).TellsHeaders ⟨"/p".toList⟩ {} := by
  have hw : (pairTree repeatedText otherVersion).WellFormed := by decide
  have hbuild : build (pairTree repeatedText otherVersion) ⟨"A".toList⟩ ⟨"/p".toList⟩ =
      .ok (pairGraph repeatedText otherVersion ⟨38, 52⟩) := by cbv
  have hA : Source.licenseLines repeatedText = [] ∧ Source.versionLines repeatedText =
      ["pragma solidity 1;".toList, "pragma solidity 1;".toList] := ⟨by cbv, by cbv⟩
  have hB : Source.licenseLines otherVersion = [] ∧ Source.versionLines otherVersion =
      ["pragma solidity 2;".toList] := ⟨by cbv, by cbv⟩
  refine ⟨hbuild, (tellsHeaders_iff hw hbuild _ _).2 fun f hf => ?_⟩
  have htext : f.text = repeatedText ∨ f.text = otherVersion := by
    simp only [pairGraph, List.mem_cons, List.not_mem_nil, or_false] at hf
    rcases hf with rfl | rfl
    · exact .inl rfl
    · exact .inr rfl
  rcases htext with htext | htext
  · rw [htext, hA.1, hA.2]
    simp
  · rw [htext, hB.1, hB.2]
    simp

/-- A file with two version pragmas: the second one is cut, and no warning tells of it. -/
def twoVersions : Text :=
  "pragma solidity 1;\npragma solidity 2;\nA".toList

theorem not_tellsHeaders_twoVersions :
    build (loneTree twoVersions) ⟨"A".toList⟩ ⟨"/p".toList⟩ =
        .ok (single ["p".toList, "A".toList] twoVersions) ∧
      ¬ (single ["p".toList, "A".toList] twoVersions).TellsHeaders ⟨"/p".toList⟩ {} := by
  have hportions : (single ["p".toList, "A".toList] twoVersions).portions {} =
      [⟨⟨"/p/A".toList⟩, ⟨none, some "pragma solidity 1;".toList, [], "A".toList⟩⟩] := by
    rw [portions, flattenOrder_single]
    cbv
  have hwarnings : (render (single ["p".toList, "A".toList] twoVersions)
      ⟨"/p".toList⟩ {}).warnings = [] := by
    show Render.conflicts ((single ["p".toList, "A".toList] twoVersions).portions {}) = []
    rw [hportions]
    cbv
  have hlines : Source.versionLines twoVersions =
      ["pragma solidity 1;".toList, "pragma solidity 2;".toList] := by cbv
  refine ⟨by cbv, fun h => ?_⟩
  have htold := (h _ (List.mem_singleton_self _)).2 "pragma solidity 2;".toList (by
    show _ ∈ Source.versionLines twoVersions
    rw [hlines]
    simp)
  rw [hportions, hwarnings] at htold
  rcases htold with hkept | ⟨k, hk⟩
  · exact absurd hkept (by decide)
  · exact List.not_mem_nil hk

end Graph

end FlatSol
