import FlatSol.Proofs.FileTree.Footprint
import FlatSol.Proofs.FileTree.Straight
import FlatSol.Resolution

/-!
# Imports stay in the project

An import is resolved if the file that it asks for lies under the root, by what both of them denote.
A root that denotes nothing is compared by its text instead: then the empty path takes in every file,
and a file's own path with a slash behind it takes in that file. Any other root that denotes nothing
takes in none.
-/

namespace FlatSol

open Text

/-- What an import of the file `fromFile` asks for, and why it is unresolved without a file there. -/
inductive Asks (fromFile root : Path) (path : Text) : Path → UnresolvedReason → Prop
  | relative (front : "./".toList <+: path ∨ "../".toList <+: path) :
    Asks fromFile root path ((fromFile.parent?.getD ⟨".".toList⟩).join ⟨path⟩) .notFound
  | absolute (front : "/".toList <+: path) : Asks fromFile root path ⟨path⟩ .notFound
  | bare (noDot : ¬ "./".toList <+: path) (noDots : ¬ "../".toList <+: path)
      (noSlash : ¬ "/".toList <+: path) : Asks fromFile root path (root.join ⟨path⟩) .external

theorem asks_iff {fromFile root candidate : Path} {path : Text} {missing : UnresolvedReason} :
    Asks fromFile root path candidate missing ↔
      candidate = importCandidate path fromFile root ∧ missing = missingReason path := by
  have hdot : startsWith ['.', '/'] path = true ↔ "./".toList <+: path := List.isPrefixOf_iff_prefix
  have hdots : startsWith ['.', '.', '/'] path = true ↔ "../".toList <+: path :=
    List.isPrefixOf_iff_prefix
  have hslash : startsWith ['/'] path = true ↔ "/".toList <+: path := List.isPrefixOf_iff_prefix
  -- a text does not start with both a dot and a slash
  have hapart : "/".toList <+: path → ¬ ("./".toList <+: path ∨ "../".toList <+: path) := by
    rintro ⟨rest, rfl⟩ (⟨_, h⟩ | ⟨_, h⟩) <;> simp at h
  unfold importCandidate missingReason ImportKind.of
  simp only [Bool.or_eq_true, hdot, hdots, hslash]
  constructor
  · rintro (front | front | ⟨noDot, noDots, noSlash⟩)
    · simp only [if_pos front, and_true]
      rfl
    · simp only [if_neg (hapart front), if_pos front, and_self]
    · simp only [if_neg (not_or.2 ⟨noDot, noDots⟩), if_neg noSlash, and_self]
  · rintro ⟨rfl, rfl⟩
    by_cases hrelative : "./".toList <+: path ∨ "../".toList <+: path
    · simp only [if_pos hrelative]
      exact .relative hrelative
    · by_cases habsolute : "/".toList <+: path
      · simp only [if_neg hrelative, if_pos habsolute]
        exact .absolute habsolute
      · simp only [if_neg hrelative, if_neg habsolute]
        exact .bare (not_or.1 hrelative).1 (not_or.1 hrelative).2 habsolute

namespace FileTree

variable {t : FileTree} {p root : Path} {path : Text} {l : Location}

/-- The path denotes a regular file, which stands at the location. -/
def FileAt (t : FileTree) (p : Path) (l : Location) : Prop :=
  t.canonical? p = some l ∧ ∃ bytes, t.get? l = some (.file bytes)

theorem fileLocation?_eq_some_iff : t.fileLocation? p = some l ↔ t.FileAt p l := by
  rw [fileLocation?, Option.filter_eq_some_iff, FileAt, and_congr_right_iff]
  intro _
  cases t.get? l with
  | none => simp
  | some e => cases e <;> simp

/-- What an import that asks for a candidate leads to, in the project at a root. -/
inductive ResolvesTo (t : FileTree) (root candidate : Path) (missing : UnresolvedReason) :
    Resolution → Prop
  | inside {l r : Location} (file : t.FileAt candidate l) (denoted : t.canonical? root = some r)
      (under : r <+: l) : ResolvesTo t root candidate missing (.resolved l)
  | outside {l : Location} (file : t.FileAt candidate l)
      (apart : ∀ r, t.canonical? root = some r → ¬ r <+: l) :
    ResolvesTo t root candidate missing (.unresolved .outsideProject)
  | missing (noFile : ∀ l, ¬ t.FileAt candidate l) :
    ResolvesTo t root candidate missing (.unresolved missing)

/-! ### Files under a root -/

/-- A path that denotes nothing has what stands below it by its text alone if it is empty, or written
as the path of that very file. -/
theorem WellFormed.isInside_of_none (hw : t.WellFormed) (hc : t.canonical? p = none)
    (hl : t.Stands l) : l.path.isInside p = true ↔ p.text = [] ∨ p.same l.path = true := by
  obtain ⟨e, he, -⟩ := hl
  have hcomponents := Location.components_path (hw.proper he)
  rw [Path.isInside, List.isPrefixOf_iff_prefix, Path.same, beq_iff_eq]
  constructor
  · intro hprefix
    refine or_iff_not_imp_left.2 fun hne => ?_
    rw [hcomponents] at hprefix
    rcases List.prefix_cons_iff.1 hprefix with hnil | ⟨cs, hcs, hnames⟩
    · exact absurd (Path.components_eq_nil_iff.1 hnil) hne
    · obtain ⟨names, ⟨rest, rfl⟩, rfl⟩ := List.prefix_map_iff.1 hnames
      have hmoves : moves p.steps = names.map .into := by
        rw [Path.moves_eq_components, hcs, List.filterMap_cons]
        exact Component.moves_names names
      have horigin : t.origin p = .ok [] := by
        rw [origin, if_pos (Path.isAbsolute_of_components hcs)]
      cases rest with
      | nil => rw [hcs, hcomponents, List.append_nil]
      | cons name rest =>
        -- the names lead to a directory, which the path would denote
        have hd : t.get? names = some .dir := hw.dir_of_append he
        have hway : Way t maxLinks [] (names.map .into) maxLinks ([] ++ names) :=
          hw.way_names maxLinks (stands_of_dir hd)
        have hlead : t.Leads p (moves p.steps) names := hmoves ▸ ⟨[], _, horigin, hway, hd⟩
        rw [((hw.canonical_dir_iff hne).2 hlead).1] at hc
        cases hc
  · rintro (hnil | hsame)
    · rw [Path.components_eq_nil_iff.2 hnil]
      exact List.nil_prefix
    · rw [hsame]

/-- A root that denotes something, or whose text takes in no file. -/
def NamesRoot (t : FileTree) (root : Path) : Prop :=
  (t.canonical? root).isSome = true ∨
    root.text ≠ [] ∧ ∀ l bytes, t.get? l = some (.file bytes) → root.same l.path = false

theorem WellFormed.isInside_normalize_iff (hw : t.WellFormed) (hr : t.NamesRoot root)
    {bytes : ByteArray} (hf : t.get? l = some (.file bytes)) :
    l.path.isInside (t.normalize root) = true ↔ ∃ r, t.canonical? root = some r ∧ r <+: l := by
  cases hc : t.canonical? root with
  | some r =>
    obtain ⟨e, he, -⟩ := hw.stands_of_canonical hc
    rw [normalize_of_canonical hc, Location.isInside_path_iff (hw.proper hf) (hw.proper he)]
    simp
  | none =>
    have hnormalize : t.normalize root = root := by rw [normalize, hc]; rfl
    have hstands : t.Stands l := ⟨_, hf, fun _ => by simp⟩
    rw [hnormalize, hw.isInside_of_none hc hstands]
    rcases hr with hsome | ⟨hne, hsame⟩
    · simp [hc] at hsome
    · simp [hne, hsame l bytes hf]

/-- An import leads to the file that it asks for exactly if that file lies under what the root
denotes. -/
theorem resolveImport_eq_iff (hw : t.WellFormed) (hr : t.NamesRoot root) {fromFile : Path}
    {r : Resolution} : t.resolveImport path fromFile root = r ↔
      ∃ candidate missing, Asks fromFile root path candidate missing ∧
        t.ResolvesTo root candidate missing r := by
  simp only [asks_iff]
  unfold resolveImport
  constructor
  · rintro rfl
    refine ⟨_, _, ⟨rfl, rfl⟩, ?_⟩
    split
    · next hnone =>
      refine .missing fun l hl => ?_
      rw [fileLocation?_eq_some_iff.2 hl] at hnone
      cases hnone
    · next l hl =>
      have hfile := fileLocation?_eq_some_iff.1 hl
      obtain ⟨bytes, hbytes⟩ := hfile.2
      have hinside := hw.isInside_normalize_iff hr hbytes
      split
      · next hin =>
        obtain ⟨base, hbase, hunder⟩ := hinside.1 hin
        exact .inside hfile hbase hunder
      · next hout =>
        exact .outside hfile fun base hbase hunder => hout (hinside.2 ⟨base, hbase, hunder⟩)
  · rintro ⟨_, _, ⟨rfl, rfl⟩, h⟩
    cases h with
    | inside file denoted under =>
      obtain ⟨bytes, hbytes⟩ := file.2
      have hin := (hw.isInside_normalize_iff hr hbytes).2 ⟨_, denoted, under⟩
      simp only [fileLocation?_eq_some_iff.2 file, if_pos hin]
    | @outside l file apart =>
      obtain ⟨bytes, hbytes⟩ := file.2
      have hout : ¬ l.path.isInside (t.normalize root) = true := fun hin => by
        obtain ⟨base, hbase, hunder⟩ := (hw.isInside_normalize_iff hr hbytes).1 hin
        exact apart base hbase hunder
      simp only [fileLocation?_eq_some_iff.2 file, if_neg hout]
    | missing noFile =>
      have hnone : t.fileLocation? (importCandidate path fromFile root) = none :=
        Option.eq_none_iff_forall_not_mem.2 fun l hl => noFile l (fileLocation?_eq_some_iff.1 hl)
      simp only [hnone]

/-- A project with a contract in it, and a contract beside it. -/
def gateTree : FileTree where
  entries :=
    [(["p".toList], .dir), (["O.sol".toList], .file (Text.toBytes "contract O {}".toList)),
      (["p".toList, "A.sol".toList], .file (Text.toBytes "contract A {}".toList))]
  workDir := some ["p".toList]

theorem resolveImport_eq_iff_gateTree :
    gateTree.WellFormed ∧ gateTree.NamesRoot ⟨".".toList⟩ ∧
      (∃ candidate missing, Asks ⟨"B.sol".toList⟩ ⟨".".toList⟩ "./A.sol".toList candidate missing ∧
        gateTree.ResolvesTo ⟨".".toList⟩ candidate missing
          (.resolved ["p".toList, "A.sol".toList])) ∧
      (∃ candidate missing, Asks ⟨"A.sol".toList⟩ ⟨".".toList⟩ "../O.sol".toList candidate missing ∧
        gateTree.ResolvesTo ⟨".".toList⟩ candidate missing (.unresolved .outsideProject)) ∧
      ∃ candidate missing, Asks ⟨"A.sol".toList⟩ ⟨".".toList⟩ "O.sol".toList candidate missing ∧
        gateTree.ResolvesTo ⟨".".toList⟩ candidate missing (.unresolved .external) := by
  have hw : gateTree.WellFormed := by decide
  have hr : gateTree.NamesRoot ⟨".".toList⟩ := .inl (by cbv)
  exact ⟨hw, hr, (resolveImport_eq_iff hw hr).1 (by cbv), (resolveImport_eq_iff hw hr).1 (by cbv),
    (resolveImport_eq_iff hw hr).1 (by cbv)⟩

/-- Under the empty root every file counts as one of the project. -/
theorem resolveImport_emptyRoot {fromFile : Path}
    (hf : t.FileAt (importCandidate path fromFile ⟨[]⟩) l) :
    t.resolveImport path fromFile ⟨[]⟩ = .resolved l := by
  have hnormalize : t.normalize ⟨[]⟩ = ⟨[]⟩ := by simp [normalize, canonical?]
  have hin : l.path.isInside ⟨[]⟩ = true := rfl
  simp only [resolveImport, fileLocation?_eq_some_iff.2 hf, hnormalize, hin, if_true]

/-- The empty path denotes nothing, and yet a file beside the current directory is resolved. -/
theorem resolveImport_emptyRoot_gateTree :
    gateTree.WellFormed ∧ gateTree.canonical? ⟨[]⟩ = none ∧
      gateTree.resolveImport "../O.sol".toList ⟨"A.sol".toList⟩ ⟨[]⟩ =
        .resolved ["O.sol".toList] ∧
      ¬ ∃ candidate missing, Asks ⟨"A.sol".toList⟩ ⟨[]⟩ "../O.sol".toList candidate missing ∧
        gateTree.ResolvesTo ⟨[]⟩ candidate missing (.resolved ["O.sol".toList]) := by
  have hnone : gateTree.canonical? ⟨[]⟩ = none := by cbv
  refine ⟨by decide, hnone, by cbv, ?_⟩
  rintro ⟨candidate, missing, -, h⟩
  cases h with
  | inside _ denoted _ =>
    rw [hnone] at denoted
    cases denoted

end FileTree

end FlatSol
