import FlatSol.Proofs.FileTree.Hidden
import FlatSol.Proofs.Flatten.Rerun

/-!
# Flattening stays inside the project

An import is followed only to a file under the root of the project, so every file of a graph but the
entry lies there. The files outside it have no part in a flattening: in two trees that differ in the
contents of such files alone it has the same result, and changes both trees in the same way.
-/

namespace FlatSol

variable {t u : FileTree} {entry root p : Path} {s : Settings} {g : Graph} {k l : Location}

/-- The locations that are neither the entry nor under the root of the project. -/
def FileTree.Outside (t : FileTree) (entry root : Path) (k : Location) : Prop :=
  t.canonical? entry ≠ some k ∧ k.path.isInside (t.normalize root) = false

/-! ### Files of a graph -/

theorem isInside_of_resolved {path : Text} {source : Path} {target : Location}
    (h : t.resolveImport path source root = .resolved target) :
    target.path.isInside (t.normalize root) = true :=
  (resolveImport_eq_resolved_iff.1 h).2

theorem Reached.eq_or_inside {entry : Location} (h : Reached t root entry l) :
    l = entry ∨ l.path.isInside (t.normalize root) = true := by
  cases h with
  | entry => exact .inl rfl
  | follow _ _ _ resolves _ => exact .inr (isInside_of_resolved resolves)

theorem Graph.inside_of_build (hw : t.WellFormed) (h : build t entry root = .ok g) {f : SourceFile}
    (hf : f ∈ g.files) :
    t.canonical? entry = some f.location ∨ f.path.isInside (t.normalize root) = true := by
  obtain ⟨l, hl, hg⟩ := traversed_of_build h
  rcases (hg.reached f.location (List.mem_map_of_mem hf)).eq_or_inside with he | hin
  · exact .inl (he ▸ hl)
  · rw [hw.normalize_normalize] at hin
    exact .inr hin

/-! ### Graphs of two trees -/

namespace FileTree.AgreeBut

variable {hidden : Location → Prop}

theorem fileLocation?_eq (a : AgreeBut hidden t u) (p : Path) :
    u.fileLocation? p = t.fileLocation? p := by
  rw [fileLocation?, fileLocation?, a.canonical?_eq]
  congr 1
  funext l
  rcases a.entry l with hl | ⟨-, b, c, ht, hu⟩
  · rw [hl]
  · rw [ht, hu]

theorem resolveImport_eq (a : AgreeBut hidden t u) (path : Text) (source root : Path) :
    u.resolveImport path source root = t.resolveImport path source root := by
  simp only [resolveImport, a.fileLocation?_eq, a.normalize_eq]

theorem locate_eq (a : AgreeBut hidden t u) (p : Path) : u.locate p = t.locate p := by
  simp only [locate, a.canonical?_eq, a.resolve_eq]

theorem importsOf_eq (a : AgreeBut hidden t u) (root : Path) (l : Location) (text : Text) :
    Build.importsOf u root l text = Build.importsOf t root l text := by
  simp only [Build.importsOf, a.resolveImport_eq]

/-- Trees that agree on what lies under the root give every file the same imports. -/
theorem importsAlike (a : AgreeBut hidden t u)
    (hin : ∀ k, k.path.isInside (t.normalize root) = true → ¬ hidden k) (g : Graph) :
    Build.ImportsAlike t u root g := by
  refine fun f _ => ⟨a.importsOf_eq root f.location f.text, fun i hi target htarget => ?_⟩
  obtain ⟨d, -, rfl⟩ := List.mem_map.1 hi
  exact a.eq_of_not_hidden (hin target (isInside_of_resolved htarget))

end FileTree.AgreeBut

/-- Files outside the project have no part in building a graph. -/
theorem Graph.build_of_agreeBut (hw : t.WellFormed) (a : t.AgreeBut (t.Outside entry root) u) :
    build u entry root = build t entry root := by
  simp only [build, a.locate_eq, a.normalize_eq]
  split
  · rfl
  · next l hl =>
    have hvisible : ¬ t.Outside entry root l := fun h => h.1 (FileTree.canonical_of_locate hl)
    rw [Build.textAt_congr (a.eq_of_not_hidden hvisible)]
    split
    · rfl
    · rw [Build.run_start_congr (a.importsAlike ?_ _)]
      intro k hk hout
      rw [hw.normalize_normalize, hout.2] at hk
      cases hk

/-! ### Flattening in two trees -/

theorem FileTree.Outside.normalize (hw : t.WellFormed) (entry root : Path) :
    t.Outside (t.normalize entry) (t.normalize root) = t.Outside entry root := by
  funext k
  rw [Outside, Outside, hw.canonical?_normalize, hw.normalize_normalize]

theorem readText_writeAtomic_eq {hidden : Location → Prop} {text : Text} {left : FileTree}
    (a : t.AgreeBut hidden u) (h : t.writeAtomic p text = (left, .ok ())) :
    (u.writeAtomic p text).1.readText p = left.readText p := by
  obtain ⟨left', h', b⟩ := (a.writeAtomic p text).exists_of_eq h
  rw [h', FileTree.readText, FileTree.readText, b.resolve_eq]
  cases hl : left.resolve .follow p with
  | error fault => rfl
  | ok l =>
    have hl' : left'.resolve .follow p = .ok l := by rw [b.resolve_eq, hl]
    refine Build.textAt_congr ?_
    rw [FileTree.get?_of_resolve_writeAtomic h hl, FileTree.get?_of_resolve_writeAtomic h' hl']

/-- Outcomes of flattening in two trees that nothing at a hidden location tells apart: the results and
the reports are the same, so is the text that can be read at the output's path, and the trees that are
left differ only in hidden files, which are as they were. -/
structure Outcome.Alike (hidden : Location → Prop) (t u : FileTree) (o o' : Outcome) : Prop where
  result : o'.result = o.result
  events : o'.events = o.events
  written : ∀ f, o.result = .ok f → o'.tree.readText f.path = o.tree.readText f.path
  entry : ∀ k, o'.tree.get? k = o.tree.get? k ∨
    hidden k ∧ o.tree.get? k = t.get? k ∧ o'.tree.get? k = u.get? k

theorem flatten_alike (hw : t.WellFormed) (a : t.AgreeBut (t.Outside entry root) u) :
    Outcome.Alike (t.Outside entry root) t u (flatten t entry root s) (flatten u entry root s) := by
  have hbuild : Graph.build u (t.normalize entry) (t.normalize root) =
      Graph.build t (t.normalize entry) (t.normalize root) := by
    refine Graph.build_of_agreeBut hw ?_
    rw [FileTree.Outside.normalize hw]
    exact a
  have huntouched : ∀ k, u.get? k = t.get? k ∨
      t.Outside entry root k ∧ t.get? k = t.get? k ∧ u.get? k = u.get? k :=
    fun k => (a.entry k).imp_right fun h => ⟨h.1, rfl, rfl⟩
  simp only [flatten, a.normalize_eq, hbuild]
  split
  · exact ⟨rfl, rfl, fun _ h => (by cases h), huntouched⟩
  · next g hg =>
    split
    · exact ⟨rfl, rfl, fun _ h => (by cases h), huntouched⟩
    · generalize s.outputPath (t.normalize entry) (t.normalize root) = p
      generalize (render g (t.normalize root) s).text = text
      have hentry := a.writeAtomic_entry p text
      cases hwrite : t.writeAtomic p text with
      | mk left r =>
        obtain ⟨left', hwrite', -⟩ := (a.writeAtomic p text).exists_of_eq hwrite
        rw [hwrite, hwrite'] at hentry
        rw [hwrite']
        cases r with
        | error e => exact ⟨rfl, rfl, fun _ h => (by cases h), hentry⟩
        | ok =>
          refine ⟨rfl, rfl, fun f h => ?_, hentry⟩
          obtain rfl := Except.ok.inj h
          have hread := readText_writeAtomic_eq a hwrite
          rwa [hwrite'] at hread

/-- Nothing outside the project leaks in: every file of the graph but the entry lies under the root,
and trees that differ in the contents of other files alone are flattened alike. -/
theorem flatten_confined (hw : t.WellFormed) :
    (∀ g, Graph.build t entry root = .ok g → ∀ f ∈ g.files,
      t.canonical? entry = some f.location ∨ f.path.isInside (t.normalize root) = true) ∧
    ∀ u, t.AgreeBut (t.Outside entry root) u →
      Outcome.Alike (t.Outside entry root) t u (flatten t entry root s) (flatten u entry root s) :=
  ⟨fun _ hg _ hf => Graph.inside_of_build hw hg hf, fun _ a => flatten_alike hw a⟩

/-- A project whose entry imports a file outside it, by its path and through a link. -/
def outerTree : FileTree where
  entries :=
    [(["p".toList], .dir), (["O.sol".toList], .file (Text.toBytes "O".toList)),
      (["p".toList, "A.sol".toList], .file (Text.toBytes
        "import '../O.sol';\nimport './L.sol';".toList)),
      (["p".toList, "L.sol".toList], .link "../O.sol".toList)]
  workDir := some ["p".toList]

theorem outside_outerTree :
    outerTree.Outside ⟨"A.sol".toList⟩ ⟨"/p".toList⟩ ["O.sol".toList] := by
  have hentry : outerTree.canonical? ⟨"A.sol".toList⟩ = some ["p".toList, "A.sol".toList] := by cbv
  have hroot : outerTree.normalize ⟨"/p".toList⟩ = ⟨"/p".toList⟩ := by cbv
  refine ⟨?_, ?_⟩
  · rw [hentry]
    decide
  · rw [hroot]
    decide

theorem flatten_confined_outerTree :
    outerTree.WellFormed ∧
      (∃ g, Graph.build outerTree ⟨"A.sol".toList⟩ ⟨"/p".toList⟩ = .ok g ∧ ∀ f ∈ g.files,
        outerTree.canonical? ⟨"A.sol".toList⟩ = some f.location ∨
          f.path.isInside (outerTree.normalize ⟨"/p".toList⟩) = true) ∧
      ∃ u : FileTree, u.get? ["O.sol".toList] ≠ outerTree.get? ["O.sol".toList] ∧
        outerTree.AgreeBut (outerTree.Outside ⟨"A.sol".toList⟩ ⟨"/p".toList⟩) u ∧
        (flatten u ⟨"A.sol".toList⟩ ⟨"/p".toList⟩ {}).files? = some [⟨"/p/A.sol".toList⟩] := by
  have hw : outerTree.WellFormed := by decide
  obtain ⟨hin, halike⟩ := flatten_confined hw
  have hfiles : (flatten outerTree ⟨"A.sol".toList⟩ ⟨"/p".toList⟩ {}).files? =
      some [⟨"/p/A.sol".toList⟩] := by
    rw [files?_flatten]
    cbv
  obtain ⟨f, hf, -⟩ := Outcome.exists_of_files? hfiles
  obtain ⟨g, hg, -⟩ := exists_of_flatten_eq_ok hf
  rw [Graph.build_normalize hw] at hg
  have hfile : outerTree.get? ["O.sol".toList] = some (.file (Text.toBytes "O".toList)) := by decide
  have hagree := FileTree.AgreeBut.of_set hfile outside_outerTree (Text.toBytes "P".toList)
  refine ⟨hw, ⟨g, hg, hin g hg⟩, _, ?_, hagree, ?_⟩
  · decide
  · rw [Outcome.files?, (halike _ hagree).result]
    exact hfiles

end FlatSol
