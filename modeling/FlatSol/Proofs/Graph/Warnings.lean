import FlatSol.Proofs.Graph.Closure

/-!
# Every unresolved import is reported once

An import with no file behind it is reported when its file is entered, and one whose file cannot be
read when it is looked at. While a graph is built, the reports made so far and those that the imports
on the stack will still give are, taken together, the unresolved imports of the files found so far.
-/

namespace FlatSol

/-- An import that leads to no readable file: its path, the file that it stands in, and why. -/
abbrev UnresolvedUse := Text × Path × UnresolvedReason

/-- The import that a warning reports as unresolved. -/
def Warning.unresolved? : Warning → Option UnresolvedUse
  | .unresolvedImport path fromFile why => some (path, fromFile, why)
  | .cyclicImport _ => none
  | .conflictingPragma _ _ _ => none
  | .conflictingLicense _ _ _ => none

/-- The unresolved ones of the imports of a file, one for each statement. -/
def unresolvedIn (source : Path) (imports : List (ImportDirective × Resolution)) :
    List UnresolvedUse :=
  imports.filterMap fun i =>
    match i.2 with
    | .unresolved why => some (i.1.path, source, why)
    | .resolved _ => none

def SourceFile.unresolved (f : SourceFile) : List UnresolvedUse :=
  unresolvedIn f.path f.imports

theorem Warning.unresolved?_eq_some_iff {w : Warning} {path : Text} {source : Path}
    {why : UnresolvedReason} :
    w.unresolved? = some (path, source, why) ↔ w = .unresolvedImport path source why := by
  cases w <;> simp [unresolved?]

namespace Build

variable {t : FileTree} {root : Path} {entry : Location}

/-- The reports that looking at the imports of a file will give: those of targets that cannot be
read. -/
def failing (t : FileTree) (l : Location) (imports : List (ImportDirective × Resolution)) :
    List UnresolvedUse :=
  imports.filterMap fun i =>
    match i.2 with
    | .unresolved _ => none
    | .resolved target =>
      match t.textAt target with
      | .ok _ => none
      | .error _ => some (i.1.path, l.path, .unreadable)

theorem failing_cons_of_textAt {target : Location} {text : Text} (h : t.textAt target = .ok text)
    (l : Location) (d : ImportDirective) (rest : List (ImportDirective × Resolution)) :
    failing t l ((d, .resolved target) :: rest) = failing t l rest := by
  simp [failing, h]

theorem failing_cons_of_error {target : Location} {fault : Fault}
    (h : t.textAt target = .error fault) (l : Location) (d : ImportDirective)
    (rest : List (ImportDirective × Resolution)) :
    failing t l ((d, .resolved target) :: rest) =
      (d.path, l.path, .unreadable) :: failing t l rest := by
  simp [failing, h]

/-- The reports that the imports on the stack will still give. -/
def failingOn (t : FileTree) (stack : List Frame) : List UnresolvedUse :=
  stack.flatMap fun f => failing t f.location f.pending

theorem failingOn_cons (l : Location) (pending : List (ImportDirective × Resolution))
    (below : List Frame) :
    failingOn t (⟨l, pending⟩ :: below) = failing t l pending ++ failingOn t below := rfl

/-- The reports made when a file is entered and those that its imports will give are the unresolved
ones of the imports that the graph keeps. -/
theorem missing_failing_perm (l : Location) (imports : List (ImportDirective × Resolution)) :
    ((missing l imports).filterMap Warning.unresolved? ++ failing t l imports).Perm
      (unresolvedIn l.path (imports.map fun i => (i.1, settle t i.2))) := by
  induction imports with
  | nil => exact .refl _
  | cons i imports ih =>
    obtain ⟨d, r⟩ := i
    cases r with
    | unresolved why => exact ih.cons (d.path, l.path, why)
    | resolved target =>
      cases ht : t.textAt target with
      | ok text =>
        rw [failing_cons_of_textAt ht, List.map_cons, settle_of_textAt ht]
        exact ih
      | error fault =>
        rw [failing_cons_of_error ht, List.map_cons, settle_of_error ht]
        exact List.perm_middle.trans (ih.cons (d.path, l.path, .unreadable))

/-! ### What building keeps -/

/-- The reports made, with those still to come, are the unresolved imports of the files. -/
def Accounted (t : FileTree) (b : Build) : Prop :=
  (b.graph.warnings.filterMap Warning.unresolved? ++ failingOn t b.stack).Perm
    (b.graph.files.flatMap SourceFile.unresolved)

/-- A step that adds no file keeps the account if what it reports is no longer to come. -/
theorem Accounted.pass {b c : Build} (h : Accounted t b) (hf : c.graph.files = b.graph.files)
    (he : c.graph.warnings.filterMap Warning.unresolved? ++ failingOn t c.stack =
      b.graph.warnings.filterMap Warning.unresolved? ++ failingOn t b.stack) : Accounted t c := by
  rw [Accounted, hf, he]
  exact h

theorem unresolved_warnings_meet (b : Build) (below : List Frame) (source target : Location) :
    (meet b below source target).warnings.filterMap Warning.unresolved? =
      b.graph.warnings.filterMap Warning.unresolved? := by
  unfold meet
  split
  · simp [Graph.warn, Graph.warnings_link, Warning.unresolved?]
  · rw [Graph.warnings_link]

theorem Accounted.move {b c : Build} (m : Move t root b c) (hb : Traversed t root entry b)
    (h : Accounted t b) : Accounted t c := by
  cases m with
  | leave => exact h.pass rfl rfl
  | unresolved => exact h.pass rfl rfl
  | @unreadable g l target d fault rest below active unknown fails =>
    refine h.pass rfl ?_
    rw [failingOn_cons, failingOn_cons, failing_cons_of_error fails]
    simp [Graph.warn, Graph.report, Warning.unresolved?]
  | @known g l target d rest below active known =>
    obtain ⟨text, ht⟩ := hb.textAt known
    refine h.pass (files_meet _ _ _ _) ?_
    rw [unresolved_warnings_meet, failingOn_cons, failingOn_cons, failing_cons_of_textAt ht]
  | @fresh g l target d text rest below active unknown reads =>
    rw [Accounted, failingOn_cons, failing_cons_of_textAt reads] at h
    rw [Accounted, Graph.warnings_link, warnings_withFile, Graph.files_link, files_withFile,
      failingOn_cons, failingOn_cons, List.filterMap_append, List.flatMap_append,
      List.flatMap_singleton]
    -- the new file brings its own reports, made and to come
    have hnew := missing_failing_perm (t := t) target (importsOf t root target text)
    refine List.Perm.trans ?_ (h.append hnew)
    simp only [Graph.report, List.append_assoc]
    refine List.Perm.append_left _ ?_
    rw [← List.append_assoc, ← List.append_assoc _ (failingOn t below)]
    exact List.perm_append_comm

theorem accounted_start {l : Location} {text : Text} : Accounted t (start t root l text) := by
  have hnew := missing_failing_perm (t := t) l (importsOf t root l text)
  rw [start_eq, Accounted, warnings_withFile, files_withFile, failingOn_cons]
  simp only [Graph.empty, failingOn, List.nil_append, List.flatMap_nil, List.append_nil,
    List.flatMap_singleton]
  exact hnew

end Build

namespace Graph

variable {t : FileTree} {entry root : Path} {g : Graph}

/-- The reports of a built graph are the unresolved imports of its files, each as often as it
stands there. -/
theorem reports_perm_of_build (h : build t entry root = .ok g) :
    (g.warnings.filterMap Warning.unresolved?).Perm (g.files.flatMap SourceFile.unresolved) := by
  obtain ⟨l, text, -, ht, rfl⟩ := exists_start_of_build h
  obtain ⟨c, ⟨-, hc⟩, hs, hg⟩ := Build.run_induction
    (P := fun b => Build.Traversed t (t.normalize root) l b ∧ Build.Accounted t b)
    (fun b c m hb => ⟨Build.Traversed.move m hb.1, hb.2.move m hb.1⟩) _
    ⟨Build.traversed_start _ ht, Build.accounted_start⟩
  rw [Build.Accounted, hs] at hc
  rw [hg]
  simpa [Build.failingOn] using hc

/-- Every import of a built graph that is unresolved was reported. -/
theorem warned_of_build (h : build t entry root = .ok g) {f : SourceFile} (hf : f ∈ g.files)
    {d : ImportDirective} {why : UnresolvedReason} (hd : (d, .unresolved why) ∈ f.imports) :
    .unresolvedImport d.path f.path why ∈ g.warnings := by
  have hmem : (d.path, f.path, why) ∈ g.files.flatMap SourceFile.unresolved :=
    List.mem_flatMap.2 ⟨f, hf, List.mem_filterMap.2 ⟨(d, .unresolved why), hd, rfl⟩⟩
  obtain ⟨w, hw, hreport⟩ := List.mem_filterMap.1 ((reports_perm_of_build h).mem_iff.2 hmem)
  rwa [Warning.unresolved?_eq_some_iff.1 hreport] at hw

/-- Every import statement of a built graph's files is accounted for: one that is resolved has its
edge, and the others are reported once each, with the reason that the graph keeps; nothing else is
reported as unresolved. -/
theorem imports_accounted (h : build t entry root = .ok g) :
    (∀ f ∈ g.files, f.imports.map Prod.fst = Source.imports f.text ∧
      ∀ d target, (d, .resolved target) ∈ f.imports → (f.location, target) ∈ g.edges) ∧
    (g.warnings.filterMap Warning.unresolved?).Perm (g.files.flatMap SourceFile.unresolved) := by
  obtain ⟨l, -, ht⟩ := traversed_of_build h
  refine ⟨fun f hf => ⟨ht.imports_eq f hf, fun d target hi => ?_⟩, reports_perm_of_build h⟩
  exact (linked_of_traversed ht hf hi).2

/-- A directory in which two files ask for one that is no text, the first of them twice, and the
second for a file outside of it. -/
def deadEndTree : FileTree where
  entries :=
    [(["p".toList], .dir), (["O.sol".toList], .file ⟨#[]⟩),
      (["p".toList, "A.sol".toList], .file (Text.toBytes
        "import './X.sol';\nimport './B.sol';\nimport './X.sol';".toList)),
      (["p".toList, "B.sol".toList], .file (Text.toBytes
        "import './X.sol';\nimport '../O.sol';".toList)),
      (["p".toList, "X.sol".toList], .file ⟨#[255]⟩)]
  workDir := some ["p".toList]

def deadEndReports : List UnresolvedUse :=
  [("./X.sol".toList, ⟨"/p/A.sol".toList⟩, .unreadable),
    ("../O.sol".toList, ⟨"/p/B.sol".toList⟩, .outsideProject),
    ("./X.sol".toList, ⟨"/p/B.sol".toList⟩, .unreadable),
    ("./X.sol".toList, ⟨"/p/A.sol".toList⟩, .unreadable)]

theorem reports_deadEndTree :
    (build deadEndTree ⟨"A.sol".toList⟩ ⟨"/p".toList⟩).map
      (fun g => g.warnings.filterMap Warning.unresolved?) = .ok deadEndReports := by
  cbv

theorem imports_accounted_deadEndTree :
    ∃ g, build deadEndTree ⟨"A.sol".toList⟩ ⟨"/p".toList⟩ = .ok g ∧
      deadEndReports.Perm (g.files.flatMap SourceFile.unresolved) := by
  have hreports := reports_deadEndTree
  cases hg : build deadEndTree ⟨"A.sol".toList⟩ ⟨"/p".toList⟩ with
  | error e =>
    rw [hg] at hreports
    cases hreports
  | ok g =>
    rw [hg] at hreports
    have hlist : g.warnings.filterMap Warning.unresolved? = deadEndReports :=
      Except.ok.inj hreports
    exact ⟨g, rfl, hlist ▸ (imports_accounted hg).2⟩

end Graph

end FlatSol
