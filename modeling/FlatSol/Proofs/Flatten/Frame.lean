import FlatSol.Proofs.FileTree.Delivery
import FlatSol.Proofs.Flatten.Rerun

/-!
# What flattening changes

A flattening that fails leaves all files and links as they were and no new ones. One that succeeds has
set one file, the rendered text of the graph as the tree was before, at the place that the returned path
gives; that path reads back as the text unless the file took the place of a link on its own way.
-/

namespace FlatSol

variable {t : FileTree} {entry root : Path} {s : Settings} {f : Flattened} {e : FlattenError}

theorem grows_of_flatten_eq_error (h : (flatten t entry root s).result = .error e) :
    t.Grows (flatten t entry root s).tree := by
  simp only [flatten] at h ⊢
  cases hg : Graph.build t (t.normalize entry) (t.normalize root) with
  | error fault => exact .refl t
  | ok g =>
    simp only [hg] at h ⊢
    generalize s.outputPath (t.normalize entry) (t.normalize root) = p at h ⊢
    split
    · exact .refl t
    · next hsame =>
      rw [if_neg hsame] at h
      have hwrites := FileTree.writes_writeAtomic t p (render g (t.normalize root) s).text
      generalize t.writeAtomic p (render g (t.normalize root) s).text = w at h hwrites
      cases hwrites with
      | failed grows => exact grows
      | written => cases h

/-- Failing, flattening adds nothing but directories, with nothing in them but such directories.
Succeeding, it delivers the text that the graph of the tree renders to, with the digest of its bytes. -/
theorem flatten_frame (hw : t.WellFormed) :
    (∀ e, (flatten t entry root s).result = .error e →
      t.Grows (flatten t entry root s).tree ∧ ∀ k n, t.get? k = none →
        (flatten t entry root s).tree.get? (k ++ [n]) ∈ [none, some Entry.dir]) ∧
    ∀ f, (flatten t entry root s).result = .ok f →
      ∃ g made l, Graph.build t entry root = .ok g ∧
        FileTree.Delivered t made (flatten t entry root s).tree f.path
          (render g (t.normalize root) s).text l ∧
        f.fingerprint = Sha256.hexDigest
          (Text.toBytes (render g (t.normalize root) s).text).data.toList := by
  refine ⟨fun e h => ?_, fun f h => ?_⟩
  · have hgrows := grows_of_flatten_eq_error h
    refine ⟨hgrows, fun k n hk => ?_⟩
    have hnone := hw.none_append hk n
    rcases hgrows.entry (k ++ [n]) with hkept | ⟨-, hdir⟩
    · simp [hkept, hnone]
    · simp [hdir]
  · obtain ⟨g, hg, hf, hwrite⟩ := exists_of_flatten_eq_ok h
    obtain ⟨made, l, hdelivered⟩ := FileTree.delivered_of_writeAtomic hwrite
    rw [Graph.build_normalize hw] at hg
    exact ⟨g, made, l, hg, hdelivered, by rw [hf]; rfl⟩

/-- A contract in a project that has a link to a directory beside it, and one to the project itself
that is called what the contract's flattened form is called by default. -/
def detourTree : FileTree where
  entries :=
    [(["p".toList], .dir), (["o".toList], .dir),
      (["p".toList, "A.sol".toList], .file (Text.toBytes "contract A {}\n".toList)),
      (["p".toList, "out".toList], .link "../o".toList),
      (["p".toList, "A_flattened.sol".toList], .link ".".toList)]
  workDir := some ["p".toList]

theorem path_of_flatten_detourTree {d : Text} {f : Flattened}
    (h : (flatten detourTree ⟨"A.sol".toList⟩ ⟨"/p".toList⟩ { dir := some ⟨d⟩ }).result = .ok f) :
    f.path = Settings.outputPath { dir := some ⟨d⟩ } ⟨"/p/A.sol".toList⟩ ⟨"/p".toList⟩ := by
  have hentry : detourTree.normalize ⟨"A.sol".toList⟩ = ⟨"/p/A.sol".toList⟩ := by cbv
  have hroot : detourTree.normalize ⟨"/p".toList⟩ = ⟨"/p".toList⟩ := by cbv
  obtain ⟨g, -, rfl, -⟩ := exists_of_flatten_eq_ok h
  rw [hentry, hroot]
  rfl

theorem flatten_frame_detourTree :
    detourTree.WellFormed ∧ ∃ f, (flatten detourTree ⟨"A.sol".toList⟩ ⟨"/p".toList⟩
        { dir := some ⟨"out/new".toList⟩ }).result = .ok f ∧
      (flatten detourTree ⟨"A.sol".toList⟩ ⟨"/p".toList⟩
          { dir := some ⟨"out/new".toList⟩ }).tree.canonical? f.path =
        some ["o".toList, "new".toList, "A_flattened.sol".toList] := by
  have hw : detourTree.WellFormed := by decide
  have hfiles : (flatten detourTree ⟨"A.sol".toList⟩ ⟨"/p".toList⟩
      { dir := some ⟨"out/new".toList⟩ }).files? = some [⟨"/p/A.sol".toList⟩] := by
    rw [files?_flatten]
    cbv
  obtain ⟨f, hf, -⟩ := Outcome.exists_of_files? hfiles
  have hpath : f.path = ⟨"/p/out/new/A_flattened.sol".toList⟩ :=
    path_of_flatten_detourTree hf
  obtain ⟨g, made, l, -, hdelivered, -⟩ := (flatten_frame hw).2 f hf
  have hmade : detourTree.ensureDir (FileTree.writeDir ⟨"/p/out/new/A_flattened.sol".toList⟩) =
      (detourTree.set ["o".toList, "new".toList] .dir, .ok ()) := by cbv
  have hdirs := hdelivered.dirs
  rw [hpath, hmade] at hdirs
  obtain rfl := (Prod.mk.inj hdirs).1
  have hplace := hdelivered.place
  rw [hpath] at hplace
  have hplaced : (detourTree.set ["o".toList, "new".toList] .dir).place .busy
      ⟨"/p/out/new/A_flattened.sol".toList⟩ =
        .ok ["o".toList, "new".toList, "A_flattened.sol".toList] := by cbv
  obtain rfl := Except.ok.inj (hplaced.symm.trans hplace)
  have hfootprint : (detourTree.set ["o".toList, "new".toList] .dir).footprint
      (FileTree.writeDir ⟨"/p/out/new/A_flattened.sol".toList⟩) =
        [[], [], ["p".toList], ["p".toList, "out".toList], ["p".toList], [], ["o".toList],
          ["o".toList, "new".toList]] := by cbv
  refine ⟨hw, f, hf, (hdelivered.reads ?_).1⟩
  rw [hpath, hfootprint]
  decide

/-- The output takes the place of the link that its directory is reached through, and cannot be read by
the path that is returned for it. -/
theorem readText_flatten_detourTree :
    detourTree.WellFormed ∧ ∃ f, (flatten detourTree ⟨"A.sol".toList⟩ ⟨"/p".toList⟩
        { dir := some ⟨"A_flattened.sol".toList⟩ }).result = .ok f ∧
      (flatten detourTree ⟨"A.sol".toList⟩ ⟨"/p".toList⟩
          { dir := some ⟨"A_flattened.sol".toList⟩ }).tree.readText f.path =
        .error .notDirectory := by
  have hfiles : (flatten detourTree ⟨"A.sol".toList⟩ ⟨"/p".toList⟩
      { dir := some ⟨"A_flattened.sol".toList⟩ }).files? = some [⟨"/p/A.sol".toList⟩] := by
    rw [files?_flatten]
    cbv
  obtain ⟨f, hf, -⟩ := Outcome.exists_of_files? hfiles
  have hpath : f.path = ⟨"/p/A_flattened.sol/A_flattened.sol".toList⟩ :=
    path_of_flatten_detourTree hf
  refine ⟨by decide, f, hf, ?_⟩
  rw [hpath, tree_flatten]
  cbv

end FlatSol
