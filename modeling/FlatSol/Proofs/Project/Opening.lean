import FlatSol.Project.Basic
import FlatSol.Proofs.Graph.Resolution
import FlatSol.Proofs.Project.Root

/-!
# Opening a project by one of its files

A file asks for the project in the directory around it, and that is the directory in which the file
itself stands: links are followed before the name is taken away. Main statement: a name in a directory
opens the same project as the directory exactly if the file that it denotes stands in that directory.
-/

namespace FlatSol

open FileTree

/-! ### The parent of a canonical path -/

theorem Path.dropIdle_of_names {ps : List Text} (h : ∀ p ∈ ps, isName p = true) :
    Path.dropIdle ps = ps := by
  induction ps with
  | nil => rfl
  | cons p ps ih =>
    obtain ⟨hp, hps⟩ := List.forall_mem_cons.1 h
    have hnot : Path.isIdle p = false := by
      simp only [isName, Bool.and_eq_true, bne_iff_ne, ne_eq] at hp
      simp [Path.isIdle, hp.1.1, hp.1.2]
    rw [Path.dropIdle, ih hps]
    cases ps with
    | nil => simp [hnot]
    | cons q qs => rfl

theorem Location.parent?_path {l : Location} (hl : l.Proper) (hne : l ≠ []) :
    l.path.parent? = some (Location.path l.dropLast) := by
  have hall : ∀ n ∈ l, isName n = true := fun n hn => (hl n hn).named
  have hdrop : Path.dropIdle l = l := Path.dropIdle_of_names hall
  have hdrop' : Path.dropIdle l.dropLast = l.dropLast :=
    Path.dropIdle_of_names fun n hn => hall n (List.mem_of_mem_dropLast hn)
  unfold Path.parent?
  rw [Location.pieces_path hl hne]
  simp only [hdrop, if_neg hne, hdrop', Location.isAbsolute_path, if_true]
  cases l.dropLast with
  | nil => rfl
  | cons n ns => rfl

namespace FileTree.WellFormed

variable {t : FileTree} {l : Location}

/-- The canonical path of a file denotes that file, as long as a path may have its length. -/
theorem isFile_path_iff (hw : t.WellFormed) {bytes : ByteArray} (h : t.get? l = some (.file bytes)) :
    t.isFile l.path = true ↔ Text.byteSize l.path.text ≤ maxPathSize := by
  have hcanonical := hw.canonical_path_of_stands ⟨_, h, fun _ => by simp⟩
  obtain ⟨hnul, hne, start, m, ho, w⟩ := canonical?_eq_some_iff.1 hcanonical
  rw [isFile_iff]
  constructor
  · rintro ⟨k, _, hk, -⟩
    exact (checkPath_eq_ok_iff.1 (resolve_eq_ok_iff.1 hk).1).2.2
  · intro hsize
    have hcheck := checkPath_eq_ok_iff.2 ⟨hnul, hne, hsize⟩
    exact ⟨l, bytes, resolve_eq_ok_iff.2 ⟨hcheck, start, m, ho, w⟩, h⟩

theorem isFile_path_of_dir (hw : t.WellFormed) (h : t.get? l = some .dir) :
    t.isFile l.path = false := by
  rw [Bool.eq_false_iff]
  intro hfile
  obtain ⟨k, bytes, hk, hbytes⟩ := isFile_iff.1 hfile
  obtain ⟨-, start, m, ho, w⟩ := resolve_eq_ok_iff.1 hk
  obtain ⟨-, -, start', m', ho', w'⟩ :=
    canonical?_eq_some_iff.1 (hw.canonical_path_of_stands (stands_of_dir h))
  obtain rfl := Except.ok.inj (ho.symm.trans ho')
  obtain ⟨-, rfl⟩ := w.unique w'
  rw [h] at hbytes
  cases hbytes

end FileTree.WellFormed

namespace Project

variable {t : FileTree} {p q d : Path} {l k : Location} {n : Text}

/-! ### The directory that is opened -/

/-- The directory that an attempt to open a project has looked at. -/
def lookedAt : Except ConfigurationNotFound Project → Path
  | .ok project => project.root
  | .error e => e.dir

theorem openAt_of_none (h : findConfigFile t (openedDir t p) = none) :
    (openAt t p).1 = .error ⟨openedDir t p⟩ := by
  unfold openAt
  dsimp only
  rw [h]

theorem openAt_of_some {c : Path} (h : findConfigFile t (openedDir t p) = some c) :
    (openAt t p).1 = .ok ⟨openedDir t p, c, (openedDir t p).join ⟨contractsDirName⟩,
      (Settings.forProject t (openedDir t p)).1⟩ := by
  unfold openAt
  dsimp only
  rw [h]

theorem exists_of_openAt {project : Project} (h : (openAt t p).1 = .ok project) :
    ∃ c, findConfigFile t (openedDir t p) = some c ∧
      project = ⟨openedDir t p, c, (openedDir t p).join ⟨contractsDirName⟩,
        (Settings.forProject t (openedDir t p)).1⟩ := by
  cases hfind : findConfigFile t (openedDir t p) with
  | none =>
    rw [openAt_of_none hfind] at h
    cases h
  | some c =>
    rw [openAt_of_some hfind] at h
    exact ⟨c, rfl, (Except.ok.inj h).symm⟩

theorem lookedAt_openAt (t : FileTree) (p : Path) : lookedAt (openAt t p).1 = openedDir t p := by
  cases h : findConfigFile t (openedDir t p) with
  | none => rw [openAt_of_none h, lookedAt]
  | some c => rw [openAt_of_some h, lookedAt]

theorem openAt_congr (h : openedDir t p = openedDir t q) : openAt t p = openAt t q := by
  unfold openAt
  rw [h]

/-- Two paths open the same project, or none in the same directory, if they ask for the same
directory. -/
theorem openAt_eq_iff : (openAt t p).1 = (openAt t q).1 ↔ openedDir t p = openedDir t q := by
  constructor
  · intro h
    rw [← lookedAt_openAt, h, lookedAt_openAt]
  · intro h
    rw [openAt_congr h]

theorem openedDir_of_dir (hw : t.WellFormed) (hp : t.canonical? p = some l)
    (hl : t.get? l = some .dir) : openedDir t p = l.path := by
  have habsolute : t.absolute p = l.path := by rw [absolute, hp]
  simp only [openedDir, habsolute, hw.isFile_path_of_dir hl, Bool.false_eq_true, if_false]

theorem openedDir_of_file (hw : t.WellFormed) (hp : t.FileAt p k) :
    openedDir t p =
      if Text.byteSize k.path.text ≤ maxPathSize then Location.path k.dropLast else k.path := by
  obtain ⟨hk, bytes, hbytes⟩ := hp
  have habsolute : t.absolute p = k.path := by rw [absolute, hk]
  have hne : k ≠ [] := by
    rintro rfl
    simp at hbytes
  have hparent : k.path.parent?.getD k.path = Location.path k.dropLast := by
    rw [Location.parent?_path (hw.proper hbytes) hne]
    rfl
  simp only [openedDir, habsolute, hw.isFile_path_iff hbytes, hparent]

/-- A file asks for a directory exactly if it stands in it and its path is no longer than a path may
be. -/
theorem openedDir_of_file_eq_iff (hw : t.WellFormed) (hp : t.FileAt p k)
    (hl : t.get? l = some .dir) : openedDir t p = l.path ↔
      k.dropLast = l ∧ Text.byteSize k.path.text ≤ maxPathSize := by
  rw [openedDir_of_file hw hp]
  obtain ⟨-, bytes, hbytes⟩ := hp
  have hproper : k.Proper := hw.proper hbytes
  have hdrop : Location.Proper k.dropLast := fun n hn => hproper n (List.mem_of_mem_dropLast hn)
  split
  · next hsize =>
    rw [and_iff_left hsize]
    exact ⟨Location.path_injective hdrop (hw.proper hl), fun h => by rw [h]⟩
  · next hsize =>
    refine ⟨fun h => ?_, fun h => absurd h.2 hsize⟩
    -- the file itself is no directory
    obtain rfl := Location.path_injective hproper (hw.proper hl) h
    rw [hl] at hbytes
    cases hbytes

/-! ### Files of a directory -/

/-- The name denotes a regular file directly inside a directory: one that stands there, or one that a
link of this name leads to. -/
structure NamesFile (t : FileTree) (d : Path) (n : Text) (l k : Location) : Prop where
  named : isName n = true
  slash : '/' ∉ n
  denoted : t.canonical? d = some l
  dir : t.get? l = some .dir
  file : t.FileAt (d.join ⟨n⟩) k

theorem namesFile_of_stands (hw : t.WellFormed) (hd : t.canonical? d = some l) {bytes : ByteArray}
    (hn : t.get? (l ++ [n]) = some (.file bytes)) : NamesFile t d n l (l ++ [n]) := by
  have hdir : t.get? l = some .dir := hw.dir_of_append hn
  have hname : ProperName n := hw.proper hn n (by simp)
  have hne : d.text ≠ [] := (canonical?_eq_some_iff.1 hd).2.1
  have hrelative := Path.isAbsolute_of_notMem hname.slash
  obtain ⟨hlast, hfront, hslash⟩ := Path.splitLast_join d hname.named hname.slash
  have hlead : t.Leads (d.join ⟨n⟩) (frontMoves (d.join ⟨n⟩)) l := by
    rw [hfront]
    exact ((hw.canonical_dir_iff hne).1 ⟨hd, hdir⟩).congr (Path.isAbsolute_join d hrelative hne)
  obtain ⟨start, m, ho, w⟩ :=
    hlead.way_name hlast hname.named hname.size hslash hn fun _ => by simp
  exact ⟨hname.named, hname.slash, hd, hdir,
    hw.canonical_of_way (Path.text_join_ne_nil _ hne) ho w, bytes, hn⟩

theorem exists_of_openAt_eq_ok {project : Project} (h : (openAt t p).1 = .ok project) :
    project.root = openedDir t p ∧
      ∃ n ∈ configFileNames, project.configFile = project.root.join ⟨n⟩ ∧
        t.isFile project.configFile = true := by
  obtain ⟨c, hfind, rfl⟩ := exists_of_openAt h
  obtain ⟨n, hn, hc⟩ := List.mem_map.1 (List.mem_of_find?_eq_some hfind)
  exact ⟨rfl, n, hn, hc.symm, List.find?_some hfind⟩

theorem fileAt_of_isFile (h : t.isFile p = true) : ∃ k, t.FileAt p k := by
  obtain ⟨k, bytes, hk, hbytes⟩ := isFile_iff.1 h
  obtain ⟨hc, start, m, ho, w⟩ := resolve_eq_ok_iff.1 hk
  exact ⟨k, canonical_of_way hc ho w, bytes, hbytes⟩

theorem byteSize_le_byteSize_join (p : Path) (hs : '/' ∉ n) :
    Text.byteSize p.text ≤ Text.byteSize (p.join ⟨n⟩).text := by
  rw [Path.join, Path.isAbsolute_of_notMem hs, if_neg Bool.false_ne_true]
  split <;> simp

/-- A project is opened again by its own configuration file exactly if that file stands in the root by
its canonical path. -/
theorem openAt_configFile (hw : t.WellFormed) {project : Project}
    (h : (openAt t p).1 = .ok project) : ∃ k, t.FileAt project.configFile k ∧
      ((openAt t project.configFile).1 = .ok project ↔
        Location.path k.dropLast = project.root ∧ Text.byteSize k.path.text ≤ maxPathSize) := by
  obtain ⟨hroot, n, hn, hconfig, hfile⟩ := exists_of_openAt_eq_ok h
  obtain ⟨k, hk⟩ := fileAt_of_isFile hfile
  refine ⟨k, hk, ?_⟩
  rw [← h, openAt_eq_iff, ← hroot, openedDir_of_file hw hk]
  split
  · next hsize => rw [and_iff_left hsize]
  · next hsize =>
    refine ⟨fun hpath => ?_, fun hpath => absurd hpath.2 hsize⟩
    -- the path of the configuration file was followed, so the root is not too long
    obtain ⟨_, _, hresolve, -⟩ := isFile_iff.1 hfile
    have hcheck := (resolve_eq_ok_iff.1 hresolve).1
    have hle := byteSize_le_byteSize_join project.root (isName_of_mem_configFileNames hn).2
    rw [← hconfig, ← hpath] at hle
    exact absurd (Nat.le_trans hle (checkPath_eq_ok_iff.1 hcheck).2.2) hsize

/-- A name of a directory opens what the directory opens exactly if the file that it denotes stands in
the directory itself, as every file does that stands there under this name. The configuration file of
a project is such a name of its root. -/
theorem openAt_namesFile (hw : t.WellFormed) :
    (∀ d n l k, NamesFile t d n l k → ((openAt t (d.join ⟨n⟩)).1 = (openAt t d).1 ↔
      k.dropLast = l ∧ Text.byteSize k.path.text ≤ maxPathSize)) ∧
    (∀ d n l bytes, t.canonical? d = some l → t.get? (l ++ [n]) = some (.file bytes) →
      NamesFile t d n l (l ++ [n])) ∧
    ∀ p project, (openAt t p).1 = .ok project → ∃ k, t.FileAt project.configFile k ∧
      ((openAt t project.configFile).1 = .ok project ↔
        Location.path k.dropLast = project.root ∧ Text.byteSize k.path.text ≤ maxPathSize) := by
  refine ⟨fun d n l k h => ?_, fun d n l bytes hd hn => namesFile_of_stands hw hd hn,
    fun p project => openAt_configFile hw⟩
  rw [openAt_eq_iff, openedDir_of_dir hw h.denoted h.dir, openedDir_of_file_eq_iff hw h.file h.dir]

/-- A project whose configuration file is also named by a link in its root, and to whose root a link
leads. -/
def aliasTree : FileTree where
  entries :=
    [(["p".toList], .dir),
      (["p".toList, configFileName], .file (Text.toBytes [])),
      (["p".toList, "c".toList], .link "../q/truffle-config.js".toList),
      (["q".toList], .link "p".toList)]
  workDir := some []

theorem namesFile_aliasTree :
    NamesFile aliasTree ⟨"q".toList⟩ "c".toList ["p".toList] ["p".toList, configFileName] :=
  ⟨by decide, by decide, by cbv, by decide, by cbv, Text.toBytes [], by decide⟩

theorem openAt_namesFile_aliasTree :
    aliasTree.WellFormed ∧
      (openAt aliasTree ⟨"q/c".toList⟩).1 = (openAt aliasTree ⟨"q".toList⟩).1 :=
  ⟨by decide, ((openAt_namesFile (by decide)).1 _ _ _ _ namesFile_aliasTree).2
    ⟨by decide, by decide⟩⟩

/-- A project whose configuration file is a link to a file in another directory. -/
def lentTree : FileTree where
  entries :=
    [(["p".toList], .dir), (["s".toList], .dir),
      (["s".toList, "c".toList], .file (Text.toBytes [])),
      (["p".toList, configFileName], .link "../s/c".toList)]
  workDir := some ["p".toList]

/-- A configuration file that stands elsewhere opens another directory than the one that it marks, and
so does the one of a project that was opened by the empty path. -/
theorem openAt_lentTree :
    (lentTree.WellFormed ∧
      NamesFile lentTree ⟨"/p".toList⟩ configFileName ["p".toList] ["s".toList, "c".toList] ∧
      (openAt lentTree ⟨"/p/truffle-config.js".toList⟩).1 = .error ⟨⟨"/s".toList⟩⟩ ∧
      ∃ project, (openAt lentTree ⟨"/p".toList⟩).1 = .ok project ∧
        project.configFile = ⟨"/p/truffle-config.js".toList⟩) ∧
    markedTree.WellFormed ∧ ∃ project, (openAt markedTree ⟨[]⟩).1 = .ok project ∧
      (openAt markedTree project.configFile).1 ≠ .ok project := by
  have hlent : openedDir lentTree ⟨"/p/truffle-config.js".toList⟩ = ⟨"/s".toList⟩ := by cbv
  have hmarked : openedDir lentTree ⟨"/p".toList⟩ = ⟨"/p".toList⟩ := by cbv
  have hempty : openedDir markedTree ⟨[]⟩ = ⟨[]⟩ := by cbv
  have hown : openedDir markedTree ⟨configFileName⟩ = ⟨"/p".toList⟩ := by cbv
  refine ⟨⟨by decide, ⟨by decide, by decide, by cbv, by decide, by cbv, Text.toBytes [], by decide⟩,
    ?_, ?_⟩, by decide, ?_⟩
  · rw [openAt_of_none (by rw [hlent]; cbv), hlent]
  · exact ⟨_, openAt_of_some (c := ⟨"/p/truffle-config.js".toList⟩) (by rw [hmarked]; cbv), rfl⟩
  · refine ⟨_, openAt_of_some (c := ⟨configFileName⟩) (by rw [hempty]; cbv), fun h => ?_⟩
    have hroot := (exists_of_openAt_eq_ok h).1
    rw [hown, hempty] at hroot
    cases hroot

end Project

end FlatSol
