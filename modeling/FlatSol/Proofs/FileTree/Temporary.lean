import FlatSol.Proofs.FileTree.Delivery

/-!
# Writing by way of a temporary file

A write in full: a temporary file is made in the directory of the destination, gets the contents, and
takes the destination's name; if it does not, it is removed. What makes the temporary file is any
program that finds a free name or fails. Main statements: the temporary file is seen by no outcome, so
the write ends as the write in one step does; and a write, in either form, is all or nothing.
-/

namespace FlatSol.FileTree

variable {t u made left : FileTree} {p : Path} {text : Text} {k l : Location}

/-! ### Temporary files -/

/-- The tree without one entry. -/
def unlink (t : FileTree) (l : Location) : FileTree :=
  { t with entries := t.entries.filter fun x => x.1 != l }

/-- Moves the entry at a location to the name that a path gives; a link there is replaced itself, a
directory is not. -/
def rename (t : FileTree) (k : Location) (p : Path) : Except Fault FileTree := do
  let l ← t.place .busy p
  if p.text.getLast? == some '/' then .error .notDirectory
  else if t.get? l = some .dir then .error .isDirectory
  else
    match t.get? k with
    | some e => .ok ((t.unlink k).set l e)
    | none => .error .notFound

/-- What makes temporary files and fills them. -/
structure Temporary where
  /-- Where a new file is made in the directory that a path denotes, or why none can be made. -/
  create : FileTree → Path → Except Fault Location
  /-- The contents that are in a new file when filling it fails, and the fault. -/
  fails : FileTree → Location → ByteArray → Option (ByteArray × Fault)
  /-- The file bears a name that was free in the directory. -/
  free : ∀ {t : FileTree} {dir : Path} {k : Location}, create t dir = .ok k →
    ∃ l n, t.resolve .follow dir = .ok l ∧ t.get? l = some .dir ∧ k = l ++ [n] ∧ t.get? k = none

/-- Writes a text to a path by way of a temporary file. -/
def Temporary.write (tmp : Temporary) (t : FileTree) (p : Path) (text : Text) :
    FileTree × Except IoError Unit :=
  match t.ensureDir (writeDir p) with
  | (made, .error e) => (made, .error e)
  | (made, .ok ()) =>
    match tmp.create made (writeDir p) with
    | .error fault => (made, .error ⟨.createTemporary, writeDir p, fault⟩)
    | .ok k =>
      match tmp.fails made k (Text.toBytes text) with
      | some (part, fault) =>
        ((made.set k (.file part)).unlink k, .error ⟨.writeFile, p, fault⟩)
      | none =>
        let staged := made.set k (.file (Text.toBytes text))
        match staged.rename k p with
        | .ok left => (left, .ok ())
        | .error fault => (staged.unlink k, .error ⟨.writeFile, p, fault⟩)

/-- A temporary file with a given name, unless something bears it already. -/
def Temporary.named (name : Text) : Temporary where
  create t dir := do
    let l ← t.resolve .follow dir
    if t.get? l ≠ some .dir then .error .notDirectory
    else if (t.get? (l ++ [name])).isSome then .error .alreadyExists
    else .ok (l ++ [name])
  fails _ _ _ := none
  free h := by
    obtain ⟨l, hl, h⟩ := Except.exists_of_bind_eq_ok h
    split at h
    · cases h
    · next hdir =>
      split at h
      · cases h
      · next hnone =>
        obtain rfl := Except.ok.inj h
        exact ⟨l, name, hl, not_not.1 hdir, rfl, by simpa using hnone⟩

/-! ### The temporary file leaves no trace -/

/-- A new entry that is taken away again leaves the tree as it was. -/
theorem unlink_set (h : t.get? k = none) (e : Entry) : (t.set k e).unlink k = t := by
  have hk : k ≠ [] := by
    rintro rfl
    simp at h
  have hfind : t.entries.find? (fun x => x.1 == k) = none := by simpa [get?, hk] using h
  have hfilter : t.entries.filter (fun x => x.1 != k) = t.entries := by
    rw [List.filter_eq_self]
    intro x hx
    simpa using List.find?_eq_none.1 hfind x hx
  simp [unlink, set, hfilter]

theorem kept_of_none (h : t.get? k = none) (e : Entry) (j : Location) (f : Entry)
    (hj : t.get? j = some f) : (t.set k e).get? j = some f := by
  have hjk : j ≠ k := by
    rintro rfl
    rw [h] at hj
    cases hj
  rw [t.get?_set_of_ne e hjk, hj]

/-- A new file is on the way of no path to the place of an entry. -/
theorem place_set_eq_ok_iff {fault : Fault} (bytes : ByteArray) (h : t.get? k = none) :
    (t.set k (.file bytes)).place fault p = .ok l ↔ t.place fault p = .ok l := by
  have hk : k ≠ [] := by
    rintro rfl
    simp at h
  have hleads : ∀ ms j, (t.set k (.file bytes)).Leads p ms j ↔ t.Leads p ms j := by
    intro ms j
    refine ⟨fun hj => hj.of_set_file hk, fun ⟨start, m, ho, w, hd⟩ => ?_⟩
    exact ⟨start, m, ho, w.mono (kept_of_none h (.file bytes)), kept_of_none h _ _ _ hd⟩
  simp only [place_eq_ok_iff, parentLocation_eq_ok_iff, hleads]

/-- To name the filled file is to set it in one step. -/
theorem rename_eq_ok_iff {bytes : ByteArray} (h : made.get? k = none) :
    (made.set k (.file bytes)).rename k p = .ok left ↔ made.replaceFile p bytes = .ok left := by
  have hk : k ≠ [] := by
    rintro rfl
    simp at h
  have hself := made.get?_set_self (.file bytes) hk
  have hdir : ∀ l, (made.set k (.file bytes)).get? l = some .dir ↔ made.get? l = some .dir := by
    intro l
    by_cases hl : l = k
    · rw [hl, hself, h]
      simp
    · rw [made.get?_set_of_ne _ hl]
  rw [replaceFile_eq_ok_iff]
  constructor
  · intro hr
    obtain ⟨l, hl, hr⟩ := Except.exists_of_bind_eq_ok hr
    split at hr
    · cases hr
    · next hslash =>
      split at hr
      · cases hr
      · next hfree =>
        simp only [hself, unlink_set h] at hr
        exact ⟨l, (place_set_eq_ok_iff bytes h).1 hl, by simpa using hslash, mt (hdir l).2 hfree,
          (Except.ok.inj hr).symm⟩
  · rintro ⟨l, hl, hslash, hfree, rfl⟩
    have hplace := (place_set_eq_ok_iff bytes h).2 hl
    simp [rename, hplace, bind, Except.bind, hslash, mt (hdir l).1 hfree, hself, unlink_set h]

section Temporary

variable (tmp : Temporary)

theorem Temporary.checkDir_of_create {dir : Path} (h : tmp.create made dir = .ok k) :
    made.checkDir dir = .ok () := by
  obtain ⟨l, n, hl, hdir, -, -⟩ := tmp.free h
  simp only [checkDir, hl, bind, Except.bind, hdir, if_true]

theorem Temporary.none_of_create {dir : Path} (h : tmp.create made dir = .ok k) :
    made.get? k = none := by
  obtain ⟨l, n, -, -, -, hnone⟩ := tmp.free h
  exact hnone

/-- Once the temporary file is made and filled, the write is the one in one step: it leaves the same
tree, and fails if the other does. -/
theorem Temporary.write_eq (hmade : t.ensureDir (writeDir p) = (made, .ok ()))
    (hk : tmp.create made (writeDir p) = .ok k)
    (hfills : tmp.fails made k (Text.toBytes text) = none) :
    (tmp.write t p text).1 = (t.writeAtomic p text).1 ∧
      ((tmp.write t p text).2 = .ok () ↔ (t.writeAtomic p text).2 = .ok ()) := by
  have hnone := tmp.none_of_create hk
  have hiff : ∀ left, (made.set k (.file (Text.toBytes text))).rename k p = .ok left ↔
      made.replaceFile p (Text.toBytes text) = .ok left := fun left => rename_eq_ok_iff hnone
  simp only [write, writeAtomic, hmade, hk, hfills, tmp.checkDir_of_create hk, unlink_set hnone]
  cases hr : (made.set k (.file (Text.toBytes text))).rename k p with
  | ok left => simp [(hiff left).1 hr]
  | error fault =>
    cases hs : made.replaceFile p (Text.toBytes text) with
    | error => simp
    | ok left =>
      rw [(hiff left).2 hs] at hr
      cases hr

theorem Temporary.writes_write (t : FileTree) (p : Path) (text : Text) :
    Writes t p text (tmp.write t p text) := by
  unfold write
  split
  · next made e hmade => exact .failed (.of_ensureDir hmade) (by rw [hmade])
  · next made hmade =>
    have hg : t.Grows made := .of_ensureDir hmade
    have hdirs : (t.ensureDir (writeDir p)).1 = made := by rw [hmade]
    split
    · exact .failed hg hdirs
    · next k hk =>
      have hnone := tmp.none_of_create hk
      split
      · rw [unlink_set hnone]
        exact .failed hg hdirs
      · simp only
        split
        · next left hleft =>
          obtain ⟨l, hl, hslash, hdir, rfl⟩ :=
            replaceFile_eq_ok_iff.1 ((rename_eq_ok_iff hnone).1 hleft)
          exact .written hmade (tmp.checkDir_of_create hk) hl hslash hdir
        · rw [unlink_set hnone]
          exact .failed hg hdirs

end Temporary

/-! ### All or nothing -/

/-- What a failed write may leave: nothing has changed, and all that is new are directories that
paths above the destination denote, with nothing in them but such directories. -/
structure OnlyDirs (t left : FileTree) (p : Path) : Prop where
  entries : ∀ k, left.get? k = t.get? k ∨ t.get? k = none ∧ left.get? k = some .dir ∧
    ∃ q : Path, q.IsAncestor (writeDir p) ∧ left.canonical? q = some k
  bare : ∀ k n, t.get? k = none → left.get? (k ++ [n]) ∈ [none, some .dir]
  workDir : left.workDir = t.workDir

/-- A write fails and leaves new directories at most, or it delivers the text. -/
inductive AllOrNothing (t : FileTree) (p : Path) (text : Text) :
    FileTree × Except IoError Unit → Prop
  | nothing {left : FileTree} {e : IoError} (dirs : OnlyDirs t left p) :
    AllOrNothing t p text (left, .error e)
  | all {made left : FileTree} {l : Location} (delivered : Delivered t made left p text l)
      (workDir : left.workDir = t.workDir) : AllOrNothing t p text (left, .ok ())

theorem WellFormed.onlyDirs_ensureDir (hw : t.WellFormed) (p : Path) :
    OnlyDirs t (t.ensureDir (writeDir p)).1 p := by
  have hdirs : t.ensureDir (writeDir p) =
      ((t.ensureDir (writeDir p)).1, (t.ensureDir (writeDir p)).2) := rfl
  have hgrows : t.Grows (t.ensureDir (writeDir p)).1 := .of_ensureDir hdirs
  refine ⟨fun k => ?_, fun k n hk => ?_, hgrows.workDir⟩
  · rcases hgrows.entry k with hkept | ⟨hnone, hdir⟩
    · exact .inl hkept
    · exact (entry_ensureDir hdirs k).imp_right fun hq => ⟨hnone, hdir, hq⟩
  · rcases hgrows.entry (k ++ [n]) with hkept | ⟨-, hdir⟩
    · simp [hkept, hw.none_append hk n]
    · simp [hdir]

theorem workDir_of_writes {r : Except IoError Unit} (h : Writes t p text (left, r)) :
    left.workDir = t.workDir := by
  cases h with
  | failed grows => exact grows.workDir
  | written dir => exact (Grows.of_ensureDir dir).workDir

theorem WellFormed.allOrNothing_of_writes (hw : t.WellFormed)
    {r : FileTree × Except IoError Unit} (h : Writes t p text r) : AllOrNothing t p text r := by
  obtain ⟨left, r⟩ := r
  cases r with
  | error e =>
    cases h with
    | failed grows dirs => exact .nothing (dirs ▸ hw.onlyDirs_ensureDir p)
  | ok =>
    obtain ⟨made, l, hdelivered⟩ := delivered_of_writes h
    exact .all hdelivered (workDir_of_writes h)

/-- A write is all or nothing, in one step and by way of a temporary file. Where that file can be made
and filled, the two leave the same tree: nothing remains of the temporary file. -/
theorem writeAtomic_allOrNothing (hw : t.WellFormed) (p : Path) (text : Text) (tmp : Temporary) :
    AllOrNothing t p text (t.writeAtomic p text) ∧ AllOrNothing t p text (tmp.write t p text) ∧
      ∀ made k, t.ensureDir (writeDir p) = (made, .ok ()) →
        tmp.create made (writeDir p) = .ok k → tmp.fails made k (Text.toBytes text) = none →
          (tmp.write t p text).1 = (t.writeAtomic p text).1 ∧
            ((tmp.write t p text).2 = .ok () ↔ (t.writeAtomic p text).2 = .ok ()) :=
  ⟨hw.allOrNothing_of_writes (writes_writeAtomic t p text),
    hw.allOrNothing_of_writes (tmp.writes_write t p text),
    fun _ _ hmade hk hfills => tmp.write_eq hmade hk hfills⟩

/-- A directory with a file and a link to the directory itself. -/
def selfTree : FileTree where
  entries :=
    [(["A".toList], .file (Text.toBytes "a".toList)), (["L".toList], .link ".".toList)]
  workDir := some []

theorem writeAtomic_allOrNothing_selfTree :
    selfTree.WellFormed ∧ ∃ left, selfTree.writeAtomic ⟨"L/new/B".toList⟩ "x".toList = (left, .ok ()) ∧
      ((Temporary.named ".tmp000000".toList).write selfTree ⟨"L/new/B".toList⟩ "x".toList).1 = left ∧
      left.readText ⟨"L/new/B".toList⟩ = .ok "x".toList := by
  have hw : selfTree.WellFormed := by decide
  have hmade : selfTree.ensureDir (writeDir ⟨"L/new/B".toList⟩) =
      (selfTree.set ["new".toList] .dir, .ok ()) := by cbv
  have hcreate : (Temporary.named ".tmp000000".toList).create (selfTree.set ["new".toList] .dir)
      (writeDir ⟨"L/new/B".toList⟩) = .ok ["new".toList, ".tmp000000".toList] := by cbv
  have hfootprint : (selfTree.set ["new".toList] .dir).footprint (writeDir ⟨"L/new/B".toList⟩) =
      [[], ["L".toList], [], [], ["new".toList]] := by cbv
  have hplace : (selfTree.set ["new".toList] .dir).place .busy ⟨"L/new/B".toList⟩ =
      .ok ["new".toList, "B".toList] := by cbv
  have hok : (selfTree.writeAtomic ⟨"L/new/B".toList⟩ "x".toList).2 = .ok () := by cbv
  obtain ⟨h, -, hsame⟩ := writeAtomic_allOrNothing hw ⟨"L/new/B".toList⟩ "x".toList
    (Temporary.named ".tmp000000".toList)
  have htree := (hsame _ _ hmade hcreate rfl).1
  rw [htree]
  generalize selfTree.writeAtomic ⟨"L/new/B".toList⟩ "x".toList = r at h hok ⊢
  cases h with
  | nothing => cases hok
  | @all made left l delivered =>
    obtain rfl := (Prod.mk.inj (hmade.symm.trans delivered.dirs)).1
    obtain rfl := Except.ok.inj (hplace.symm.trans delivered.place)
    refine ⟨hw, left, rfl, rfl, (delivered.reads ?_).2⟩
    rw [hfootprint]
    decide

/-- A file that takes the place of the link that its directory is reached through cannot be read by the
path that it was written to. -/
theorem readText_writeAtomic_selfTree :
    (selfTree.writeAtomic ⟨"L/L".toList⟩ "x".toList).2 = .ok () ∧
      (selfTree.writeAtomic ⟨"L/L".toList⟩ "x".toList).1.readText ⟨"L/L".toList⟩ =
        .error .notDirectory := by
  refine ⟨?_, ?_⟩
  · cbv
  · cbv

end FlatSol.FileTree
