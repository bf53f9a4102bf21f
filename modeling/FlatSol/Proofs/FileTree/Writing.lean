import FlatSol.Proofs.FileTree.Growth

/-!
# Writing in one step

Writing a text either fails and has made directories at most, or sets a file at the place that the
path gives in the tree with its directories made. If the path denotes anything then, it denotes that
file.
-/

namespace FlatSol.FileTree

variable {t u made : FileTree} {p : Path} {text : Text} {l : Location} {e : Entry}

inductive Writes (t : FileTree) (p : Path) (text : Text) : FileTree × Except IoError Unit → Prop
  | failed {made : FileTree} {e : IoError} (grows : t.Grows made)
      (dirs : (t.ensureDir (writeDir p)).1 = made) : Writes t p text (made, .error e)
  | written {made : FileTree} {l : Location} (dir : t.ensureDir (writeDir p) = (made, .ok ()))
      (checked : made.checkDir (writeDir p) = .ok ()) (place : made.place .busy p = .ok l)
      (noSlash : p.text.getLast? ≠ some '/') (free : made.get? l ≠ some .dir) :
    Writes t p text (made.set l (.file (Text.toBytes text)), .ok ())

theorem writes_writeAtomic (t : FileTree) (p : Path) (text : Text) :
    Writes t p text (t.writeAtomic p text) := by
  unfold writeAtomic
  split
  · next made e hmade => exact .failed (.of_ensureDir hmade) (by rw [hmade])
  · next made hmade =>
    have hg : t.Grows made := .of_ensureDir hmade
    have hdirs : (t.ensureDir (writeDir p)).1 = made := by rw [hmade]
    split
    · exact .failed hg hdirs
    · next hchecked =>
      split
      · next u hu =>
        obtain ⟨l, hl, hslash, hdir, rfl⟩ := replaceFile_eq_ok_iff.1 hu
        exact .written hmade hchecked hl hslash hdir
      · exact .failed hg hdirs

/-! ### The place of the file -/

theorem ClimbsWithin.writeDir {name : Text} (h : t.ClimbsWithin p)
    (hname : (splitLast p).2 = some name) (hn : isName name = true) :
    t.ClimbsWithin (FileTree.writeDir p) := by
  obtain ⟨hm, ha⟩ := moves_writeDir hname hn
  intro front rest hs
  rw [hm] at hs
  have hp : moves p.steps = front ++ .up :: (rest ++ [.into name]) := by
    rw [moves_of_splitLast hname hn, hs, List.append_assoc, List.cons_append]
  obtain ⟨l, hl⟩ := h front _ hp
  exact ⟨l, hl.congr ha⟩

/-- If every `..` leaves a directory that exists, the directories made for a path hold nothing that
stood before. -/
theorem WellFormed.made_eq_of_place (hw : t.WellFormed) (hc : t.ClimbsWithin p)
    (hmade : t.ensureDir (writeDir p) = (made, .ok ())) {fault : Fault}
    (hl : made.place fault p = .ok l) (he : t.get? l = some e) : made = t := by
  obtain ⟨k, name, hk, hname, hn, -, rfl⟩ := place_eq_ok_iff.1 hl
  have hlead := (parentLocation_eq_ok_iff.1 hk).2
  have hdir : t.get? k = some .dir := hw.dir_of_append he
  obtain ⟨hm, ha⟩ := moves_writeDir hname hn
  unfold FileTree.ensureDir at hmade
  split at hmade
  · exact (Prod.mk.inj hmade).1.symm
  · split at hmade
    · next u hu =>
      obtain rfl := (Prod.mk.inj hmade).1
      rcases leads_of_makeDirs hw (hc.writeDir hname hn) hu with rfl | ⟨k', hk', hnone⟩
      · rfl
      · -- the path leads to a new directory, which is the one of the place
        rw [hm] at hk'
        obtain rfl := (hk'.congr ha.symm).unique hlead
        rw [hdir] at hnone
        cases hnone
    · simp at hmade

/-- A path without a slash at its end leads on from its directory to its last name. -/
theorem Leads.way_name {k : Location} {name : Text} (h : t.Leads p (frontMoves p) k)
    (hname : (splitLast p).2 = some name) (hn : isName name = true)
    (hsize : Text.byteSize name ≤ maxNameSize) (hp : p.text.getLast? ≠ some '/')
    (he : t.get? (k ++ [name]) = some e) (hlink : ∀ target, e ≠ .link target) :
    ∃ start m, t.origin p = .ok start ∧ Way t maxLinks start p.steps m (k ++ [name]) := by
  obtain ⟨start, m, ho, w⟩ := Leads.walk_eq h
  refine ⟨start, m, ho, ?_⟩
  rw [steps_of_splitLast hname hn hp]
  exact w.append (.into h.dir hsize he hlink .done)

theorem canonical_of_place {fault : Fault} (hl : t.place fault p = .ok l)
    (hp : p.text.getLast? ≠ some '/') (he : t.get? l = some e) (hlink : ∀ target, e ≠ .link target) :
    t.canonical? p = some l := by
  obtain ⟨k, name, hk, hname, hn, hsize, rfl⟩ := place_eq_ok_iff.1 hl
  obtain ⟨hcheck, hlead⟩ := parentLocation_eq_ok_iff.1 hk
  obtain ⟨start, m, ho, w⟩ := hlead.way_name hname hn hsize hp he hlink
  exact canonical_of_way hcheck ho w

/-- Where the directory of a path stands, the text is written at its place at once. -/
theorem writeAtomic_of_place (place : t.place .busy p = .ok l)
    (noSlash : p.text.getLast? ≠ some '/') (free : t.get? l ≠ some .dir)
    (checked : checkPath (writeDir p) = .ok ()) :
    t.writeAtomic p text = (t.set l (.file (Text.toBytes text)), .ok ()) := by
  obtain ⟨k, name, hk, hname, hn, -, -⟩ := place_eq_ok_iff.1 place
  have hlead := (parentLocation_eq_ok_iff.1 hk).2
  obtain ⟨hmoves, ha⟩ := moves_writeDir hname hn
  have hdir : t.resolve .follow (writeDir p) = .ok k :=
    (hmoves ▸ hlead.congr ha).resolve_eq checked
  have hreplace : t.replaceFile p (Text.toBytes text) =
      .ok (t.set l (.file (Text.toBytes text))) :=
    replaceFile_eq_ok_iff.2 ⟨l, place, noSlash, free, rfl⟩
  simp only [writeAtomic, ensureDir, pathExists, status?, hdir, hlead.dir, Option.isSome_some,
    if_true, checkDir, bind, Except.bind, hreplace]

/-! ### Writing again -/

theorem Way.dir_start {n m : Nat} {here : Location} {steps : List Step}
    (w : Way t n here steps m l) (hl : t.get? l = some .dir) : t.get? here = some .dir := by
  cases w with
  | done => exact hl
  | stay dir _ => exact dir
  | up dir _ => exact dir
  | link dir _ _ _ => exact dir
  | into dir _ _ _ _ => exact dir

/-- What is no file stands somewhere else than the file that is set. -/
theorem get?_of_set_file {o : Location} {bytes : ByteArray} (ho : o ≠ [])
    (h : (t.set o (.file bytes)).get? l = some e) (he : ∀ b, e ≠ .file b) :
    o ≠ l ∧ t.get? l = some e := by
  have hol : o ≠ l := by
    rintro rfl
    rw [t.get?_set_self _ ho] at h
    exact he bytes (Option.some.inj h).symm
  rw [get?_set_of_ne _ _ hol.symm] at h
  exact ⟨hol, h⟩

/-- A way to a directory does not come past a file, so it is one in the tree without that file. -/
theorem Way.of_set_file {n m : Nat} {here o : Location} {steps : List Step} {bytes : ByteArray}
    (ho : o ≠ []) (w : Way (t.set o (.file bytes)) n here steps m l)
    (hl : (t.set o (.file bytes)).get? l = some .dir) :
    Way t n here steps m l ∧ t.get? l = some .dir := by
  refine ⟨?_, (get?_of_set_file ho hl fun _ => by simp).2⟩
  induction w with
  | done => exact .done
  | stay dir _ ih => exact .stay (get?_of_set_file ho dir fun _ => by simp).2 (ih hl)
  | up dir _ ih => exact .up (get?_of_set_file ho dir fun _ => by simp).2 (ih hl)
  | link dir short points _ ih =>
    exact .link (get?_of_set_file ho dir fun _ => by simp).2 short
      (get?_of_set_file ho points fun _ => by simp).2 (ih hl)
  | into dir short found noLink way ih =>
    -- the name looked up is a directory, as the way goes on from it
    have hnext := way.dir_start hl
    exact .into (get?_of_set_file ho dir fun _ => by simp).2 short
      (get?_of_set_file ho hnext fun _ => by simp).2 (fun _ => by simp) (ih hl)

theorem Leads.of_set_file {o : Location} {ms : List Step} {bytes : ByteArray} (ho : o ≠ [])
    (h : (t.set o (.file bytes)).Leads p ms l) : t.Leads p ms l := by
  obtain ⟨start, m, hs, w, hd⟩ := h
  obtain ⟨w, hd⟩ := w.of_set_file ho hd
  exact ⟨start, m, hs, w, hd⟩

/-- What a path denotes is found by its last name, in the directory that its other moves lead to. -/
theorem exists_way_of_resolve {name : Text} (h : t.resolve .follow p = .ok l)
    (hname : (splitLast p).2 = some name) (hn : isName name = true)
    (hp : p.text.getLast? ≠ some '/') :
    ∃ start k j m, t.origin p = .ok start ∧ Way t maxLinks start (frontMoves p) j k ∧
      t.get? k = some .dir ∧ Way t j k [.into name] m l := by
  obtain ⟨-, start, m, ho, w⟩ := resolve_eq_ok_iff.1 h
  rw [steps_of_splitLast hname hn hp] at w
  obtain ⟨j, k, w, v⟩ := w.split
  have hd : t.get? k = some .dir := by
    cases v with
    | link dir _ _ _ => exact dir
    | into dir _ _ _ _ => exact dir
  exact ⟨start, k, j, m, ho, w.of_moves hd (moves_moves _), hd, v⟩

theorem exists_leads_of_resolve {name : Text} (h : t.resolve .follow p = .ok l)
    (hname : (splitLast p).2 = some name) (hn : isName name = true)
    (hp : p.text.getLast? ≠ some '/') :
    ∃ k j m, t.Leads p (frontMoves p) k ∧ Way t j k [.into name] m l := by
  obtain ⟨start, k, j, m, ho, w, hd, v⟩ := exists_way_of_resolve h hname hn hp
  exact ⟨k, j, m, ⟨start, j, ho, w, hd⟩, v⟩

theorem isFile_iff : t.isFile p = true ↔
    ∃ l bytes, t.resolve .follow p = .ok l ∧ t.get? l = some (.file bytes) := by
  unfold isFile status?
  cases t.resolve .follow p with
  | error fault => simp
  | ok l =>
    cases hg : t.get? l with
    | none => simp [hg]
    | some e => cases e <;> simp [hg]

section Replaced

variable {o : Location} {bytes : ByteArray} (place : made.place .busy p = .ok o)
  (noSlash : p.text.getLast? ≠ some '/')
include place noSlash

/-- Once a file is set at its place, a path denotes that file if it denotes anything. -/
theorem eq_of_resolve_set (h : (made.set o (.file bytes)).resolve .follow p = .ok l) :
    l = o ∧ ∃ k, (made.set o (.file bytes)).Leads p (frontMoves p) k := by
  obtain ⟨k, name, hk, hname, hn, -, rfl⟩ := place_eq_ok_iff.1 place
  have hne : k ++ [name] ≠ [] := by simp
  have hself := made.get?_set_self (.file bytes) hne
  obtain ⟨k', j, m, hk', w⟩ := exists_leads_of_resolve h hname hn noSlash
  -- the directory of the path is the same as before the file was set
  obtain rfl : k' = k := (hk'.of_set_file hne).unique (parentLocation_eq_ok_iff.1 hk).2
  refine ⟨?_, k', hk'⟩
  cases w with
  | link _ _ points _ =>
    rw [hself] at points
    cases points
  | into _ _ _ _ way =>
    cases way
    rfl

/-- A path denotes the file that is set at its place if its directory is still found. -/
theorem denotes_of_leads {k : Location} (h : (made.set o (.file bytes)).Leads p (frontMoves p) k) :
    (made.set o (.file bytes)).resolve .follow p = .ok o ∧
      (made.set o (.file bytes)).canonical? p = some o ∧
      (made.set o (.file bytes)).place .busy p = .ok o := by
  obtain ⟨k', name, hk, hname, hn, hsize, rfl⟩ := place_eq_ok_iff.1 place
  obtain ⟨hcheck, hlead⟩ := parentLocation_eq_ok_iff.1 hk
  have hne : k' ++ [name] ≠ [] := by simp
  have hself := made.get?_set_self (.file bytes) hne
  obtain rfl : k = k' := (h.of_set_file hne).unique hlead
  obtain ⟨start, m, ho, w⟩ := h.way_name hname hn hsize noSlash hself fun _ => by simp
  exact ⟨resolve_eq_ok_iff.2 ⟨hcheck, start, m, ho, w⟩, canonical_of_way hcheck ho w,
    place_eq_ok_iff.2 ⟨k, name, parentLocation_eq_ok_iff.2 ⟨hcheck, h⟩, hname, hn, hsize, rfl⟩⟩

end Replaced

/-- What a path denotes after a text is written to it is a file with that text. -/
theorem get?_of_resolve_writeAtomic {left : FileTree}
    (h : t.writeAtomic p text = (left, .ok ())) (hl : left.resolve .follow p = .ok l) :
    left.get? l = some (.file (Text.toBytes text)) := by
  have hwrites := writes_writeAtomic t p text
  rw [h] at hwrites
  cases hwrites with
  | @written made o _ _ place noSlash _ =>
    obtain ⟨rfl, -⟩ := eq_of_resolve_set place noSlash hl
    refine made.get?_set_self _ ?_
    obtain ⟨k, name, -, -, -, -, rfl⟩ := place_eq_ok_iff.1 place
    simp

theorem readText_of_file (hl : t.resolve .follow p = .ok l)
    (hf : t.get? l = some (.file (Text.toBytes text))) : t.readText p = .ok text := by
  simp only [readText, hl, bind, Except.bind, textAt, hf, Text.ofBytes?_toBytes]

end FlatSol.FileTree
