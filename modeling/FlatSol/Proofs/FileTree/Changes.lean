import FlatSol.Proofs.FileTree.WellFormed

/-!
# Well-formed trees stay well formed

Setting an entry keeps a tree well formed if the entry comes to stand in a directory and takes the
place of none; taking away a location with all that is below it always does. The operations on paths
do no more than that, so every tree that they make of the empty one is well formed.
-/

namespace FlatSol

theorem Except.exists_of_bind_eq_ok {ε α β : Type} {x : Except ε α} {f : α → Except ε β} {b : β}
    (h : x >>= f = .ok b) : ∃ a, x = .ok a ∧ f a = .ok b := by
  cases x with
  | error e => simp [bind, Except.bind] at h
  | ok a => exact ⟨a, rfl, h⟩

/-! ### The names in a path -/

theorem properName_of_mem_pieces {p : Path} (hp : '\x00' ∉ p.text) {n : Text} (h : n ∈ p.pieces)
    (hn : FileTree.isName n = true) (hsize : ¬ maxNameSize < Text.byteSize n) : ProperName n where
  named := hn
  slash := fun hc => (Text.of_mem_pieces h '/' hc).2 rfl
  nul := fun hc => hp (Text.of_mem_pieces h '\x00' hc).1
  size := Nat.not_lt.1 hsize

theorem Step.isName_of_ofPiece {piece n : Text} (h : Step.ofPiece piece = .into n) :
    piece = n ∧ FileTree.isName n = true := by
  rw [Step.ofPiece] at h
  split at h
  · cases h
  · next hidle =>
    split at h
    · cases h
    · next hup =>
      obtain rfl : piece = n := by simpa using h
      simp only [Path.isIdle, Bool.or_eq_true, beq_iff_eq, not_or] at hidle
      simp only [beq_iff_eq] at hup
      simp [FileTree.isName, hidle, hup]

theorem properName_of_mem_steps {p : Path} (hp : '\x00' ∉ p.text) {n : Text}
    (h : .into n ∈ p.steps) (hsize : ¬ maxNameSize < Text.byteSize n) : ProperName n := by
  obtain ⟨piece, hpiece, hof⟩ := List.mem_map.1 h
  obtain ⟨rfl, hn⟩ := Step.isName_of_ofPiece hof
  exact properName_of_mem_pieces hp hpiece hn hsize

namespace FileTree

variable {t u : FileTree} {p : Path} {l : Location}

/-- A location in a directory of the tree, under a name that an entry can bear. -/
structure Hosts (t : FileTree) (l : Location) : Prop where
  notRoot : l ≠ []
  parent : t.get? l.dropLast = some .dir
  names : l.Proper

theorem nul_notMem_of_checkPath {p : Path} {x : Unit} (h : checkPath p = .ok x) :
    '\x00' ∉ p.text := by
  intro hnul
  simp [checkPath, hnul] at h

theorem get?_remove {l k : Location} (h : l.isPrefixOf k = false) :
    (t.remove l).get? k = t.get? k := by
  unfold get? remove
  by_cases hk : k = []
  · simp [hk]
  · simp only [hk, if_false]
    congr 1
    induction t.entries with
    | nil => rfl
    | cons x xs ih =>
      by_cases hx : x.1 = k
      · simp [hx, h]
      · by_cases hxl : l.isPrefixOf x.1 <;> simp_all

/-! ### What the operations do -/

theorem dir_of_parentLocation (h : t.parentLocation p = .ok l) :
    checkPath p = .ok () ∧ t.get? l = some .dir := by
  obtain ⟨_, hcheck, h⟩ := Except.exists_of_bind_eq_ok h
  obtain ⟨start, -, h⟩ := Except.exists_of_bind_eq_ok h
  obtain ⟨k, -, h⟩ := Except.exists_of_bind_eq_ok h
  split at h
  · next hdir =>
    obtain rfl : k = l := Except.ok.inj h
    exact ⟨hcheck, hdir⟩
  · simp at h

theorem place_eq_ok_iff {fault : Fault} :
    t.place fault p = .ok l ↔ ∃ k name, t.parentLocation p = .ok k ∧
      (splitLast p).2 = some name ∧ isName name = true ∧ Text.byteSize name ≤ maxNameSize ∧
      l = k ++ [name] := by
  constructor
  · intro h
    obtain ⟨k, hk, h⟩ := Except.exists_of_bind_eq_ok h
    split at h
    · simp at h
    · next name hname =>
      split at h
      · simp at h
      · next hn =>
        split at h
        · simp at h
        · next hsize =>
          exact ⟨k, name, hk, hname, by simpa using hn, Nat.not_lt.1 hsize,
            (Except.ok.inj h).symm⟩
  · rintro ⟨k, name, hk, hname, hn, hsize, rfl⟩
    simp [place, hk, bind, Except.bind, hname, hn, Nat.not_lt.2 hsize]

/-- Making a directory puts it where nothing stood, at the place that the path gives. -/
theorem makeDir_eq_ok_iff : t.makeDir p = .ok u ↔
    ∃ l, t.place .alreadyExists p = .ok l ∧ t.get? l = none ∧ u = t.set l .dir := by
  constructor
  · intro h
    obtain ⟨l, hl, h⟩ := Except.exists_of_bind_eq_ok h
    split at h
    · simp at h
    · next hnone =>
      exact ⟨l, hl, by simpa using hnone, (Except.ok.inj h).symm⟩
  · rintro ⟨l, hl, hnone, rfl⟩
    simp [makeDir, hl, bind, Except.bind, hnone]

/-- What holds of a tree, and still does when a directory is made in it, holds of the tree with all the
directories that are made for a path. -/
theorem makeDirs_induction {P : FileTree → Prop}
    (step : ∀ {u v : FileTree} {q : Path}, P u → u.makeDir q = .ok v → P v) (p : Path) (h : P t) :
    P (t.makeDirs p).1 := by
  fun_induction FileTree.makeDirs t p with
  | case1 => exact h
  | case2 p hp made hmade => exact step h hmade
  | case3 => exact h
  | case4 p hp hnone parent hparent made fault hmade ih =>
    rw [hmade] at ih
    exact ih
  | case5 p hp hnone parent hparent made hmade final hfinal ih =>
    rw [hmade] at ih
    exact step ih hfinal
  | case6 p hp hnone parent hparent made hmade fault hfinal ih =>
    rw [hmade] at ih
    exact ih
  | case7 => exact h

theorem ensureDir_induction {P : FileTree → Prop}
    (step : ∀ {u v : FileTree} {q : Path}, P u → u.makeDir q = .ok v → P v) (p : Path) (h : P t) :
    P (t.ensureDir p).1 := by
  have hmade := makeDirs_induction step p h
  rw [FileTree.ensureDir]
  split
  · exact h
  · split
    · next made hdirs =>
      rw [hdirs] at hmade
      exact hmade
    · next made fault hdirs =>
      rw [hdirs] at hmade
      exact hmade

theorem replaceFile_eq_ok_iff {bytes : ByteArray} : t.replaceFile p bytes = .ok u ↔
    ∃ l, t.place .busy p = .ok l ∧ p.text.getLast? ≠ some '/' ∧ t.get? l ≠ some .dir ∧
      u = t.set l (.file bytes) := by
  constructor
  · intro h
    obtain ⟨l, hl, h⟩ := Except.exists_of_bind_eq_ok h
    split at h
    · simp at h
    · next hslash =>
      split at h
      · simp at h
      · next hdir => exact ⟨l, hl, by simpa using hslash, hdir, (Except.ok.inj h).symm⟩
  · rintro ⟨l, hl, hslash, hdir, rfl⟩
    simp [replaceFile, hl, bind, Except.bind, hslash, hdir]

namespace WellFormed

theorem hosts (hw : t.WellFormed) {l : Location} {e : Entry} (h : t.get? l = some e) (hl : l ≠ []) :
    t.Hosts l :=
  ⟨hl, hw.dir_dropLast h, hw.proper h⟩

theorem hosts_append (hw : t.WellFormed) {l : Location} {n : Text} (h : t.get? l = some .dir)
    (hn : ProperName n) : t.Hosts (l ++ [n]) where
  notRoot := by simp
  parent := by rw [List.dropLast_concat]; exact h
  names := by
    intro m hm
    rcases List.mem_append.1 hm with hm | hm
    · exact hw.proper h m hm
    · rw [List.mem_singleton.1 hm]
      exact hn

theorem entry_proper (hw : t.WellFormed) {l : Location} {e : Entry} (h : t.get? l = some e) :
    e.Proper := by
  rw [get?] at h
  split at h
  · obtain rfl : .dir = e := Option.some.inj h
    trivial
  · obtain ⟨x, hx, rfl⟩ := Option.map_eq_some_iff.1 h
    exact hw.entries x (List.mem_of_find?_eq_some hx)

/-- An entry may be set in a directory, where no directory stands. -/
theorem set (hw : t.WellFormed) {l : Location} {e : Entry} (hl : t.Hosts l)
    (hdir : t.get? l ≠ some .dir) (he : e.Proper) : (t.set l e).WellFormed := by
  have hother : ∀ k, t.get? k = some .dir → (t.set l e).get? k = some .dir := by
    intro k hk
    have hne : k ≠ l := fun h => hdir (h ▸ hk)
    rw [get?_set_of_ne t e hne, hk]
  have hmem : ∀ x ∈ (t.set l e).entries, x = (l, e) ∨ x ∈ t.entries := by
    intro x hx
    rcases List.mem_cons.1 hx with rfl | hx
    · exact .inl rfl
    · exact .inr (List.mem_of_mem_filter hx)
  have hlocation : ∀ k ∈ (t.set l e).locations, k = l ∨ k ∈ t.locations := by
    intro k hk
    obtain ⟨x, hx, rfl⟩ := List.mem_map.1 hk
    rcases hmem x hx with rfl | hx
    · exact .inl rfl
    · exact .inr (List.mem_map_of_mem hx)
  refine ⟨fun k hk => ?_, fun k hk => ?_, fun x hx => ?_, fun w hwd => hother w (hw.workDir w hwd)⟩
  · rcases hlocation k hk with rfl | hk
    · exact hl.names
    · exact hw.names k hk
  · rcases hlocation k hk with rfl | hk
    · exact hother _ hl.parent
    · exact hother _ (hw.parents k hk)
  · rcases hmem x hx with rfl | hx
    · exact he
    · exact hw.entries x hx

theorem remove (hw : t.WellFormed) (l : Location) : (t.remove l).WellFormed := by
  have hmem : ∀ x ∈ (t.remove l).entries, x ∈ t.entries ∧ l.isPrefixOf x.1 = false := by
    intro x hx
    simpa [FileTree.remove] using hx
  have hlocation : ∀ k ∈ (t.remove l).locations, k ∈ t.locations ∧ l.isPrefixOf k = false := by
    intro k hk
    obtain ⟨x, hx, rfl⟩ := List.mem_map.1 hk
    exact (hmem x hx).imp_left List.mem_map_of_mem
  refine ⟨fun k hk => hw.names k (hlocation k hk).1, fun k hk => ?_,
    fun x hx => hw.entries x (hmem x hx).1, fun w hwd => ?_⟩
  · obtain ⟨hk, hout⟩ := hlocation k hk
    have hparent : l.isPrefixOf k.dropLast = false := by
      rw [Bool.eq_false_iff, Ne, List.isPrefixOf_iff_prefix] at hout ⊢
      exact fun h => hout (h.trans (List.dropLast_prefix k))
    rw [get?_remove hparent]
    exact hw.parents k hk
  · obtain ⟨hwd, hout⟩ : w ∈ t.workDir ∧ l.isPrefixOf w = false := by
      simpa [FileTree.remove, Option.filter_eq_some_iff] using hwd
    rw [get?_remove hout]
    exact hw.workDir w hwd

/-! ### The operations on paths -/

/-- A walk that may make an entry ends at one that is no link, or at a place for a new one. -/
theorem stands_or_hosts_walk (hw : t.WellFormed) {links : Nat} {here l : Location}
    {steps : List Step} (hs : t.Stands here)
    (hnames : ∀ n, .into n ∈ steps → ¬ maxNameSize < Text.byteSize n → ProperName n)
    (h : walk t .create links here steps = .ok l) : t.Stands l ∨ t.Hosts l := by
  fun_induction walk t .create links here steps with
  | case1 => exact .inl (Except.ok.inj h ▸ hs)
  | case2 => simp at h
  | case3 links here rest hd ih =>
    exact ih hs (fun n hn => hnames n (List.mem_cons_of_mem _ hn)) h
  | case4 links here rest hd ih =>
    obtain ⟨e, he, -⟩ := hs
    exact ih (stands_of_dir (hw.dir_dropLast he))
      (fun n hn => hnames n (List.mem_cons_of_mem _ hn)) h
  | case5 => simp at h
  | case6 links here rest hd name hsize hg hlast =>
    have hdir : t.get? here = some .dir := by simpa using hd
    exact .inr (Except.ok.inj h ▸ hw.hosts_append hdir (hnames name List.mem_cons_self hsize))
  | case7 => simp at h
  | case8 => simp_all
  | case9 => simp at h
  | case10 here rest hd name hn target hg hk links ih =>
    refine ih ?_ (fun n hmem hsize => ?_) h
    · split
      · exact stands_of_dir t.get?_root
      · exact hs
    · rcases List.mem_append.1 hmem with hmem | hmem
      · exact properName_of_mem_steps (hw.entry_proper hg) hmem hsize
      · exact hnames n (List.mem_cons_of_mem _ hmem) hsize
  | case11 links here rest hd name hn e hlink hg ih =>
    exact ih ⟨e, hg, fun target he => hlink target he⟩
      (fun n hmem => hnames n (List.mem_cons_of_mem _ hmem)) h

theorem hosts_of_resolve (hw : t.WellFormed) {p : Path} {l : Location}
    (h : t.resolve .create p = .ok l) (hdir : t.get? l ≠ some .dir) : t.Hosts l := by
  obtain ⟨_, hcheck, h⟩ := Except.exists_of_bind_eq_ok h
  obtain ⟨start, hstart, h⟩ := Except.exists_of_bind_eq_ok h
  have hs := stands_of_dir (hw.dir_of_origin hstart)
  have hnames : ∀ n, .into n ∈ p.steps → ¬ maxNameSize < Text.byteSize n → ProperName n :=
    fun n hn => properName_of_mem_steps (nul_notMem_of_checkPath hcheck) hn
  rcases hw.stands_or_hosts_walk hs hnames h with ⟨e, he, -⟩ | hl
  · refine hw.hosts he fun hroot => hdir ?_
    rw [hroot]
    exact t.get?_root
  · exact hl

theorem hosts_of_place (hw : t.WellFormed) {fault : Fault} (h : t.place fault p = .ok l) :
    t.Hosts l := by
  obtain ⟨k, name, hk, hname, hn, hsize, rfl⟩ := place_eq_ok_iff.1 h
  obtain ⟨hcheck, hdir⟩ := dir_of_parentLocation hk
  have hmem : name ∈ p.pieces := by
    have hlast := List.dropWhile_subset _ (List.mem_of_mem_head? hname)
    exact List.mem_reverse.1 hlast
  exact hw.hosts_append hdir
    (properName_of_mem_pieces (nul_notMem_of_checkPath hcheck) hmem hn (Nat.not_lt.2 hsize))

theorem makeDir (hw : t.WellFormed) (h : t.makeDir p = .ok u) : u.WellFormed := by
  obtain ⟨l, hl, hnone, rfl⟩ := makeDir_eq_ok_iff.1 h
  exact hw.set (hw.hosts_of_place hl) (by simp [hnone]) trivial

theorem makeDirs (hw : t.WellFormed) (p : Path) : (t.makeDirs p).1.WellFormed :=
  makeDirs_induction makeDir p hw

theorem ensureDir (hw : t.WellFormed) (p : Path) : (t.ensureDir p).1.WellFormed :=
  ensureDir_induction makeDir p hw

theorem replaceFile (hw : t.WellFormed) {bytes : ByteArray} (h : t.replaceFile p bytes = .ok u) :
    u.WellFormed := by
  obtain ⟨l, hl, -, hdir, rfl⟩ := replaceFile_eq_ok_iff.1 h
  exact hw.set (hw.hosts_of_place hl) hdir trivial

theorem writeAtomic (hw : t.WellFormed) (p : Path) (text : Text) :
    (t.writeAtomic p text).1.WellFormed := by
  have hmade := hw.ensureDir (writeDir p)
  rw [FileTree.writeAtomic]
  split
  · next made e h =>
    rw [h] at hmade
    exact hmade
  · next made h =>
    rw [h] at hmade
    split
    · exact hmade
    · split
      · next written hwritten => exact hmade.replaceFile hwritten
      · exact hmade

theorem putFile (hw : t.WellFormed) {p : Path} {bytes : ByteArray}
    (h : t.putFile p bytes = .ok u) : u.WellFormed := by
  obtain ⟨l, hl, h⟩ := Except.exists_of_bind_eq_ok h
  split at h
  · simp at h
  · next hdir =>
    obtain rfl : t.set l (.file bytes) = u := Except.ok.inj h
    exact hw.set (hw.hosts_of_resolve hl hdir) hdir trivial

theorem putLink (hw : t.WellFormed) {p : Path} {target : Text} (hnul : '\x00' ∉ target)
    (h : t.putLink p target = .ok u) : u.WellFormed := by
  obtain ⟨l, hl, h⟩ := Except.exists_of_bind_eq_ok h
  split at h
  · simp at h
  · next hnone =>
    obtain rfl : t.set l (.link target) = u := Except.ok.inj h
    exact hw.set (hw.hosts_of_place hl) (fun hdir => hnone (by simp [hdir])) hnul

theorem delete (hw : t.WellFormed) {p : Path} (h : t.delete p = .ok u) : u.WellFormed := by
  obtain ⟨l, -, h⟩ := Except.exists_of_bind_eq_ok h
  obtain rfl : t.remove l = u := Except.ok.inj h
  exact hw.remove l

end WellFormed

/-! ### All trees that can be made -/

/-- What one operation makes of a tree. The text of a link reaches no file tree with a NUL character
in it. -/
inductive Change (t : FileTree) : FileTree → Prop
  | makeDirs (p : Path) : Change t (t.makeDirs p).1
  | writeAtomic (p : Path) (text : Text) : Change t (t.writeAtomic p text).1
  | putFile {p : Path} {bytes : ByteArray} {u : FileTree} (h : t.putFile p bytes = .ok u) :
      Change t u
  | putLink {p : Path} {target : Text} {u : FileTree} (hnul : '\x00' ∉ target)
      (h : t.putLink p target = .ok u) : Change t u
  | delete {p : Path} {u : FileTree} (h : t.delete p = .ok u) : Change t u
  | enter {l : Location} (h : t.get? l = some .dir) : Change t { t with workDir := some l }

inductive Reachable : FileTree → Prop
  | empty : Reachable .empty
  | change {t u : FileTree} (ht : Reachable t) (h : Change t u) : Reachable u

theorem WellFormed.change (hw : t.WellFormed) (h : Change t u) : u.WellFormed := by
  cases h with
  | makeDirs p => exact hw.makeDirs p
  | writeAtomic p text => exact hw.writeAtomic p text
  | putFile h => exact hw.putFile h
  | putLink hnul h => exact hw.putLink hnul h
  | delete h => exact hw.delete h
  | @enter l h =>
    refine ⟨hw.names, hw.parents, hw.entries, fun w hwd => ?_⟩
    obtain rfl : l = w := Option.some.inj hwd
    exact h

/-- Every tree that can be made is well formed. -/
theorem wellFormed_of_reachable (h : Reachable t) : t.WellFormed := by
  induction h with
  | empty => decide
  | change _ hc ih => exact ih.change hc

end FileTree

end FlatSol
