import FlatSol.Proofs.FileTree.Writing

/-!
# Trees that differ in the contents of some files

Two trees have the same directories, links and file names, and differ in the bytes of hidden files at
most. Following a path never looks into a file, so every path leads to the same place in both; making
a directory and writing a file have the same result and leave two such trees behind.
-/

namespace FlatSol.FileTree

/-- The trees are the same but for the bytes of files at hidden locations. -/
structure AgreeBut (hidden : Location → Prop) (t u : FileTree) : Prop where
  entry : ∀ k, u.get? k = t.get? k ∨
    hidden k ∧ ∃ a b, t.get? k = some (.file a) ∧ u.get? k = some (.file b)
  workDir : u.workDir = t.workDir

namespace AgreeBut

variable {hidden : Location → Prop} {t u t' : FileTree} {p : Path} {k l : Location}

theorem of_set {a : ByteArray} (hl : t.get? l = some (.file a)) (h : hidden l) (b : ByteArray) :
    AgreeBut hidden t (t.set l (.file b)) where
  entry k := by
    by_cases hk : k = l
    · subst hk
      refine .inr ⟨h, a, b, hl, t.get?_set_self _ ?_⟩
      rintro rfl
      simp at hl
    · exact .inl (t.get?_set_of_ne _ hk)
  workDir := rfl

theorem eq_of_not_hidden (a : AgreeBut hidden t u) (h : ¬ hidden k) : u.get? k = t.get? k :=
  (a.entry k).resolve_right fun hk => h hk.1

/-- What is no file is the same in both trees. -/
theorem get?_eq_iff (a : AgreeBut hidden t u) {e : Option Entry} (he : ∀ b, e ≠ some (.file b)) :
    u.get? k = e ↔ t.get? k = e := by
  rcases a.entry k with hk | ⟨-, b, c, ht, hu⟩
  · rw [hk]
  · rw [ht, hu]
    exact ⟨fun h => absurd h.symm (he c), fun h => absurd h.symm (he b)⟩

theorem dir_iff (a : AgreeBut hidden t u) : u.get? k = some .dir ↔ t.get? k = some .dir :=
  a.get?_eq_iff fun _ => by simp

theorem notDir_iff (a : AgreeBut hidden t u) :
    u.get? k ≠ some .dir ↔ t.get? k ≠ some .dir :=
  not_congr a.dir_iff

theorem none_iff (a : AgreeBut hidden t u) : u.get? k = none ↔ t.get? k = none :=
  a.get?_eq_iff fun _ => by simp

theorem link_iff (a : AgreeBut hidden t u) {target : Text} :
    u.get? k = some (.link target) ↔ t.get? k = some (.link target) :=
  a.get?_eq_iff fun _ => by simp

theorem isSome_eq (a : AgreeBut hidden t u) : (u.get? k).isSome = (t.get? k).isSome := by
  rw [Bool.eq_iff_iff, Option.isSome_iff_ne_none, Option.isSome_iff_ne_none, Ne, a.none_iff]

/-! ### Following paths -/

theorem walk_eq (a : AgreeBut hidden t u) (last : LastName) (links : Nat) (here : Location)
    (steps : List Step) : walk u last links here steps = walk t last links here steps := by
  fun_induction walk t last links here steps with
  | case1 => rw [walk]
  | case2 links here step rest hd =>
    rw [← a.notDir_iff] at hd
    cases step <;> rw [walk, if_pos hd]
  | case3 links here rest hd ih =>
    rw [← a.notDir_iff] at hd
    rw [walk, if_neg hd, ih]
  | case4 links here rest hd ih =>
    rw [← a.notDir_iff] at hd
    rw [walk, if_neg hd, ih]
  | case5 links here rest hd name hn =>
    rw [← a.notDir_iff] at hd
    rw [walk, if_neg hd, if_pos hn]
  | case6 links here rest hd name hn hg hlast =>
    rw [← a.notDir_iff] at hd
    rw [← a.none_iff] at hg
    simp only [walk, if_neg hd, if_neg hn, hg, if_pos hlast]
  | case7 links here rest hd name hn hg hlast =>
    rw [← a.notDir_iff] at hd
    rw [← a.none_iff] at hg
    simp only [walk, if_neg hd, if_neg hn, hg, if_neg hlast]
  | case8 links here rest hd name hn target hg hlast =>
    rw [← a.notDir_iff] at hd
    rw [← a.link_iff] at hg
    simp only [walk, if_neg hd, if_neg hn, hg, if_pos hlast]
  | case9 here rest hd name hn target hg hlast =>
    rw [← a.notDir_iff] at hd
    rw [← a.link_iff] at hg
    simp only [walk, if_neg hd, if_neg hn, hg, if_neg hlast]
  | case10 here rest hd name hn target hg hlast links ih =>
    rw [← a.notDir_iff] at hd
    rw [← a.link_iff] at hg
    rw [walk]
    simp only [if_neg hd, if_neg hn, hg, if_neg hlast]
    exact ih
  | case11 links here rest hd name hn e hlink hg ih =>
    rw [← a.notDir_iff] at hd
    rw [walk]
    simp only [if_neg hd, if_neg hn]
    -- the entry is no link in the other tree either
    rcases a.entry (here ++ [name]) with hk | ⟨-, b, c, ht, hu⟩
    · rw [hk, hg]
      cases e with
      | link target => exact absurd rfl (hlink target)
      | dir => exact ih
      | file bytes => exact ih
    · rw [hu]
      exact ih

theorem origin_eq (a : AgreeBut hidden t u) (p : Path) : u.origin p = t.origin p := by
  rw [origin, origin, a.workDir]

theorem resolve_eq (a : AgreeBut hidden t u) (last : LastName) (p : Path) :
    u.resolve last p = t.resolve last p := by
  simp only [resolve, a.origin_eq, a.walk_eq]

theorem canonical?_eq (a : AgreeBut hidden t u) (p : Path) : u.canonical? p = t.canonical? p := by
  simp only [canonical?, a.origin_eq, a.walk_eq]

theorem normalize_eq (a : AgreeBut hidden t u) (p : Path) : u.normalize p = t.normalize p := by
  rw [normalize, normalize, a.canonical?_eq]

theorem pathExists_eq (a : AgreeBut hidden t u) (p : Path) : u.pathExists p = t.pathExists p := by
  simp only [pathExists, status?, a.resolve_eq]
  cases t.resolve .follow p with
  | error fault => rfl
  | ok l => exact a.isSome_eq

theorem isDir_eq (a : AgreeBut hidden t u) (p : Path) : u.isDir p = t.isDir p := by
  simp only [isDir, status?, a.resolve_eq]
  cases t.resolve .follow p with
  | error fault => rfl
  | ok l => rw [Bool.eq_iff_iff, beq_iff_eq, beq_iff_eq, a.dir_iff]

/-! ### Changing trees -/

theorem set (a : AgreeBut hidden t u) (l : Location) (e : Entry) :
    AgreeBut hidden (t.set l e) (u.set l e) where
  entry k := by
    by_cases hk : k = l
    · subst hk
      by_cases hroot : k = []
      · subst hroot
        simp
      · rw [get?_set_self _ _ hroot, get?_set_self _ _ hroot]
        exact .inl rfl
    · rw [get?_set_of_ne _ _ hk, get?_set_of_ne _ _ hk]
      exact a.entry k
  workDir := a.workDir

theorem parentLocation_eq (a : AgreeBut hidden t u) (p : Path) :
    u.parentLocation p = t.parentLocation p := by
  simp only [parentLocation, a.origin_eq, a.walk_eq, a.dir_iff]

theorem place_eq (a : AgreeBut hidden t u) (unnamed : Fault) (p : Path) :
    u.place unnamed p = t.place unnamed p := by
  simp only [place, a.parentLocation_eq]

theorem checkDir_eq (a : AgreeBut hidden t u) (p : Path) : u.checkDir p = t.checkDir p := by
  simp only [checkDir, a.resolve_eq, a.dir_iff]

theorem makeDir_of_ok (a : AgreeBut hidden t u) (h : t.makeDir p = .ok t') :
    ∃ u', u.makeDir p = .ok u' ∧ AgreeBut hidden t' u' := by
  obtain ⟨l, hl, hnone, rfl⟩ := makeDir_eq_ok_iff.1 h
  refine ⟨u.set l .dir, makeDir_eq_ok_iff.2 ⟨l, ?_, a.none_iff.2 hnone, rfl⟩, a.set l .dir⟩
  rw [a.place_eq, hl]

theorem makeDir_of_error (a : AgreeBut hidden t u) {fault : Fault}
    (h : t.makeDir p = .error fault) : u.makeDir p = .error fault := by
  rw [makeDir] at h ⊢
  rw [a.place_eq]
  cases hl : t.place .alreadyExists p with
  | error f =>
    rw [hl] at h
    exact h
  | ok l =>
    simp only [hl, bind, Except.bind, a.isSome_eq] at h ⊢
    split at h
    · next hsome => rwa [if_pos hsome]
    · cases h

theorem makeDirs_of_missing (hp : p.text ≠ []) (h : t.makeDir p = .error .notFound) :
    t.makeDirs p =
      match p.parent? with
      | none => (t, .error .notFound)
      | some parent =>
        match t.makeDirs parent with
        | (made, .error fault) => (made, .error fault)
        | (made, .ok ()) =>
          match made.makeDir p with
          | .ok final => (final, .ok ())
          | .error fault => (made, if made.isDir p then .ok () else .error fault) := by
  rw [FileTree.makeDirs, if_neg hp, h]
  simp only
  split
  · next hparent => rw [hparent]
  · next parent hparent =>
    rcases hmade : t.makeDirs parent with ⟨made, fault | _⟩
    · simp only [hparent, hmade]
    · cases hfinal : made.makeDir p <;> simp only [hparent, hmade, hfinal]

/-- Two results of changing a tree: the same outcome, and trees that agree. -/
def Same {ε : Type} (hidden : Location → Prop) (r s : FileTree × Except ε Unit) : Prop :=
  AgreeBut hidden r.1 s.1 ∧ s.2 = r.2

theorem Same.exists_of_eq {ε : Type} {made : FileTree} {r : Except ε Unit}
    {w w' : FileTree × Except ε Unit} (h : Same hidden w w') (hw : w = (made, r)) :
    ∃ made', w' = (made', r) ∧ AgreeBut hidden made made' := by
  subst hw
  exact ⟨w'.1, Prod.ext rfl h.2, h.1⟩

theorem Same.of_eq {ε : Type} {r : Except ε Unit} (a : AgreeBut hidden t u) :
    Same hidden (t, r) (u, r) :=
  ⟨a, rfl⟩

theorem makeDirs (a : AgreeBut hidden t u) (p : Path) :
    Same hidden (t.makeDirs p) (u.makeDirs p) := by
  fun_induction FileTree.makeDirs t p with
  | case1 p hp =>
    rw [FileTree.makeDirs, if_pos hp]
    exact .of_eq a
  | case2 p hp made hmade =>
    obtain ⟨made', hmade', a'⟩ := a.makeDir_of_ok hmade
    rw [FileTree.makeDirs, if_neg hp, hmade']
    exact .of_eq a'
  | case3 p hp hnone hparent =>
    rw [makeDirs_of_missing hp (a.makeDir_of_error hnone), hparent]
    exact .of_eq a
  | case4 p hp hnone parent hparent made fault hmade ih =>
    obtain ⟨made', hmade', a'⟩ := ih.exists_of_eq hmade
    rw [makeDirs_of_missing hp (a.makeDir_of_error hnone), hparent]
    simp only [hmade']
    exact .of_eq a'
  | case5 p hp hnone parent hparent made hmade final hfinal ih =>
    obtain ⟨made', hmade', a'⟩ := ih.exists_of_eq hmade
    obtain ⟨final', hfinal', b⟩ := a'.makeDir_of_ok hfinal
    rw [makeDirs_of_missing hp (a.makeDir_of_error hnone), hparent]
    simp only [hmade', hfinal']
    exact .of_eq b
  | case6 p hp hnone parent hparent made hmade fault hfinal ih =>
    obtain ⟨made', hmade', a'⟩ := ih.exists_of_eq hmade
    rw [makeDirs_of_missing hp (a.makeDir_of_error hnone), hparent]
    simp only [hmade', a'.makeDir_of_error hfinal, a'.isDir_eq]
    exact .of_eq a'
  | case7 p hp fault hne hfault =>
    rw [FileTree.makeDirs, if_neg hp, a.makeDir_of_error hfault]
    simp only [a.isDir_eq]
    exact .of_eq a

theorem ensureDir (a : AgreeBut hidden t u) (p : Path) :
    Same hidden (t.ensureDir p) (u.ensureDir p) := by
  rw [FileTree.ensureDir, FileTree.ensureDir, a.pathExists_eq]
  split
  · exact .of_eq a
  · split
    · next made hmade =>
      obtain ⟨made', hmade', b⟩ := (a.makeDirs p).exists_of_eq hmade
      rw [hmade']
      exact .of_eq b
    · next made fault hmade =>
      obtain ⟨made', hmade', b⟩ := (a.makeDirs p).exists_of_eq hmade
      rw [hmade']
      exact .of_eq b

theorem replaceFile_of_ok (a : AgreeBut hidden t u) {bytes : ByteArray}
    (h : t.replaceFile p bytes = .ok t') :
    ∃ u', u.replaceFile p bytes = .ok u' ∧ AgreeBut hidden t' u' := by
  obtain ⟨l, hl, hslash, hdir, rfl⟩ := replaceFile_eq_ok_iff.1 h
  rw [← a.place_eq] at hl
  rw [← a.notDir_iff] at hdir
  exact ⟨_, replaceFile_eq_ok_iff.2 ⟨l, hl, hslash, hdir, rfl⟩, a.set l _⟩

theorem replaceFile_of_error (a : AgreeBut hidden t u) {bytes : ByteArray} {fault : Fault}
    (h : t.replaceFile p bytes = .error fault) : u.replaceFile p bytes = .error fault := by
  rw [replaceFile] at h ⊢
  rw [a.place_eq]
  cases hl : t.place .busy p with
  | error f =>
    rw [hl] at h
    exact h
  | ok l =>
    simp only [hl, bind, Except.bind, a.dir_iff] at h ⊢
    split at h
    · next hslash => rwa [if_pos hslash]
    · next hslash =>
      rw [if_neg hslash]
      split at h
      · next hdir => rwa [if_pos hdir]
      · cases h

/-- Writing the same text has the same outcome in two trees that agree, and leaves two that do. -/
theorem writeAtomic (a : AgreeBut hidden t u) (p : Path) (text : Text) :
    Same hidden (t.writeAtomic p text) (u.writeAtomic p text) := by
  rw [FileTree.writeAtomic, FileTree.writeAtomic]
  split
  · next made e hmade =>
    obtain ⟨made', hmade', b⟩ := (a.ensureDir (writeDir p)).exists_of_eq hmade
    rw [hmade']
    exact .of_eq b
  · next made hmade =>
    obtain ⟨made', hmade', b⟩ := (a.ensureDir (writeDir p)).exists_of_eq hmade
    simp only [hmade', b.checkDir_eq]
    split
    · exact .of_eq b
    · split
      · next written hwritten =>
        obtain ⟨written', hwritten', c⟩ := b.replaceFile_of_ok hwritten
        rw [hwritten']
        exact .of_eq c
      · next fault hfault =>
        rw [b.replaceFile_of_error hfault]
        exact .of_eq b

/-- After the write the trees differ only in hidden files that it left as they were. -/
theorem writeAtomic_entry (a : AgreeBut hidden t u) (p : Path) (text : Text) (k : Location) :
    (u.writeAtomic p text).1.get? k = (t.writeAtomic p text).1.get? k ∨
      hidden k ∧ (t.writeAtomic p text).1.get? k = t.get? k ∧
        (u.writeAtomic p text).1.get? k = u.get? k := by
  have hsame := a.writeAtomic p text
  have hwt := writes_writeAtomic t p text
  have hwu := writes_writeAtomic u p text
  generalize t.writeAtomic p text = w at hsame hwt
  generalize u.writeAtomic p text = w' at hsame hwu
  obtain ⟨hagree, hresult⟩ := hsame
  rcases hagree.entry k with hk | ⟨hk, b, c, ht, hu⟩
  · exact .inl hk
  · cases hwt with
    | failed grows =>
      cases hwu with
      | failed grows' =>
        exact .inr ⟨hk, by rw [ht, grows.get?_of_file ht], by rw [hu, grows'.get?_of_file hu]⟩
      | written => cases hresult
    | @written made l dir _ place _ _ =>
      cases hwu with
      | failed => cases hresult
      | @written made' l' dir' _ place' _ _ =>
        obtain ⟨_, hmade, b⟩ := (a.ensureDir (writeDir p)).exists_of_eq dir
        obtain rfl := (Prod.mk.inj (dir'.symm.trans hmade)).1
        obtain rfl : l' = l := Except.ok.inj (place'.symm.trans ((b.place_eq _ p).trans place))
        have hne : l' ≠ [] := by
          obtain ⟨_, _, -, -, -, -, rfl⟩ := place_eq_ok_iff.1 place
          simp
        by_cases hkl : k = l'
        · subst hkl
          exact .inl ((get?_set_self _ _ hne).trans (get?_set_self _ _ hne).symm)
        · simp only [get?_set_of_ne _ _ hkl] at ht hu ⊢
          have hgrows : t.Grows made := .of_ensureDir dir
          have hgrows' : u.Grows made' := .of_ensureDir dir'
          exact .inr ⟨hk, by rw [ht, hgrows.get?_of_file ht], by rw [hu, hgrows'.get?_of_file hu]⟩

end AgreeBut

end FlatSol.FileTree
