import FlatSol.Proofs.FileTree.Leads

/-!
# Trees that only gain directories

Making a directory with all that is missing on the way to it changes a tree by new directories alone,
so every path that denoted something denotes the same thing afterwards. If a path leaves no missing
directory by `..`, what was made for it is either nothing or the directory that it leads to then.
-/

namespace FlatSol.FileTree

variable {t u v : FileTree} {p : Path} {ms : List Step} {l k : Location} {e : Entry}

/-- A way stays where all entries do. -/
theorem Way.mono (kept : ∀ k e, t.get? k = some e → u.get? k = some e) {n m : Nat} {here : Location}
    {steps : List Step} (w : Way t n here steps m l) : Way u n here steps m l := by
  induction w with
  | done => exact .done
  | stay dir _ ih => exact .stay (kept _ _ dir) ih
  | up dir _ ih => exact .up (kept _ _ dir) ih
  | link dir short points _ ih => exact .link (kept _ _ dir) short (kept _ _ points) ih
  | into dir short found noLink _ ih =>
    exact .into (kept _ _ dir) short (kept _ _ found) noLink ih

/-- The second tree is the first one but for directories that stand where nothing stood. -/
structure Grows (t u : FileTree) : Prop where
  entry : ∀ k, u.get? k = t.get? k ∨ t.get? k = none ∧ u.get? k = some .dir
  workDir : u.workDir = t.workDir

namespace Grows

theorem refl (t : FileTree) : t.Grows t :=
  ⟨fun _ => .inl rfl, rfl⟩

theorem kept (g : t.Grows u) (h : t.get? k = some e) : u.get? k = some e := by
  rcases g.entry k with hk | ⟨hk, -⟩
  · rw [hk, h]
  · rw [hk] at h
    cases h

theorem none_of_none (g : t.Grows u) (h : u.get? k = none) : t.get? k = none := by
  rcases g.entry k with hk | ⟨hk, -⟩
  · rw [← hk, h]
  · exact hk

theorem get?_of_none (g : t.Grows u) (h : t.get? k = none) (hu : u.get? k = some e) : e = .dir := by
  rcases g.entry k with hk | ⟨-, hk⟩
  · rw [hk, h] at hu
    cases hu
  · rw [hk] at hu
    exact (Option.some.inj hu).symm

theorem get?_of_file (g : t.Grows u) {bytes : ByteArray} (h : u.get? k = some (.file bytes)) :
    t.get? k = some (.file bytes) := by
  rcases g.entry k with hk | ⟨-, hk⟩
  · rw [← hk, h]
  · rw [hk] at h
    cases h

theorem trans (g : t.Grows u) (g' : u.Grows v) : t.Grows v where
  entry k := by
    rcases g'.entry k with hk | ⟨hk, hv⟩
    · rw [hk]
      exact g.entry k
    · exact .inr ⟨g.none_of_none hk, hv⟩
  workDir := by rw [g'.workDir, g.workDir]

/-! ### Making directories -/

theorem set (h : t.get? l = none) : t.Grows (t.set l .dir) where
  entry k := by
    by_cases hk : k = l
    · subst hk
      refine .inr ⟨h, t.get?_set_self .dir ?_⟩
      rintro rfl
      simp at h
    · exact .inl (t.get?_set_of_ne .dir hk)
  workDir := rfl

theorem makeDir (h : t.makeDir p = .ok u) : t.Grows u := by
  obtain ⟨l, -, hnone, rfl⟩ := makeDir_eq_ok_iff.1 h
  exact .set hnone

theorem of_makeDirs {r : Except Fault Unit} (h : t.makeDirs p = (u, r)) : t.Grows u := by
  have hmade := makeDirs_induction (fun hv hw => hv.trans (.makeDir hw)) p (refl t)
  rwa [h] at hmade

theorem of_ensureDir {r : Except IoError Unit} (h : t.ensureDir p = (u, r)) : t.Grows u := by
  have hmade := ensureDir_induction (fun hv hw => hv.trans (.makeDir hw)) p (refl t)
  rwa [h] at hmade

/-! ### Ways stay -/

theorem way (g : t.Grows u) {n m : Nat} {here : Location} {steps : List Step}
    (w : Way t n here steps m l) : Way u n here steps m l :=
  w.mono fun _ _ => g.kept

theorem origin (g : t.Grows u) (p : Path) : u.origin p = t.origin p := by
  rw [FileTree.origin, FileTree.origin, g.workDir]

theorem leads (g : t.Grows u) (h : t.Leads p ms l) : u.Leads p ms l := by
  obtain ⟨start, m, ho, w, hd⟩ := h
  exact ⟨start, m, by rw [g.origin p, ho], g.way w, g.kept hd⟩

end Grows

/-! ### Where new directories stand -/

theorem WellFormed.none_append (hw : t.WellFormed) (h : t.get? k = none) (n : Text) :
    t.get? (k ++ [n]) = none := by
  by_contra hne
  obtain ⟨e, he⟩ := Option.ne_none_iff_exists'.1 hne
  rw [hw.dir_of_append he] at h
  cases h

theorem leads_set_of_place {fault : Fault} (hl : t.place fault p = .ok l) (hnone : t.get? l = none) :
    (t.set l .dir).Leads p (moves p.steps) l := by
  obtain ⟨k, name, hk, hname, hn, hsize, rfl⟩ := place_eq_ok_iff.1 hl
  have hlead := (parentLocation_eq_ok_iff.1 hk).2
  rw [moves_of_splitLast hname hn]
  exact ((Grows.set hnone).leads hlead).into hsize (t.get?_set_self .dir (by simp))

theorem leads_of_makeDir (h : t.makeDir p = .ok u) :
    ∃ k, u.Leads p (moves p.steps) k ∧ t.get? k = none := by
  obtain ⟨l, hl, hnone, rfl⟩ := makeDir_eq_ok_iff.1 h
  exact ⟨l, leads_set_of_place hl hnone, hnone⟩

/-- Every `..` of the path leaves a directory that exists. -/
def ClimbsWithin (t : FileTree) (p : Path) : Prop :=
  ∀ front rest, moves p.steps = front ++ .up :: rest → ∃ l, t.Leads p front l

theorem ClimbsWithin.parent {q : Path} (h : t.ClimbsWithin p) (hq : p.parent? = some q) :
    t.ClimbsWithin q := by
  obtain ⟨hm, ha⟩ := Path.moves_parent? hq
  intro front rest hs
  have hne : moves p.steps ≠ [] := by
    intro hnil
    simp [hnil, hs] at hm
  have hlast := List.dropLast_concat_getLast hne
  rw [← hm, hs, List.append_assoc, List.cons_append] at hlast
  obtain ⟨l, hl⟩ := h front _ hlast.symm
  exact ⟨l, hl.congr ha⟩

/-- What a path leads to is new if the directory before its last move is. -/
theorem WellFormed.none_of_leads (hw : t.WellFormed) (hg : t.Grows u) (hc : t.ClimbsWithin p)
    (hk : u.Leads p (moves p.steps).dropLast k) (hkn : t.get? k = none)
    (hl : u.Leads p (moves p.steps) l) : t.get? l = none := by
  by_cases hnil : moves p.steps = []
  · -- no move is made, so the new directory would be the one that the path starts in
    obtain ⟨start, m, ho, w, -⟩ := hk
    rw [hnil] at w
    cases w
    rw [hg.origin p] at ho
    rw [hw.dir_of_origin ho] at hkn
    cases hkn
  · have hlast := List.dropLast_concat_getLast hnil
    have hmem := List.getLast_mem hnil
    generalize (moves p.steps).getLast hnil = s at hlast hmem
    rw [← hlast] at hl
    obtain ⟨k', j, m, hk', w⟩ := hl.split (List.cons_ne_nil s [])
    obtain rfl : k' = k := hk'.unique hk
    cases w with
    | stay => exact absurd rfl (ne_stay_of_mem_moves hmem)
    | up =>
      obtain ⟨i, hi⟩ := hc _ [] hlast.symm
      obtain rfl : i = k' := (hg.leads hi).unique hk'
      rw [hi.dir] at hkn
      cases hkn
    | @link _ _ _ _ _ name target _ _ points =>
      cases hg.get?_of_none (hw.none_append hkn name) points
    | @into _ _ _ _ _ name _ _ _ _ _ way =>
      cases way
      exact hw.none_append hkn name

/-- If every `..` leaves a directory that exists, making a directory either changes nothing or makes
the directory that the path leads to then. -/
theorem leads_of_makeDirs (hw : t.WellFormed) (hc : t.ClimbsWithin p)
    (h : t.makeDirs p = (u, .ok ())) :
    u = t ∨ ∃ k, u.Leads p (moves p.steps) k ∧ t.get? k = none := by
  fun_induction FileTree.makeDirs t p generalizing u with
  | case1 => exact .inl (Prod.mk.inj h).1.symm
  | case2 p hp made hmade =>
    obtain rfl := (Prod.mk.inj h).1
    exact .inr (leads_of_makeDir hmade)
  | case3 => simp at h
  | case4 => simp at h
  | case5 p hp hnone parent hparent made hmade final hfinal ih =>
    obtain rfl := (Prod.mk.inj h).1
    obtain ⟨k, hk, hkn⟩ := leads_of_makeDir hfinal
    have hg : t.Grows made := .of_makeDirs hmade
    exact .inr ⟨k, hk, hg.none_of_none hkn⟩
  | case6 p hp hnone parent hparent made hmade fault hfinal ih =>
    obtain ⟨rfl, hdir⟩ := Prod.mk.inj h
    have hg : t.Grows made := .of_makeDirs hmade
    rcases ih (hc.parent hparent) hmade with rfl | ⟨k, hk, hkn⟩
    · exact .inl rfl
    · obtain ⟨hm, ha⟩ := Path.moves_parent? hparent
      have hpdir : made.isDir p = true := by
        by_contra hno
        simp [hno] at hdir
      obtain ⟨l, hl⟩ := exists_leads_of_isDir hpdir
      have hk' : made.Leads p (moves p.steps).dropLast k := hm ▸ hk.congr ha.symm
      exact .inr ⟨l, hl, hw.none_of_leads hg hc hk' hkn hl⟩
  | case7 => exact .inl (Prod.mk.inj h).1.symm

end FlatSol.FileTree
