import FlatSol.Proofs.FileTree.Footprint
import FlatSol.Proofs.FileTree.Writing

/-!
# What a write leaves behind

A successful write sets one file, at the place that its path gives once its directories are made. All
else is as it was, but for directories on the way to that place. The path can be read back unless the
file took the place of a link that its own directory is reached through.
-/

namespace FlatSol

/-- A path is an ancestor of itself and of every path whose parent it is an ancestor of. -/
inductive Path.IsAncestor (q : Path) : Path → Prop
  | self : IsAncestor q q
  | up {p r : Path} (parent : p.parent? = some r) (above : IsAncestor q r) : IsAncestor q p

theorem Path.IsAncestor.parent {p q r : Path} (h : q.IsAncestor p) (hr : q.parent? = some r) :
    r.IsAncestor p := by
  induction h with
  | self => exact .up hr .self
  | up parent _ ih => exact .up parent ih

namespace FileTree

variable {t u made left : FileTree} {p : Path} {text : Text} {k l : Location}

/-! ### New directories -/

theorem canonical_of_leads (h : t.Leads p (moves p.steps) l) (hc : checkPath p = .ok ()) :
    t.canonical? p = some l := by
  obtain ⟨start, m, ho, w⟩ := h.walk_eq
  exact canonical_of_way hc ho w

theorem Grows.canonical (g : t.Grows u) (h : t.canonical? p = some l) : u.canonical? p = some l := by
  obtain ⟨hnul, hne, start, m, ho, w⟩ := canonical?_eq_some_iff.1 h
  exact canonical?_eq_some_iff.2 ⟨hnul, hne, start, m, by rw [g.origin p, ho], g.way w⟩

/-- A new directory is what the path that it is made for denotes. -/
theorem canonical_of_makeDir (h : t.makeDir p = .ok u) :
    ∃ l, u.canonical? p = some l ∧ ∀ k, k ≠ l → u.get? k = t.get? k := by
  obtain ⟨l, hl, hnone, rfl⟩ := makeDir_eq_ok_iff.1 h
  obtain ⟨_, _, hk, -, -, -, -⟩ := place_eq_ok_iff.1 hl
  have hc := (parentLocation_eq_ok_iff.1 hk).1
  exact ⟨l, canonical_of_leads (leads_set_of_place hl hnone) hc, fun k hk => t.get?_set_of_ne _ hk⟩

/-- Every directory that is made for a path is what an ancestor of the path denotes then. -/
theorem entry_makeDirs (t : FileTree) (p : Path) (k : Location) :
    (t.makeDirs p).1.get? k = t.get? k ∨
      ∃ q : Path, q.IsAncestor p ∧ (t.makeDirs p).1.canonical? q = some k := by
  fun_induction FileTree.makeDirs t p with
  | case1 => exact .inl rfl
  | case2 p hp made hmade =>
    obtain ⟨l, hl, hother⟩ := canonical_of_makeDir hmade
    by_cases hkl : k = l
    · exact .inr ⟨p, .self, hkl ▸ hl⟩
    · exact .inl (hother k hkl)
  | case3 => exact .inl rfl
  | case4 p hp hnone parent hparent made fault hmade ih =>
    rw [hmade] at ih
    rcases ih with hkept | ⟨q, hq, hk⟩
    · exact .inl hkept
    · exact .inr ⟨q, .up hparent hq, hk⟩
  | case5 p hp hnone parent hparent made hmade final hfinal ih =>
    rw [hmade] at ih
    obtain ⟨l, hl, hother⟩ := canonical_of_makeDir hfinal
    by_cases hkl : k = l
    · exact .inr ⟨p, .self, hkl ▸ hl⟩
    · rw [hother k hkl]
      rcases ih with hkept | ⟨q, hq, hk⟩
      · exact .inl hkept
      · exact .inr ⟨q, .up hparent hq, (Grows.makeDir hfinal).canonical hk⟩
  | case6 p hp hnone parent hparent made hmade fault hfinal ih =>
    rw [hmade] at ih
    rcases ih with hkept | ⟨q, hq, hk⟩
    · exact .inl hkept
    · exact .inr ⟨q, .up hparent hq, hk⟩
  | case7 => exact .inl rfl

theorem entry_ensureDir {r : Except IoError Unit} (h : t.ensureDir p = (made, r)) (k : Location) :
    made.get? k = t.get? k ∨ ∃ q : Path, q.IsAncestor p ∧ made.canonical? q = some k := by
  have hentry := entry_makeDirs t p k
  unfold ensureDir at h
  split at h
  · rw [← (Prod.mk.inj h).1]
    exact .inl rfl
  · split at h
    · next u hu =>
      rw [hu] at hentry
      rwa [← (Prod.mk.inj h).1]
    · next u fault hu =>
      rw [hu] at hentry
      rwa [← (Prod.mk.inj h).1]

/-! ### Writes -/

/-- What a successful write has done, with `made` the tree that has the directories of the path. -/
structure Delivered (t made left : FileTree) (p : Path) (text : Text) (l : Location) : Prop where
  dirs : t.ensureDir (writeDir p) = (made, .ok ())
  place : made.place .busy p = .ok l
  file : left.get? l = some (.file (Text.toBytes text))
  /-- Nothing else is changed or new but directories, each denoted by a path above the file's. -/
  others : ∀ k, k ≠ l → left.get? k = t.get? k ∨
    t.get? k = none ∧ left.get? k = some .dir ∧
      ∃ q : Path, q.IsAncestor (writeDir p) ∧ made.canonical? q = some k
  /-- The path denotes the file unless its directory was found by way of the file's place. -/
  reads : l ∉ made.footprint (writeDir p) →
    left.canonical? p = some l ∧ left.readText p = .ok text
  lost : l ∈ made.footprint (writeDir p) → ∀ found, left.readText p ≠ .ok found

/-- The directory of a path is found as before if the way to it does not come past a new file. -/
theorem leads_set_of_notMem {bytes : ByteArray} (place : made.place .busy p = .ok l)
    (free : l ∉ made.footprint (writeDir p)) :
    ∃ k, (made.set l (.file bytes)).Leads p (frontMoves p) k := by
  obtain ⟨k, name, hk, hname, hn, -, rfl⟩ := place_eq_ok_iff.1 place
  obtain ⟨hmoves, ha⟩ := moves_writeDir hname hn
  have hlead : made.Leads (writeDir p) (moves (writeDir p).steps) k :=
    hmoves ▸ (parentLocation_eq_ok_iff.1 hk).2.congr ha
  obtain ⟨start, m, ho, w⟩ := hlead.walk_eq
  have hother : ∀ j ∈ made.footprint (writeDir p),
      (made.set (k ++ [name]) (.file bytes)).get? j = made.get? j :=
    fun j hj => made.get?_set_of_ne _ fun hjl => free (hjl ▸ hj)
  rw [footprint, ho] at hother
  have hwalk := (walk_congr hother).trans w.walk_eq
  have hdir : (made.set (k ++ [name]) (.file bytes)).get? k = some .dir := by
    rw [hother k w.mem_walkFootprint, hlead.dir]
  have hleft : (made.set (k ++ [name]) (.file bytes)).Leads (writeDir p)
      (moves (writeDir p).steps) k := leads_of_walk ho hwalk hdir
  exact ⟨k, hmoves ▸ hleft.congr ha.symm⟩

/-- A way to a directory does not come past the place of a file that is set. -/
theorem Way.notMem_of_set_file {n m : Nat} {here o : Location} {steps : List Step}
    {bytes : ByteArray} (ho : o ≠ []) (w : Way (t.set o (.file bytes)) n here steps m l)
    (hl : (t.set o (.file bytes)).get? l = some .dir) : o ∉ walkFootprint t n here steps := by
  induction w with
  | @done n l =>
    rw [walkFootprint, List.mem_singleton]
    exact (get?_of_set_file ho hl fun _ => by simp).1
  | stay dir _ ih =>
    obtain ⟨hhere, hdir⟩ := get?_of_set_file ho dir fun _ => by simp
    rw [walkFootprint]
    simp [hdir, hhere, ih hl]
  | up dir _ ih =>
    obtain ⟨hhere, hdir⟩ := get?_of_set_file ho dir fun _ => by simp
    rw [walkFootprint]
    simp [hdir, hhere, ih hl]
  | link dir short points _ ih =>
    obtain ⟨hhere, hdir⟩ := get?_of_set_file ho dir fun _ => by simp
    obtain ⟨hlink, hpoints⟩ := get?_of_set_file ho points fun _ => by simp
    rw [walkFootprint]
    simp [hdir, Nat.not_lt.2 short, hpoints, hhere, hlink, ih hl]
  | into dir short found noLink way ih =>
    obtain ⟨hhere, hdir⟩ := get?_of_set_file ho dir fun _ => by simp
    obtain ⟨-, hnext⟩ := get?_of_set_file ho (way.dir_start hl) fun _ => by simp
    rw [walkFootprint]
    simp [hdir, Nat.not_lt.2 short, hnext, hhere, ih hl]

/-- Nothing is found by a path whose directory was found by way of a new file's place. -/
theorem notMem_footprint_of_resolve {bytes : ByteArray} (place : made.place .busy p = .ok l)
    (noSlash : p.text.getLast? ≠ some '/')
    (h : (made.set l (.file bytes)).resolve .follow p = .ok k) :
    l ∉ made.footprint (writeDir p) := by
  obtain ⟨-, j, hj⟩ := eq_of_resolve_set place noSlash h
  obtain ⟨_, name, -, hname, hn, -, rfl⟩ := place_eq_ok_iff.1 place
  obtain ⟨hmoves, ha⟩ := moves_writeDir hname hn
  rw [← hmoves] at hj
  have hdir := hj.dir
  obtain ⟨start, m, ho, w⟩ := (hj.congr ha).walk_eq
  have ho' : made.origin (writeDir p) = .ok start := ho
  rw [footprint, ho']
  exact w.notMem_of_set_file (by simp) hdir

theorem delivered_of_writes (h : Writes t p text (left, .ok ())) :
    ∃ made l, Delivered t made left p text l := by
  cases h with
  | @written made l dirs _ place noSlash _ =>
    have hgrows : t.Grows made := .of_ensureDir dirs
    have hself : (made.set l (.file (Text.toBytes text))).get? l =
        some (.file (Text.toBytes text)) := by
      refine made.get?_set_self _ ?_
      obtain ⟨_, _, -, -, -, -, rfl⟩ := place_eq_ok_iff.1 place
      simp
    refine ⟨made, l, dirs, place, hself, fun k hk => ?_, fun hfree => ?_, fun hpast found hread => ?_⟩
    · rw [made.get?_set_of_ne _ hk]
      rcases hgrows.entry k with hkept | ⟨hnone, hdir⟩
      · exact .inl hkept
      · refine (entry_ensureDir dirs k).imp_right fun hq => ⟨hnone, hdir, hq⟩
    · obtain ⟨k, hk⟩ := leads_set_of_notMem place hfree
      obtain ⟨hresolve, hcanonical, -⟩ := denotes_of_leads place noSlash hk
      exact ⟨hcanonical, readText_of_file hresolve hself⟩
    · obtain ⟨_, hresolve, -⟩ := Except.exists_of_bind_eq_ok hread
      exact notMem_footprint_of_resolve place noSlash hresolve hpast

theorem delivered_of_writeAtomic (h : t.writeAtomic p text = (left, .ok ())) :
    ∃ made l, Delivered t made left p text l :=
  delivered_of_writes (h ▸ writes_writeAtomic t p text)

end FileTree

end FlatSol
