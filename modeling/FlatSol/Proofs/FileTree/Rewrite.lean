import FlatSol.Proofs.FileTree.Hidden

/-!
# Rewriting a file

A path that leads to a regular file, not by way of a link in its last name, gives that file's own
place. Main statement: writing to such a path in one step always succeeds, and changes that file
alone.
-/

namespace FlatSol

open Text

/-! ### The parent's text -/

theorem Path.startsWith_parent? {p q : Path} (h : p.parent? = some q) : q.text <+: p.text := by
  have hp : p.text = joinWith ['/'] p.pieces := (joinWith_pieces '/' p.text).symm
  obtain ⟨front, rest, hps, ⟨-, -, -, rfl⟩ | ⟨-, -, rfl⟩ | ⟨-, -, rfl⟩⟩ := parent?_cases h
  · exact List.nil_prefix
  · split
    · next ha => exact List.isPrefixOf_iff_prefix.1 ha
    · have hfront : [front] <+: front :: rest := (List.prefix_cons_inj front).2 List.nil_prefix
      rw [hp, hps]
      exact joinWith_prefix hfront
  · have hdrop : dropIdle (dropIdle rest).dropLast <+: rest :=
      (startsWith_dropIdle _).trans ((List.dropLast_prefix _).trans (startsWith_dropIdle rest))
    rw [hp, hps]
    exact joinWith_prefix ((List.prefix_cons_inj front).2 hdrop)

namespace FileTree

variable {t : FileTree} {p : Path} {l : Location} {bytes : ByteArray}

theorem checkPath_eq_ok_iff :
    checkPath p = .ok () ↔ '\x00' ∉ p.text ∧ p.text ≠ [] ∧ byteSize p.text ≤ maxPathSize := by
  unfold checkPath
  split
  · next h => simp [h]
  · next h =>
    split
    · next h' => simp [h']
    · next h' =>
      split
      · next h'' => simp [Nat.not_le.2 h'']
      · next h'' => simp [h, h', Nat.le_of_not_lt h'']

theorem checkPath_writeDir (h : checkPath p = .ok ()) : checkPath (writeDir p) = .ok () := by
  have hdot : checkPath ⟨['.']⟩ = .ok () := rfl
  unfold writeDir
  cases hq : p.parent? with
  | none => exact hdot
  | some q =>
    obtain ⟨r, hr⟩ := Path.startsWith_parent? hq
    obtain ⟨hnul, -, hsize⟩ := checkPath_eq_ok_iff.1 h
    rw [← hr] at hnul hsize
    rw [byteSize_append] at hsize
    by_cases hempty : q.text.isEmpty = true
    · simp only [hempty, if_true]
      exact hdot
    · simp only [hempty, Bool.false_eq_true, if_false]
      refine checkPath_eq_ok_iff.2 ⟨fun hm => hnul (List.mem_append_left r hm), ?_, by omega⟩
      simpa using hempty

/-! ### The place of a file -/

theorem ne_nil_of_walk {n : Nat} {here : Location} {rest : List Step}
    (hd : t.get? here = some .dir) (h : walk t .keep n here rest = .ok l)
    (hl : t.get? l = some (.file bytes)) : rest ≠ [] := by
  rintro rfl
  rw [walk] at h
  obtain rfl := Except.ok.inj h
  rw [hd] at hl
  cases hl

/-- A walk that ends in a file has come into it by its name. -/
theorem exists_way_of_walk_keep (hw : t.WellFormed) {n : Nat} {here : Location} {steps : List Step}
    (h : walk t .keep n here steps = .ok l) (hl : t.get? l = some (.file bytes))
    (hne : steps ≠ []) :
    ∃ front name m k, steps = front ++ [.into name] ∧ Way t n here front m k ∧
      t.get? k = some .dir ∧ byteSize name ≤ maxNameSize ∧ l = k ++ [name] := by
  fun_induction walk t .keep n here steps with
  | case1 => exact absurd rfl hne
  | case2 => cases h
  | case3 n here rest hd ih =>
    have hdir : t.get? here = some .dir := by simpa using hd
    obtain ⟨front, name, m, k, rfl, w, hk⟩ := ih h (ne_nil_of_walk hdir h hl)
    exact ⟨.stay :: front, name, m, k, rfl, .stay hdir w, hk⟩
  | case4 n here rest hd ih =>
    have hdir : t.get? here = some .dir := by simpa using hd
    have hparent := hw.dir_dropLast hdir
    obtain ⟨front, name, m, k, rfl, w, hk⟩ := ih h (ne_nil_of_walk hparent h hl)
    exact ⟨.up :: front, name, m, k, rfl, .up hdir w, hk⟩
  | case5 => cases h
  | case6 => simp_all
  | case7 => cases h
  | case8 n here rest hd name hn target hg hlast =>
    obtain rfl := Except.ok.inj h
    rw [hg] at hl
    cases hl
  | case9 => cases h
  | case10 here rest hd name hn target hg hlast links ih =>
    have hdir : t.get? here = some .dir := by simpa using hd
    have hrest : rest ≠ [] := fun hnil => hlast ⟨rfl, hnil⟩
    obtain ⟨front, last, m, k, hsteps, w, hk⟩ := ih h (by simp [hrest])
    obtain ⟨front', s, rfl⟩ := (List.eq_nil_or_concat rest).resolve_left hrest
    rw [List.concat_eq_append, ← List.append_assoc] at hsteps
    obtain ⟨rfl, hs⟩ := List.append_inj' hsteps rfl
    obtain rfl := (List.cons.inj hs).1
    exact ⟨.into name :: front', last, m, k, by simp, .link hdir (Nat.not_lt.1 hn) hg w, hk⟩
  | case11 n here rest hd name hn e hlink hg ih =>
    have hdir : t.get? here = some .dir := by simpa using hd
    by_cases hrest : rest = []
    · subst hrest
      rw [walk] at h
      obtain rfl := Except.ok.inj h
      exact ⟨[], name, n, here, rfl, .done, hdir, Nat.not_lt.1 hn, rfl⟩
    · obtain ⟨front, last, m, k, rfl, w, hk⟩ := ih h hrest
      exact ⟨.into name :: front, last, m, k, rfl,
        .into hdir (Nat.not_lt.1 hn) hg (fun target he => hlink target he) w, hk⟩

/-- The place of a path that leads to a file by its own name is that file's. -/
theorem place_of_file (hw : t.WellFormed) (h : t.resolve .keep p = .ok l)
    (hl : t.get? l = some (.file bytes)) :
    t.place .busy p = .ok l ∧ p.text.getLast? ≠ some '/' := by
  obtain ⟨_, hcheck, h⟩ := Except.exists_of_bind_eq_ok h
  obtain ⟨start, ho, h⟩ := Except.exists_of_bind_eq_ok h
  have hne : p.steps ≠ [] := by simp [Path.steps, pieces_ne_nil, Path.pieces]
  obtain ⟨front, name, m, k, hsteps, w, hdir, hsize, rfl⟩ := exists_way_of_walk_keep hw h hl hne
  obtain ⟨hname, hn, hslash, rfl⟩ := splitLast_of_steps hsteps
  have hlead : t.Leads p (frontMoves p) k := leads_of_walk ho w.walk_eq hdir
  exact ⟨place_eq_ok_iff.2 ⟨k, name, parentLocation_eq_ok_iff.2 ⟨hcheck, hlead⟩, hname, hn, hsize,
    rfl⟩, hslash⟩

/-- Writing to a file that stands there succeeds, and sets that file in the tree as it is, whatever
the contents of the files are. -/
theorem writeAtomic_of_file (hw : t.WellFormed) (h : t.resolve .keep p = .ok l)
    (hl : t.get? l = some (.file bytes)) {hidden : Location → Prop} {u : FileTree}
    (a : AgreeBut hidden t u) (text : Text) :
    u.writeAtomic p text = (u.set l (.file (Text.toBytes text)), .ok ()) := by
  obtain ⟨hplace, hslash⟩ := place_of_file hw h hl
  obtain ⟨k, name, hk, -, -, -, -⟩ := place_eq_ok_iff.1 hplace
  apply writeAtomic_of_place ((a.place_eq _ p).trans hplace) hslash
  · rw [a.notDir_iff, hl]
    simp
  · exact checkPath_writeDir (parentLocation_eq_ok_iff.1 hk).1

end FileTree

end FlatSol
