import FlatSol.Proofs.FileTree.Way

/-!
# Footprints

Following a path looks at some locations of the tree: the places that the walk comes to and the names
that it looks up. Two trees that agree there give the path the same meaning.
-/

namespace FlatSol.FileTree

/-- The locations that a walk looks at, its end included. -/
def walkFootprint (t : FileTree) (links : Nat) (here : Location) : List Step → List Location
  | [] => [here]
  | step :: rest =>
    if t.get? here ≠ some .dir then [here]
    else
      match step with
      | .stay => here :: walkFootprint t links here rest
      | .up => here :: walkFootprint t links here.dropLast rest
      | .into name =>
        if maxNameSize < Text.byteSize name then [here]
        else
          match t.get? (here ++ [name]) with
          | none => [here, here ++ [name]]
          | some (.link target) =>
            match links with
            | 0 => [here, here ++ [name]]
            | links + 1 =>
              here :: (here ++ [name]) ::
                walkFootprint t links (if Path.isAbsolute ⟨target⟩ then [] else here)
                  (Path.steps ⟨target⟩ ++ rest)
          | some _ => here :: walkFootprint t links (here ++ [name]) rest
termination_by steps => (links, steps.length)

/-- The locations that following a path looks at. -/
def footprint (t : FileTree) (p : Path) : List Location :=
  match t.origin p with
  | .ok start => walkFootprint t maxLinks start p.steps
  | .error _ => []

variable {t u : FileTree} {p : Path} {l : Location}

theorem mem_walkFootprint_self (t : FileTree) (links : Nat) (here : Location) (steps : List Step) :
    here ∈ walkFootprint t links here steps := by
  unfold walkFootprint
  repeat' split
  all_goals exact List.mem_cons_self

theorem walk_congr {links : Nat} {here : Location} {steps : List Step}
    (agree : ∀ k ∈ walkFootprint t links here steps, u.get? k = t.get? k) :
    walk u .follow links here steps = walk t .follow links here steps := by
  fun_induction walkFootprint t links here steps with
  | case1 => simp [walk]
  | case2 links here step rest hd =>
    cases step <;> simp only [walk, agree here List.mem_cons_self, if_pos hd]
  | case3 links here rest hd ih =>
    rw [walk, walk, agree here List.mem_cons_self, if_neg hd, if_neg hd]
    exact ih fun k hk => agree k (List.mem_cons_of_mem _ hk)
  | case4 links here rest hd ih =>
    rw [walk, walk, agree here List.mem_cons_self, if_neg hd, if_neg hd]
    exact ih fun k hk => agree k (List.mem_cons_of_mem _ hk)
  | case5 links here rest hd name hn =>
    simp only [walk, agree here List.mem_cons_self, if_neg hd, if_pos hn]
  | case6 links here rest hd name hn hg =>
    have hnext := agree (here ++ [name]) (by simp)
    simp only [walk, agree here List.mem_cons_self, if_neg hd, if_neg hn, hnext, hg]
  | case7 here rest hd name hn target hg =>
    have hnext := agree (here ++ [name]) (by simp)
    simp only [walk, agree here List.mem_cons_self, if_neg hd, if_neg hn, hnext, hg]
  | case8 here rest hd name hn target hg links ih =>
    have hnext := agree (here ++ [name]) (by simp)
    have hrest := ih fun k hk => agree k (List.mem_cons_of_mem _ (List.mem_cons_of_mem _ hk))
    rw [dite_eq_ite] at hrest
    rw [walk, walk]
    simp only [agree here List.mem_cons_self, if_neg hd, if_neg hn, hnext, hg, hrest]
  | case9 links here rest hd name hn e hlink hg ih =>
    have hnext := agree (here ++ [name])
      (List.mem_cons_of_mem _ (mem_walkFootprint_self t links (here ++ [name]) rest))
    have hrest := ih fun k hk => agree k (List.mem_cons_of_mem _ hk)
    rw [walk, walk]
    simp only [agree here List.mem_cons_self, if_neg hd, if_neg hn, hnext, hg]
    cases e with
    | link target => exact absurd rfl (hlink target)
    | dir => exact hrest
    | file bytes => exact hrest

theorem Way.mem_walkFootprint {n m : Nat} {here : Location} {steps : List Step}
    (w : Way t n here steps m l) : l ∈ walkFootprint t n here steps := by
  induction w with
  | done => exact mem_walkFootprint_self _ _ _ _
  | stay dir _ ih =>
    rw [walkFootprint]
    simp [dir, ih]
  | up dir _ ih =>
    rw [walkFootprint]
    simp [dir, ih]
  | link dir short points _ ih =>
    rw [walkFootprint]
    simp [dir, Nat.not_lt.2 short, points, ih]
  | @into n m here l rest name e dir short found noLink _ ih =>
    rw [walkFootprint]
    cases e with
    | link target => exact absurd rfl (noLink target)
    | dir => simp [dir, Nat.not_lt.2 short, found, ih]
    | file bytes => simp [dir, Nat.not_lt.2 short, found, ih]

/-! ### Paths -/

theorem normalize_of_canonical (h : t.canonical? p = some l) : t.normalize p = l.path := by
  rw [normalize, h]
  rfl

theorem WellFormed.canonical?_normalize (hw : t.WellFormed) (p : Path) :
    t.canonical? (t.normalize p) = t.canonical? p := by
  cases h : t.canonical? p with
  | none =>
    rw [normalize, h]
    exact h
  | some l =>
    rw [normalize_of_canonical h]
    exact hw.canonical_path_of_stands (hw.stands_of_canonical h)

theorem WellFormed.normalize_normalize (hw : t.WellFormed) (p : Path) :
    t.normalize (t.normalize p) = t.normalize p := by
  cases h : t.canonical? p with
  | none =>
    rw [normalize, hw.canonical?_normalize, h]
    rfl
  | some l =>
    rw [normalize_of_canonical h]
    exact normalize_of_canonical (hw.canonical_path_of_stands (hw.stands_of_canonical h))

end FlatSol.FileTree
