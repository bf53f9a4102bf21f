import FlatSol.Proofs.FileTree.Changes

/-!
# Ways through a file tree

A walk that ends is a way: each step goes on from a directory, and a way along two lists of steps is
a way along the first and one along the second, with the links that are left. The steps that stay
where they are can be put in or left out wherever a way ends in a directory, so the directory that a
path leads to depends on its other steps, its moves, alone.
-/

namespace FlatSol

/-- The steps that lead somewhere. -/
def moves (steps : List Step) : List Step :=
  steps.filter fun s => s != .stay

@[simp] theorem moves_nil : moves [] = [] := rfl

@[simp] theorem moves_cons_stay (steps : List Step) : moves (.stay :: steps) = moves steps := rfl

@[simp] theorem moves_cons_up (steps : List Step) : moves (.up :: steps) = .up :: moves steps := rfl

@[simp] theorem moves_cons_into (name : Text) (steps : List Step) :
    moves (.into name :: steps) = .into name :: moves steps := rfl

@[simp] theorem moves_append (xs ys : List Step) : moves (xs ++ ys) = moves xs ++ moves ys :=
  List.filter_append xs ys

theorem moves_moves (steps : List Step) : moves (moves steps) = moves steps :=
  List.filter_filter.trans (by simp [moves])

theorem ne_stay_of_mem_moves {steps : List Step} {s : Step} (h : s ∈ moves steps) : s ≠ .stay := by
  have hs := (List.mem_filter.1 h).2
  simpa using hs

/-- The steps of which a given one is the first move. -/
theorem exists_of_moves_eq_cons {steps ms : List Step} {s : Step} (h : moves steps = s :: ms) :
    ∃ j rest, steps = List.replicate j .stay ++ s :: rest ∧ moves rest = ms := by
  obtain ⟨idle, rest, rfl, hidle, -, hrest⟩ := List.filter_eq_cons_iff.1 h
  refine ⟨idle.length, rest, ?_, hrest⟩
  congr 1
  exact List.eq_replicate_of_mem fun x hx => by simpa using hidle x hx

theorem eq_replicate_of_moves_eq_nil {steps : List Step} (h : moves steps = []) :
    steps = List.replicate steps.length .stay := by
  refine List.eq_replicate_of_mem fun x hx => ?_
  have hx' := List.filter_eq_nil_iff.1 h x hx
  simpa using hx'

namespace FileTree

/-- The steps lead from one location to another, with so many links to follow before and after. -/
inductive Way (t : FileTree) : Nat → Location → List Step → Nat → Location → Prop
  | done {n : Nat} {l : Location} : Way t n l [] n l
  | stay {n m : Nat} {here l : Location} {rest : List Step} (dir : t.get? here = some .dir)
      (way : Way t n here rest m l) : Way t n here (.stay :: rest) m l
  | up {n m : Nat} {here l : Location} {rest : List Step} (dir : t.get? here = some .dir)
      (way : Way t n here.dropLast rest m l) : Way t n here (.up :: rest) m l
  | link {n m : Nat} {here l : Location} {rest : List Step} {name target : Text}
      (dir : t.get? here = some .dir) (short : Text.byteSize name ≤ maxNameSize)
      (points : t.get? (here ++ [name]) = some (.link target))
      (way : Way t n (if Path.isAbsolute ⟨target⟩ then [] else here)
        (Path.steps ⟨target⟩ ++ rest) m l) :
      Way t (n + 1) here (.into name :: rest) m l
  | into {n m : Nat} {here l : Location} {rest : List Step} {name : Text} {e : Entry}
      (dir : t.get? here = some .dir) (short : Text.byteSize name ≤ maxNameSize)
      (found : t.get? (here ++ [name]) = some e) (noLink : ∀ target, e ≠ .link target)
      (way : Way t n (here ++ [name]) rest m l) : Way t n here (.into name :: rest) m l

variable {t : FileTree}

theorem way_of_walk {n : Nat} {here l : Location} {steps : List Step}
    (h : walk t .follow n here steps = .ok l) : ∃ m, Way t n here steps m l := by
  fun_induction walk t .follow n here steps with
  | case1 n here => exact ⟨n, Except.ok.inj h ▸ .done⟩
  | case2 => simp at h
  | case3 n here rest hd ih =>
    obtain ⟨m, w⟩ := ih h
    exact ⟨m, .stay (by simpa using hd) w⟩
  | case4 n here rest hd ih =>
    obtain ⟨m, w⟩ := ih h
    exact ⟨m, .up (by simpa using hd) w⟩
  | case5 => simp at h
  | case6 => simp_all
  | case7 => simp at h
  | case8 => simp_all
  | case9 => simp at h
  | case10 here rest hd name hn target hg hk links ih =>
    obtain ⟨m, w⟩ := ih h
    exact ⟨m, .link (by simpa using hd) (Nat.not_lt.1 hn) hg w⟩
  | case11 n here rest hd name hn e hlink hg ih =>
    obtain ⟨m, w⟩ := ih h
    exact ⟨m, .into (by simpa using hd) (Nat.not_lt.1 hn) hg (fun target he => hlink target he) w⟩

namespace Way

variable {n m : Nat} {here l : Location} {steps : List Step}

theorem walk_eq (w : Way t n here steps m l) : walk t .follow n here steps = .ok l := by
  induction w with
  | done => rw [walk]
  | stay dir _ ih =>
    rw [walk]
    simpa [dir] using ih
  | up dir _ ih =>
    rw [walk]
    simpa [dir] using ih
  | link dir short points _ ih =>
    rw [walk]
    simpa [dir, Nat.not_lt.2 short, points] using ih
  | @into n m here l rest name e dir short found noLink _ ih =>
    rw [walk]
    cases e with
    | link target => exact absurd rfl (noLink target)
    | dir => simpa [dir, Nat.not_lt.2 short, found] using ih
    | file bytes => simpa [dir, Nat.not_lt.2 short, found] using ih

/-- The steps alone decide where a way ends, and how many links are left then. -/
theorem unique {m' : Nat} {l' : Location} (w : Way t n here steps m l)
    (w' : Way t n here steps m' l') : m = m' ∧ l = l' := by
  induction w with
  | done =>
    cases w'
    exact ⟨rfl, rfl⟩
  | stay dir _ ih =>
    cases w' with
    | stay _ w' => exact ih w'
  | up dir _ ih =>
    cases w' with
    | up _ w' => exact ih w'
  | link dir short points _ ih =>
    cases w' with
    | link _ _ points' w' =>
      obtain rfl : _ = _ := Entry.link.inj (Option.some.inj (points.symm.trans points'))
      exact ih w'
    | into _ _ found noLink _ => exact absurd (Option.some.inj (found.symm.trans points)) (noLink _)
  | into dir short found noLink _ ih =>
    cases w' with
    | link _ _ points _ => exact absurd (Option.some.inj (found.symm.trans points)) (noLink _)
    | into _ _ _ _ w' => exact ih w'

theorem append {j : Nat} {k : Location} {rest : List Step} (w : Way t n here steps j k)
    (v : Way t j k rest m l) : Way t n here (steps ++ rest) m l := by
  induction w with
  | done => exact v
  | stay dir _ ih => exact .stay dir (ih v)
  | up dir _ ih => exact .up dir (ih v)
  | link dir short points _ ih =>
    have hv := ih v
    rw [List.append_assoc] at hv
    exact .link dir short points hv
  | into dir short found noLink _ ih => exact .into dir short found noLink (ih v)

/-- A way along two lists of steps comes past the end of the first. -/
theorem split {first rest : List Step} (w : Way t n here (first ++ rest) m l) :
    ∃ j k, Way t n here first j k ∧ Way t j k rest m l := by
  generalize hs : first ++ rest = steps at w
  induction w generalizing first with
  | @done n l =>
    obtain ⟨rfl, rfl⟩ := List.append_eq_nil_iff.1 hs
    exact ⟨n, l, .done, .done⟩
  | @stay n m here l steps dir way ih =>
    rcases List.append_eq_cons_iff.1 hs with ⟨rfl, rfl⟩ | ⟨first, rfl, rfl⟩
    · exact ⟨n, here, .done, .stay dir way⟩
    · obtain ⟨j, k, w, v⟩ := ih rfl
      exact ⟨j, k, .stay dir w, v⟩
  | @up n m here l steps dir way ih =>
    rcases List.append_eq_cons_iff.1 hs with ⟨rfl, rfl⟩ | ⟨first, rfl, rfl⟩
    · exact ⟨n, here, .done, .up dir way⟩
    · obtain ⟨j, k, w, v⟩ := ih rfl
      exact ⟨j, k, .up dir w, v⟩
  | @link n m here l steps name target dir short points way ih =>
    rcases List.append_eq_cons_iff.1 hs with ⟨rfl, rfl⟩ | ⟨first, rfl, rfl⟩
    · exact ⟨n + 1, here, .done, .link dir short points way⟩
    · obtain ⟨j, k, w, v⟩ := ih (List.append_assoc _ _ _)
      exact ⟨j, k, .link dir short points w, v⟩
  | @into n m here l steps name e dir short found noLink way ih =>
    rcases List.append_eq_cons_iff.1 hs with ⟨rfl, rfl⟩ | ⟨first, rfl, rfl⟩
    · exact ⟨n, here, .done, .into dir short found noLink way⟩
    · obtain ⟨j, k, w, v⟩ := ih rfl
      exact ⟨j, k, .into dir short found noLink w, v⟩

theorem stays (j : Nat) (hd : t.get? here = some .dir) (w : Way t n here steps m l) :
    Way t n here (List.replicate j .stay ++ steps) m l := by
  induction j with
  | zero => exact w
  | succ j ih => exact .stay hd ih

theorem eq_of_moves_eq_nil (w : Way t n here steps m l) (hs : moves steps = []) : l = here := by
  induction w with
  | done => rfl
  | stay _ _ ih => exact ih hs
  | up _ _ _ => simp at hs
  | link _ _ _ _ _ => simp at hs
  | into _ _ _ _ _ _ => simp at hs

/-- A way to a directory is one along any steps with the same moves. -/
theorem of_moves {steps' : List Step} (w : Way t n here steps m l) (hl : t.get? l = some .dir)
    (hs : moves steps' = moves steps) : Way t n here steps' m l := by
  induction w generalizing steps' with
  | @done n l =>
    rw [eq_replicate_of_moves_eq_nil hs, ← List.append_nil (List.replicate _ _)]
    exact .stays _ hl .done
  | stay dir way ih => exact ih hl hs
  | up dir way ih =>
    obtain ⟨j, rest, rfl, hrest⟩ := exists_of_moves_eq_cons hs
    exact .stays j dir (.up dir (ih hl hrest))
  | link dir short points way ih =>
    obtain ⟨j, rest, rfl, hrest⟩ := exists_of_moves_eq_cons (hs.trans (moves_cons_into _ _))
    exact .stays j dir (.link dir short points (ih hl (by rw [moves_append, moves_append, hrest])))
  | into dir short found noLink way ih =>
    obtain ⟨j, rest, rfl, hrest⟩ := exists_of_moves_eq_cons hs
    exact .stays j dir (.into dir short found noLink (ih hl hrest))

end Way

/-- A path denotes what its steps lead to. -/
theorem canonical?_eq_some_iff {p : Path} {l : Location} : t.canonical? p = some l ↔
    '\x00' ∉ p.text ∧ p.text ≠ [] ∧
      ∃ start m, t.origin p = .ok start ∧ Way t maxLinks start p.steps m l := by
  unfold canonical?
  constructor
  · intro h
    split at h
    · cases h
    · next hp =>
      split at h
      · next start ho =>
        cases hw : walk t .follow maxLinks start p.steps with
        | error fault => simp [hw, Except.toOption] at h
        | ok k =>
          obtain rfl : k = l := by simpa [hw, Except.toOption] using h
          obtain ⟨m, w⟩ := way_of_walk hw
          exact ⟨(not_or.1 hp).1, (not_or.1 hp).2, start, m, ho, w⟩
      · cases h
  · rintro ⟨hnul, hne, start, m, ho, w⟩
    simp only [if_neg (not_or.2 ⟨hnul, hne⟩), ho, w.walk_eq, Except.toOption]

variable {p : Path} {l : Location}

/-- A path denotes a place exactly if it can be asked for and there is a way along its steps. -/
theorem resolve_eq_ok_iff : t.resolve .follow p = .ok l ↔ checkPath p = .ok () ∧
    ∃ start m, t.origin p = .ok start ∧ Way t maxLinks start p.steps m l := by
  constructor
  · intro h
    obtain ⟨_, hc, h⟩ := Except.exists_of_bind_eq_ok h
    obtain ⟨start, ho, h⟩ := Except.exists_of_bind_eq_ok h
    obtain ⟨m, w⟩ := way_of_walk h
    exact ⟨hc, start, m, ho, w⟩
  · rintro ⟨hc, start, m, ho, w⟩
    simp only [resolve, hc, ho, bind, Except.bind, w.walk_eq]

theorem canonical_of_way {start : Location} {m : Nat} (hc : checkPath p = .ok ())
    (ho : t.origin p = .ok start) (w : Way t maxLinks start p.steps m l) :
    t.canonical? p = some l := by
  have hne : p.text ≠ [] := by
    intro hnil
    simp [checkPath, hnil] at hc
  exact canonical?_eq_some_iff.2 ⟨nul_notMem_of_checkPath hc, hne, start, m, ho, w⟩

namespace WellFormed

/-- Names lead straight to what they name, past no link. -/
theorem way_names (hw : t.WellFormed) (n : Nat) {here : Location} {names : List Text}
    (hs : t.Stands (here ++ names)) : Way t n here (names.map .into) n (here ++ names) := by
  induction names generalizing here with
  | nil =>
    rw [List.append_nil]
    exact .done
  | cons name names ih =>
    have hassoc : here ++ name :: names = here ++ [name] ++ names := by simp
    obtain ⟨e, he, hlink⟩ := hs
    have hd : t.get? here = some .dir := hw.dir_of_append he
    have hname : ProperName name := hw.proper he name (by simp)
    rw [hassoc] at he ⊢
    have hrest := ih ⟨e, he, hlink⟩
    -- the next place is a directory on the way, or the end, which is no link
    cases names with
    | nil => exact .into hd hname.size (by simpa using he) hlink hrest
    | cons m ms => exact .into hd hname.size (hw.dir_of_append he) (fun _ => by simp) hrest

theorem canonical_path_of_stands (hw : t.WellFormed) {l : Location} (hs : t.Stands l) :
    t.canonical? l.path = some l := by
  have hp : l.Proper := by
    obtain ⟨e, he, -⟩ := hs
    exact hw.proper he
  have hne : l.path.text ≠ [] := by simp [Location.path]
  have horigin : t.origin l.path = .ok [] := by
    simp [origin, Path.isAbsolute, Location.path, Text.startsWith, List.isPrefixOf]
  refine canonical?_eq_some_iff.2 ⟨nul_notMem_path hp, hne, [], maxLinks, horigin, ?_⟩
  by_cases hl : l = []
  · subst hl
    have hsteps : Path.steps (Location.path []) = [.stay, .stay] := by decide
    rw [hsteps]
    exact .stays 2 t.get?_root .done
  · have hway : Way t maxLinks [] (l.map .into) maxLinks ([] ++ l) := hw.way_names maxLinks hs
    rw [Location.steps_path hp hl]
    exact .stay t.get?_root hway

end WellFormed

end FileTree

end FlatSol
