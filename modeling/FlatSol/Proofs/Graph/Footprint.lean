import FlatSol.Proofs.FileTree.Footprint
import FlatSol.Proofs.Graph.Closure

/-!
# What building a graph looks at

Building the graph of an entry looks at the way to the entry and to the root, and at the ways to what
the imports of its files ask for. A tree that agrees with another there, and in its current directory,
gives the same graph: every step of the run is the same.
-/

namespace FlatSol

variable {t u : FileTree} {entry root : Path} {g : Graph}

namespace Build

/-- The locations that the imports of a text lead past. -/
def importFootprint (t : FileTree) (root : Path) (l : Location) (text : Text) : List Location :=
  (Source.imports text).flatMap fun d => t.footprint (importCandidate d.path l.path root)

theorem textAt_congr {l : Location} (h : u.get? l = t.get? l) : u.textAt l = t.textAt l := by
  rw [FileTree.textAt, FileTree.textAt, h]

theorem settle_congr {r : Resolution}
    (h : ∀ target, r = .resolved target → u.get? target = t.get? target) :
    settle u r = settle t r := by
  cases r with
  | unresolved reason => rfl
  | resolved target => simp only [settle, textAt_congr (h target rfl)]

/-- Two trees hold the same at every target of the imports. -/
def AgreeOn (t u : FileTree) (imports : List (ImportDirective × Resolution)) : Prop :=
  ∀ i ∈ imports, ∀ target, i.2 = .resolved target → u.get? target = t.get? target

theorem enter_congr {b : Build} {l : Location} {text : Text}
    (himports : importsOf u root l text = importsOf t root l text)
    (agree : AgreeOn t u (importsOf t root l text)) :
    enter u root b l text = enter t root b l text := by
  have hsettle : (importsOf t root l text).map (fun i => (i.1, settle u i.2)) =
      (importsOf t root l text).map fun i => (i.1, settle t i.2) :=
    List.map_congr_left fun i hi => by rw [settle_congr (agree i hi)]
  simp only [enter, himports, hsettle]

/-! ### Runs -/

theorem files_subset_of_move {b c : Build} (m : Move t root b c) :
    b.graph.files ⊆ c.graph.files := by
  cases m with
  | leave => exact List.Subset.refl _
  | unresolved => exact List.Subset.refl _
  | unreadable => exact List.Subset.refl _
  | known => simp
  | fresh => simp

theorem files_subset_run (b : Build) : b.graph.files ⊆ (run t root b).files := by
  fun_induction run t root b with
  | case1 => exact List.Subset.refl _
  | case2 b c hc ih => exact fun f hf => ih (files_subset_of_move (move_of_step hc) hf)

/-- The trees give the files of a graph the same imports, and hold the same at the targets of these. -/
def ImportsAlike (t u : FileTree) (root : Path) (g : Graph) : Prop :=
  ∀ f ∈ g.files, importsOf u root f.location f.text = importsOf t root f.location f.text ∧
    AgreeOn t u (importsOf t root f.location f.text)

theorem ImportsAlike.of_mem (alike : ImportsAlike t u root g) {l : Location} {text : Text}
    (hf : sourceFile t root l text ∈ g.files) :
    importsOf u root l text = importsOf t root l text ∧ AgreeOn t u (importsOf t root l text) := by
  have himports := alike (sourceFile t root l text) hf
  have hl : (sourceFile t root l text).location = l := rfl
  have ht : (sourceFile t root l text).text = text := rfl
  rwa [hl, ht] at himports

section Congr

variable {b c : Build}

theorem step?_of_move (m : Move t root b c) (pending : ∀ fr ∈ b.stack, AgreeOn t u fr.pending)
    (alike : ImportsAlike t u root c.graph) : step? u root b = some c := by
  cases m with
  | leave => rfl
  | unresolved => rfl
  | @unreadable g l target d fault rest below active unknown fails =>
    have htarget := pending _ List.mem_cons_self _ List.mem_cons_self target rfl
    simp only [step?, follow, unknown, if_false, textAt_congr htarget, fails]
  | @known g l target d rest below active known =>
    simp only [step?, follow, known, if_true]
    rfl
  | @fresh g l target d text rest below active unknown reads =>
    have htarget := pending _ List.mem_cons_self _ List.mem_cons_self target rfl
    have hfile : sourceFile t root target text ∈
        ((withFile t root (g.report (.following d.path l.path)) target text).link l target).files := by
      simp
    obtain ⟨himports, hon⟩ := alike.of_mem hfile
    simp only [step?, follow, unknown, if_false, textAt_congr htarget, reads,
      enter_congr himports hon]
    rfl

theorem pending_of_move (m : Move t root b c) (pending : ∀ fr ∈ b.stack, AgreeOn t u fr.pending)
    (alike : ImportsAlike t u root c.graph) : ∀ fr ∈ c.stack, AgreeOn t u fr.pending := by
  have hrest : ∀ {l : Location} {i : ImportDirective × Resolution}
      {rest : List (ImportDirective × Resolution)} {below : List Frame},
      (∀ fr ∈ ⟨l, i :: rest⟩ :: below, AgreeOn t u fr.pending) →
        ∀ fr ∈ ⟨l, rest⟩ :: below, AgreeOn t u fr.pending := by
    intro l i rest below h fr hfr
    rcases List.mem_cons.1 hfr with rfl | hfr
    · exact fun j hj => h _ List.mem_cons_self j (List.mem_cons_of_mem i hj)
    · exact h fr (List.mem_cons_of_mem _ hfr)
  cases m with
  | leave => exact fun fr hfr => pending fr (List.mem_cons_of_mem _ hfr)
  | unresolved => exact hrest pending
  | unreadable => exact hrest pending
  | known => exact hrest pending
  | @fresh g l target d text rest below active unknown reads =>
    have hfile : sourceFile t root target text ∈
        ((withFile t root (g.report (.following d.path l.path)) target text).link l target).files := by
      simp
    intro fr hfr
    rcases List.mem_cons.1 hfr with rfl | hfr
    · exact (alike.of_mem hfile).2
    · exact hrest pending fr hfr

/-- Runs in two trees are the same if these give the files at the end the same imports. -/
theorem run_congr (pending : ∀ fr ∈ b.stack, AgreeOn t u fr.pending)
    (alike : ImportsAlike t u root (run t root b)) : run u root b = run t root b := by
  fun_induction run t root b with
  | case1 b hn =>
    obtain ⟨g, stack, active⟩ := b
    obtain rfl : stack = [] := stack_of_step?_eq_none hn
    exact run_of_empty g active
  | case2 b c hc ih =>
    have m := move_of_step hc
    have halike : ImportsAlike t u root c.graph := fun f hf => alike f (files_subset_run c hf)
    have hstep := step?_of_move m pending halike
    rw [run_of_step hstep]
    exact ih (pending_of_move m pending halike) alike

theorem run_start_congr {l : Location} {text : Text}
    (alike : ImportsAlike t u root (run t root (start t root l text))) :
    run u root (start u root l text) = run t root (start t root l text) := by
  have hfile : sourceFile t root l text ∈ (run t root (start t root l text)).files := by
    refine files_subset_run _ ?_
    rw [start_eq]
    simp
  obtain ⟨himports, hon⟩ := alike.of_mem hfile
  have hstart : start u root l text = start t root l text := enter_congr himports hon
  rw [hstart]
  refine run_congr ?_ alike
  intro fr hfr
  rw [start_eq, List.mem_singleton] at hfr
  rw [hfr]
  exact hon

end Congr

end Build

/-! ### Graphs -/

/-- The locations that building the graph of an entry looks at. -/
def Graph.footprint (t : FileTree) (entry root : Path) : List Location :=
  t.footprint entry ++ t.footprint root ++
    match Graph.build t (t.normalize entry) (t.normalize root) with
    | .error _ => []
    | .ok g => g.files.flatMap fun f =>
        Build.importFootprint t (t.normalize root) f.location f.text

namespace Graph

/-- Building starts from canonical paths, whichever paths are given. -/
theorem build_normalize (hw : t.WellFormed) (entry root : Path) :
    build t (t.normalize entry) (t.normalize root) = build t entry root := by
  cases hl : t.canonical? entry with
  | none =>
    have hentry : t.normalize entry = entry := by
      rw [FileTree.normalize, hl]
      rfl
    simp only [build, hentry, hw.normalize_normalize]
  | some l =>
    have hlocate : t.locate (t.normalize entry) = t.locate entry := by
      simp only [FileTree.locate, hw.canonical?_normalize, hl]
    have hlocated : t.locate entry = .ok l := by rw [FileTree.locate, hl]
    simp only [build, hlocate, hlocated, hw.normalize_normalize]

theorem build_of_canonical (hw : t.WellFormed) {l : Location} {text : Text}
    (hl : t.canonical? entry = some l) (ht : t.textAt l = .ok text) :
    build t (t.normalize entry) (t.normalize root) =
      .ok (Build.run t (t.normalize root) (Build.start t (t.normalize root) l text)) := by
  have hlocate : t.locate entry = .ok l := by rw [FileTree.locate, hl]
  rw [build_normalize hw]
  simp only [build, hlocate, ht]

end Graph

end FlatSol
