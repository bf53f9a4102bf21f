import FlatSol.Proofs.Graph.Tour

/-!
# The search as a recursion

The traversal that builds a graph and the tour that orders its files keep the files being entered on
stacks. The same search can be told as a recursion: to visit a file, mark it, and visit each unmarked
file that one of its imports leads to. Main statement: a built graph has its files in the order in
which the recursion enters them, and the tour writes them in the order in which it leaves them. So two
files that do not lead to one another are written in the order of their discovery.
-/

namespace FlatSol

open Build

/-- The files that a search enters one after the other, each with those entered before it is left. -/
inductive Forest
  | empty
  | file (l : Location) (below after : Forest)

namespace Forest

/-- The files in the order in which they are entered. -/
def preorder : Forest → List Location
  | .empty => []
  | .file l below after => l :: (below.preorder ++ after.preorder)

/-- The files in the order in which they are left. -/
def postorder : Forest → List Location
  | .empty => []
  | .file l below after => below.postorder ++ l :: after.postorder

/-- The second file is entered after the first one is entered and before that one is left. -/
def Within : Forest → Location → Location → Prop
  | .empty, _, _ => False
  | .file l below after, u, v =>
    (u = l ∧ v ∈ below.preorder) ∨ below.Within u v ∨ after.Within u v

theorem postorder_perm (F : Forest) : F.postorder.Perm F.preorder := by
  induction F with
  | empty => exact .refl _
  | file l below after ihb iha => exact List.perm_middle.trans ((ihb.append iha).cons l)

theorem mem_postorder {F : Forest} {l : Location} : l ∈ F.postorder ↔ l ∈ F.preorder :=
  F.postorder_perm.mem_iff

end Forest

/-! ### Pairs in a list -/

theorem pair_sublist_append_iff {α : Type} {u v : α} {xs ys : List α} :
    [u, v].Sublist (xs ++ ys) ↔
      [u, v].Sublist xs ∨ (u ∈ xs ∧ v ∈ ys) ∨ [u, v].Sublist ys := by
  constructor
  · intro h
    obtain ⟨us, vs, huv, hu, hv⟩ := List.sublist_append_iff.1 h
    rcases us with _ | ⟨a, _ | ⟨b, us⟩⟩
    · exact .inr (.inr (huv ▸ hv))
    · obtain ⟨rfl, rfl⟩ := List.cons.inj huv
      exact .inr (.inl ⟨List.singleton_sublist.1 hu, List.singleton_sublist.1 hv⟩)
    · simp only [List.cons_append, List.cons.injEq] at huv
      obtain ⟨rfl, rfl, hnil⟩ := huv
      rw [(List.append_eq_nil_iff.1 hnil.symm).1] at hu
      exact .inl hu
  · rintro (h | ⟨hu, hv⟩ | h)
    · exact h.trans (List.sublist_append_left _ _)
    · exact (List.singleton_sublist.2 hu).append (List.singleton_sublist.2 hv)
    · exact h.trans (List.sublist_append_right _ _)

theorem pair_sublist_cons_iff {α : Type} {u v l : α} {xs : List α} :
    [u, v].Sublist (l :: xs) ↔ (u = l ∧ v ∈ xs) ∨ [u, v].Sublist xs := by
  have h : [u, v].Sublist ([l] ++ xs) ↔ _ := pair_sublist_append_iff
  rw [List.singleton_append] at h
  rw [h, List.mem_singleton]
  refine ⟨fun h => h.resolve_left fun hl => ?_, .inr⟩
  exact absurd hl.length_le (by simp)

/-- Two elements of a list stand in it one way round or the other. -/
theorem pair_sublist_or {α : Type} {u v : α} {xs : List α} (hu : u ∈ xs) (hv : v ∈ xs)
    (hne : u ≠ v) : [u, v].Sublist xs ∨ [v, u].Sublist xs := by
  induction xs with
  | nil => exact absurd hu List.not_mem_nil
  | cons x xs ih =>
    simp only [pair_sublist_cons_iff]
    rcases List.mem_cons.1 hu with rfl | hux
    · exact .inl (.inl ⟨rfl, (List.mem_cons.1 hv).resolve_left (Ne.symm hne)⟩)
    · rcases List.mem_cons.1 hv with rfl | hvx
      · exact .inr (.inl ⟨rfl, hux⟩)
      · exact (ih hux hvx).imp .inr .inr

/-- Of two files, the one that is entered first is left first, unless the other is entered from it. -/
theorem Forest.postorder_of_preorder {F : Forest} {u v : Location}
    (h : [u, v].Sublist F.preorder) : [u, v].Sublist F.postorder ∨ F.Within u v := by
  induction F with
  | empty => simp [preorder] at h
  | file l below after ihb iha =>
    rw [postorder, pair_sublist_append_iff, pair_sublist_cons_iff, List.mem_cons, mem_postorder,
      mem_postorder]
    rcases pair_sublist_cons_iff.1 h with ⟨rfl, hv⟩ | h
    · rcases List.mem_append.1 hv with hv | hv
      · exact .inr (.inl ⟨rfl, hv⟩)
      · exact .inl (.inr (.inr (.inl ⟨rfl, hv⟩)))
    · rcases pair_sublist_append_iff.1 h with h | ⟨hu, hv⟩ | h
      · exact (ihb h).imp .inl fun hw => .inr (.inl hw)
      · exact .inl (.inr (.inl ⟨hu, .inr hv⟩))
      · exact (iha h).imp (fun hp => .inr (.inr (.inr hp))) fun hw => .inr (.inr hw)

/-! ### The recursion -/

/-- What the imports of a text lead to, readable or not, in the order of the imports. -/
def importTargets (t : FileTree) (root : Path) (l : Location) (text : Text) : List Location :=
  (Source.imports text).filterMap fun d => (t.resolveImport d.path l.path root).target?

/-- The number of files that can still be marked. -/
def unmarked (t : FileTree) (marked : List Location) : Nat :=
  (t.locations.filter fun l => decide (l ∉ marked)).length

theorem unmarked_lt {t : FileTree} {l : Location} {marked more : List Location} {text : Text}
    (hl : l ∉ marked) (ht : t.textAt l = .ok text) :
    unmarked t (marked ++ l :: more) < unmarked t marked := by
  refine length_filter_lt (FileTree.mem_locations_of_textAt ht) (by simpa using hl) (by simp) ?_
  intro k hk
  simp only [List.mem_append, not_or, decide_eq_true_eq] at hk ⊢
  exact hk.1

/-- Visits some files one after the other: one that is not marked and can be read is marked, and
what its imports lead to is visited before the next one. -/
def visit (t : FileTree) (root : Path) (marked : List Location) : List Location → Forest
  | [] => .empty
  | l :: rest =>
    if l ∈ marked then visit t root marked rest
    else
      match _h : t.textAt l with
      | .error _ => visit t root marked rest
      | .ok text =>
        let below := visit t root (marked ++ [l]) (importTargets t root l text)
        .file l below (visit t root (marked ++ l :: below.preorder) rest)
termination_by targets => (unmarked t marked, targets.length)
decreasing_by
  · exact Prod.Lex.right _ (Nat.lt_succ_self _)
  · exact Prod.Lex.right _ (Nat.lt_succ_self _)
  · exact Prod.Lex.left _ _ (unmarked_lt ‹_› _h)
  · exact Prod.Lex.left _ _ (unmarked_lt ‹_› _h)

variable {t : FileTree} {root : Path} {entry : Location} {g : Graph}

theorem visit_nil (marked : List Location) : visit t root marked [] = .empty := by
  rw [visit]

theorem visit_of_mem {marked : List Location} {l : Location} (h : l ∈ marked)
    (rest : List Location) : visit t root marked (l :: rest) = visit t root marked rest := by
  rw [visit, if_pos h]

theorem visit_of_error {l : Location} {fault : Fault} (h : t.textAt l = .error fault)
    (marked rest : List Location) :
    visit t root marked (l :: rest) = visit t root marked rest := by
  rw [visit]
  split
  · rfl
  · split
    · rfl
    · simp_all

theorem visit_of_textAt {marked : List Location} {l : Location} {text : Text} (hl : l ∉ marked)
    (h : t.textAt l = .ok text) (rest : List Location) :
    visit t root marked (l :: rest) =
      .file l (visit t root (marked ++ [l]) (importTargets t root l text))
        (visit t root (marked ++ l ::
          (visit t root (marked ++ [l]) (importTargets t root l text)).preorder) rest) := by
  rw [visit, if_neg hl]
  split
  · simp_all
  · next text' h' =>
    rw [h] at h'
    obtain rfl := Except.ok.inj h'
    rfl

/-! ### What the stack foretells -/

/-- What some imports lead to, readable or not. -/
def targetsIn (imports : List (ImportDirective × Resolution)) : List Location :=
  imports.filterMap fun i => i.2.target?

theorem targetsIn_importsOf (l : Location) (text : Text) :
    targetsIn (importsOf t root l text) = importTargets t root l text := by
  simp only [targetsIn, importsOf, List.filterMap_map]
  rfl

/-- The files that a search enters from its stack on. -/
def toEnter (t : FileTree) (root : Path) (marked : List Location) : List Frame → List Location
  | [] => []
  | f :: below =>
    let F := visit t root marked (targetsIn f.pending)
    F.preorder ++ toEnter t root (marked ++ F.preorder) below

/-- The files that a search leaves from its stack on. -/
def toLeave (t : FileTree) (root : Path) (marked : List Location) : List Frame → List Location
  | [] => []
  | f :: below =>
    let F := visit t root marked (targetsIn f.pending)
    F.postorder ++ f.location :: toLeave t root (marked ++ F.preorder) below

theorem toEnter_congr {marked : List Location} {l : Location} {below : List Frame}
    {pending pending' : List (ImportDirective × Resolution)}
    (h : visit t root marked (targetsIn pending) = visit t root marked (targetsIn pending')) :
    toEnter t root marked (⟨l, pending⟩ :: below) =
      toEnter t root marked (⟨l, pending'⟩ :: below) := by
  simp only [toEnter, h]

theorem toLeave_congr {marked : List Location} {l : Location} {below : List Frame}
    {pending pending' : List (ImportDirective × Resolution)}
    (h : visit t root marked (targetsIn pending) = visit t root marked (targetsIn pending')) :
    toLeave t root marked (⟨l, pending⟩ :: below) =
      toLeave t root marked (⟨l, pending'⟩ :: below) := by
  simp only [toLeave, h]

/-- The files found, with those still to be entered, are the one list; those left, with those still to
be left, are the other one. -/
structure Foretold (t : FileTree) (root : Path) (entered left order : List Location) (b : Build) :
    Prop where
  entered : b.graph.locations ++ toEnter t root b.graph.locations b.stack = entered
  left : order ++ toLeave t root b.graph.locations b.stack = left

variable {entered left order : List Location}

/-- A step that only passes an import keeps what is foretold if nothing is visited for that import. -/
theorem Foretold.pass {γ γ' : Graph} {l : Location} {below : List Frame}
    {pending pending' : List (ImportDirective × Resolution)} {active active' : List Location}
    (h : Foretold t root entered left order ⟨γ, ⟨l, pending⟩ :: below, active⟩)
    (hloc : γ'.locations = γ.locations)
    (hv : visit t root γ.locations (targetsIn pending) =
      visit t root γ.locations (targetsIn pending')) :
    Foretold t root entered left order ⟨γ', ⟨l, pending'⟩ :: below, active'⟩ := by
  refine ⟨?_, ?_⟩
  · rw [hloc, ← toEnter_congr hv]
    exact h.entered
  · rw [hloc, ← toLeave_congr hv]
    exact h.left

theorem Foretold.move {b c : Build} (m : Move t root b c)
    (h : Foretold t root entered left order b) :
    Foretold t root entered left (order ++ leftBy b c) c := by
  have hstay : ∀ {c' : Build}, leftBy b c' = [] → Foretold t root entered left order c' →
      Foretold t root entered left (order ++ leftBy b c') c' := fun hn hc => by
    rw [hn, List.append_nil]
    exact hc
  cases m with
  | @leave γ l below active =>
    have he := h.entered
    have hl := h.left
    simp only [toEnter, toLeave, targetsIn, List.filterMap_nil, visit_nil, Forest.preorder,
      Forest.postorder, List.nil_append, List.append_nil] at he hl
    refine ⟨he, ?_⟩
    rw [leftBy_leave, List.append_assoc]
    exact hl
  | unresolved => exact hstay (by simp [leftBy]) (h.pass rfl rfl)
  | unreadable unknown fails =>
    exact hstay (by simp [leftBy]) (h.pass rfl (visit_of_error fails _ _))
  | known known =>
    exact hstay (by simp [leftBy]) (h.pass (locations_meet _ _ _ _) (visit_of_mem known _))
  | @fresh γ l target d text rest below active unknown reads =>
    have hloc : ((withFile t root (γ.report (.following d.path l.path)) target text).link l
        target).locations = γ.locations ++ [target] := by simp
    have hv : visit t root _ (target :: targetsIn rest) = _ := visit_of_textAt unknown reads _
    have he := h.entered
    have hl := h.left
    have hcons : targetsIn ((d, .resolved target) :: rest) = target :: targetsIn rest := rfl
    simp only [toEnter, toLeave, hcons, hv, Forest.preorder, Forest.postorder] at he hl
    refine hstay (by simp [leftBy]) ⟨?_, ?_⟩
    · simp only [hloc, toEnter, targetsIn_importsOf]
      simpa using he
    · simp only [hloc, toLeave, targetsIn_importsOf]
      simpa using hl

theorem foretold_start {l : Location} {text : Text} (h : t.textAt l = .ok text) :
    Foretold t root (visit t root [] [l]).preorder (visit t root [] [l]).postorder []
      (start t root l text) := by
  have hloc : (withFile t root .empty l text).locations = [l] := locations_withFile_empty l text
  have hv : visit t root [] [l] = _ := visit_of_textAt List.not_mem_nil h []
  rw [start_eq, hv]
  refine ⟨?_, ?_⟩
  · simp [hloc, toEnter, targetsIn_importsOf, visit_nil, Forest.preorder]
  · simp [hloc, toLeave, targetsIn_importsOf, visit_nil, Forest.postorder]

/-! ### Ways from file to file -/

/-- One of the imports of a file leads to the other, which can be read. -/
def Imports (t : FileTree) (root : Path) (u v : Location) : Prop :=
  v ∈ targetsAt t root u

theorem imports_of_mem_importTargets {l k : Location} {text text' : Text}
    (hl : t.textAt l = .ok text) (hk : t.textAt k = .ok text')
    (h : k ∈ importTargets t root l text) : Imports t root l k := by
  obtain ⟨d, hd, hr⟩ := List.mem_filterMap.1 h
  refine mem_targetsAt.2 ⟨text, hl, d, hd, ?_, text', hk⟩
  cases hres : t.resolveImport d.path l.path root with
  | unresolved why => simp [hres, Resolution.target?] at hr
  | resolved j => rw [show j = k by simpa [hres, Resolution.target?] using hr]

/-- A file that is entered is one of those to be visited, or one of them leads to it. -/
theorem exists_way_of_mem_visit {marked ls : List Location} {v : Location}
    (h : v ∈ (visit t root marked ls).preorder) :
    ∃ k ∈ ls, (∃ text, t.textAt k = .ok text) ∧ Relation.ReflTransGen (Imports t root) k v := by
  fun_induction visit t root marked ls with
  | case1 => simp [Forest.preorder] at h
  | case2 marked l rest hl ih =>
    obtain ⟨k, hk, hway⟩ := ih h
    exact ⟨k, List.mem_cons_of_mem _ hk, hway⟩
  | case3 marked l rest hl fault ht ih =>
    obtain ⟨k, hk, hway⟩ := ih h
    exact ⟨k, List.mem_cons_of_mem _ hk, hway⟩
  | case4 marked l rest hl text ht below ihb iha =>
    rcases List.mem_cons.1 h with rfl | h
    · exact ⟨v, List.mem_cons_self, ⟨text, ht⟩, .refl⟩
    · rcases List.mem_append.1 h with h | h
      · obtain ⟨k, hk, ⟨text', hr⟩, hway⟩ := ihb h
        exact ⟨l, List.mem_cons_self, ⟨text, ht⟩,
          .head (imports_of_mem_importTargets ht hr hk) hway⟩
      · obtain ⟨k, hk, hway⟩ := iha h
        exact ⟨k, List.mem_cons_of_mem _ hk, hway⟩

/-- A file leads to those that are entered from it. -/
theorem way_of_within_visit {marked ls : List Location} {u v : Location}
    (h : (visit t root marked ls).Within u v) : Relation.TransGen (Imports t root) u v := by
  fun_induction visit t root marked ls with
  | case1 => exact h.elim
  | case2 marked l rest hl ih => exact ih h
  | case3 marked l rest hl fault ht ih => exact ih h
  | case4 marked l rest hl text ht below ihb iha =>
    rcases h with ⟨rfl, hv⟩ | h | h
    · obtain ⟨k, hk, ⟨text', hr⟩, hway⟩ := exists_way_of_mem_visit hv
      exact .head' (imports_of_mem_importTargets ht hr hk) hway
    · exact ihb h
    · exact iha h

namespace Graph

theorem mem_edges_of_imports (h : Traversed t root entry ⟨g, [], []⟩) {u v : Location}
    (hu : u ∈ g.locations) (huv : Imports t root u v) : (u, v) ∈ g.edges ∧ v ∈ g.locations := by
  obtain ⟨hd, hk⟩ := dependencies_of_traversed h hu
  refine ⟨mem_edges.2 ⟨hu, mem_dependencies.1 ?_⟩, hk v huv⟩
  rw [hd]
  exact List.mem_eraseDups.2 huv

/-- A way along imports from a file of the graph is one along its edges. -/
theorem edges_of_imports (h : Traversed t root entry ⟨g, [], []⟩) {u v : Location}
    (hu : u ∈ g.locations) (huv : Relation.TransGen (Imports t root) u v) :
    Relation.TransGen (fun a b => (a, b) ∈ g.edges) u v := by
  induction huv using Relation.TransGen.head_induction_on with
  | single hab => exact .single (mem_edges_of_imports h hu hab).1
  | head hab _ ih =>
    obtain ⟨hedge, hb⟩ := mem_edges_of_imports h hu hab
    exact .head hedge (ih hb)

/-- The files of a built graph are those that the recursive search enters, in that order, and they are
written in the order in which it leaves them. Of two files that do not lead to one another the one that
was found first is written first. -/
theorem build_isDepthFirst {entry : Path} (h : build t entry root = .ok g) :
    ∃ l, t.canonical? entry = some l ∧
      g.files.map SourceFile.location = (visit t (t.normalize root) [] [l]).preorder ∧
      g.flattenOrder.map SourceFile.location = (visit t (t.normalize root) [] [l]).postorder ∧
      ∀ u v, ¬ Relation.TransGen (fun a b => (a, b) ∈ g.edges) u v →
        ¬ Relation.TransGen (fun a b => (a, b) ∈ g.edges) v u →
          (g.Before u v ↔ [u, v].Sublist (g.files.map SourceFile.location)) := by
  obtain ⟨l, hl, -⟩ := traversed_of_build h
  obtain ⟨ht, hforetold⟩ := order_induction h hl
    (P := Foretold t (t.normalize root) (visit t (t.normalize root) [] [l]).preorder
      (visit t (t.normalize root) [] [l]).postorder)
    (fun text => foretold_start) fun b c order m _ => Foretold.move m
  have hpre : g.locations = (visit t (t.normalize root) [] [l]).preorder := by
    simpa [toEnter] using hforetold.entered
  have hpost : g.orderedLocations = (visit t (t.normalize root) [] [l]).postorder := by
    simpa [toLeave] using hforetold.left
  have hperm : g.orderedLocations.Perm g.locations := by
    rw [hpre, hpost]
    exact Forest.postorder_perm _
  have horder := flattenOrder_map_location ht.nodup hperm
  refine ⟨l, hl, hpre, horder.trans hpost, fun u v huv hvu => ?_⟩
  have hfirst : ∀ a b, ¬ Relation.TransGen (fun a b => (a, b) ∈ g.edges) a b →
      [a, b].Sublist g.locations → g.Before a b := by
    intro a b hab hs
    have ha : a ∈ g.locations := hs.subset List.mem_cons_self
    rw [Before, horder, hpost]
    rw [hpre] at hs
    refine (Forest.postorder_of_preorder hs).resolve_right fun hw => ?_
    exact hab (edges_of_imports ht ha (way_of_within_visit hw))
  refine ⟨fun hb => ?_, hfirst u v huv⟩
  have hs : [u, v].Sublist g.orderedLocations := by
    rw [← horder]
    exact hb
  have hne : u ≠ v := by
    rintro rfl
    exact absurd (hs.nodup (hperm.nodup_iff.2 ht.nodup)) (by simp)
  have hmem : ∀ k ∈ [u, v], k ∈ g.locations := fun k hk => hperm.subset (hs.subset hk)
  refine (pair_sublist_or (hmem u (by simp)) (hmem v (by simp)) hne).resolve_right fun hvs => ?_
  have hvb := hfirst v u hvu hvs
  rw [Before, horder] at hvb
  exact pair_asymm (hperm.nodup_iff.2 ht.nodup) hs hvb

/-- Two files that import a third one, and are imported by a fourth. -/
def diamondTree : FileTree where
  entries :=
    [(["p".toList], .dir),
      (["p".toList, "A.sol".toList], .file (Text.toBytes
        "import './B.sol';\nimport './C.sol';".toList)),
      (["p".toList, "B.sol".toList], .file (Text.toBytes "import './D.sol';".toList)),
      (["p".toList, "C.sol".toList], .file (Text.toBytes "import './D.sol';".toList)),
      (["p".toList, "D.sol".toList], .file ⟨#[]⟩)]
  workDir := some ["p".toList]

theorem edges_diamondTree :
    (build diamondTree ⟨"A.sol".toList⟩ ⟨"/p".toList⟩).map (fun g => g.edges) = .ok
      [(["p".toList, "A.sol".toList], ["p".toList, "B.sol".toList]),
        (["p".toList, "A.sol".toList], ["p".toList, "C.sol".toList]),
        (["p".toList, "B.sol".toList], ["p".toList, "D.sol".toList]),
        (["p".toList, "C.sol".toList], ["p".toList, "D.sol".toList])] := by
  cbv

theorem build_isDepthFirst_diamondTree :
    ∃ g, build diamondTree ⟨"A.sol".toList⟩ ⟨"/p".toList⟩ = .ok g ∧
      g.files.map SourceFile.location = (visit diamondTree (diamondTree.normalize ⟨"/p".toList⟩) []
        [["p".toList, "A.sol".toList]]).preorder ∧
      (g.Before ["p".toList, "B.sol".toList] ["p".toList, "C.sol".toList] ↔
        [["p".toList, "B.sol".toList], ["p".toList, "C.sol".toList]].Sublist
          (g.files.map SourceFile.location)) := by
  have hedges := edges_diamondTree
  have hentry : diamondTree.canonical? ⟨"A.sol".toList⟩ = some ["p".toList, "A.sol".toList] := by cbv
  cases hg : build diamondTree ⟨"A.sol".toList⟩ ⟨"/p".toList⟩ with
  | error e =>
    rw [hg] at hedges
    cases hedges
  | ok g =>
    rw [hg] at hedges
    have hlist : g.edges = _ := Except.ok.inj hedges
    obtain ⟨l, hl, hpre, -, hties⟩ := build_isDepthFirst hg
    obtain rfl : ["p".toList, "A.sol".toList] = l := Option.some.inj (hentry.symm.trans hl)
    -- the two lead to the third file alone, which leads nowhere
    have hend : ∀ u v, u = ["p".toList, "B.sol".toList] ∨ u = ["p".toList, "C.sol".toList] →
        Relation.TransGen (fun a b => (a, b) ∈ g.edges) u v → v = ["p".toList, "D.sol".toList] := by
      intro u v hu hway
      rw [hlist] at hway
      induction hway with
      | single hab =>
        rcases hu with rfl | rfl <;> simpa using hab
      | tail _ hbc ih =>
        rw [ih] at hbc
        simp at hbc
    refine ⟨g, rfl, hpre, hties _ _ (fun hway => ?_) fun hway => ?_⟩
    · exact absurd (hend _ _ (.inl rfl) hway) (by decide)
    · exact absurd (hend _ _ (.inr rfl) hway) (by decide)

end Graph

end FlatSol
