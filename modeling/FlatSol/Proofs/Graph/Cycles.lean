import FlatSol.Proofs.Graph.Tour

/-!
# Import cycles

While a graph is built, every file on the stack is imported by the file below it, so that the files
from an ancestor to the innermost one are a way along the edges, and an import of the ancestor closes
it. Main statement: the reported cycles are ways along the edges back to their first file, and every
such way takes an edge that closes a reported cycle.
-/

namespace FlatSol

open Build

variable {t : FileTree} {root : Path} {entry : Location} {g : Graph}

/-- A way along edges that comes back to its first file. -/
structure IsCircuit (edges : List (Location × Location)) (ls : List Location) : Prop where
  long : 2 ≤ ls.length
  closed : ls.head? = ls.getLast?
  linked : ls.IsChain fun u v => (u, v) ∈ edges

theorem IsCircuit.mono {es fs : List (Location × Location)} {ls : List Location}
    (h : IsCircuit es ls) (hsub : ∀ e ∈ es, e ∈ fs) : IsCircuit fs ls :=
  ⟨h.long, h.closed, h.linked.imp fun _ _ he => hsub _ he⟩

/-- A relation that is transitive and never holds of a file and itself does not hold all along a way
back to its first file. -/
theorem IsCircuit.not_isChain {es : List (Location × Location)} {ls : List Location}
    (h : IsCircuit es ls) {R : Location → Location → Prop} (htrans : ∀ u v w, R u v → R v w → R u w)
    (hirrefl : ∀ u, ¬ R u u) : ¬ ls.IsChain R := by
  intro hchain
  have : Trans R R R := ⟨fun huv hvw => htrans _ _ _ huv hvw⟩
  have hpairs := List.isChain_iff_pairwise.1 hchain
  obtain ⟨hlong, hclosed, -⟩ := h
  cases ls with
  | nil => simp at hlong
  | cons u us =>
    cases us with
    | nil => simp at hlong
    | cons v vs =>
      -- the first file is also the last one
      have hlast : u ∈ v :: vs := by
        rw [List.head?_cons, List.getLast?_cons_cons] at hclosed
        exact List.mem_of_getLast? hclosed.symm
      exact hirrefl u (List.rel_of_pairwise_cons hpairs hlast)

/-- Every file of a way but the last one has a next one. -/
theorem exists_next_of_mem_dropLast {R : Location → Location → Prop} {ls : List Location}
    (h : ls.IsChain R) {k : Location} (hk : k ∈ ls.dropLast) : ∃ j, R k j := by
  induction ls with
  | nil => exact absurd hk List.not_mem_nil
  | cons l ls ih =>
    cases ls with
    | nil => exact absurd hk List.not_mem_nil
    | cons j js =>
      obtain ⟨hlj, hrest⟩ := List.isChain_cons_cons.1 h
      rcases List.mem_cons.1 hk with rfl | hk
      · exact ⟨j, hlj⟩
      · exact ih hrest hk

namespace Graph

/-- A cycle of files as it is reported: a way along the edges back to its first file that comes to no
other file twice. -/
structure IsRing (g : Graph) (cycle : List Path) : Prop where
  circuit : ∃ ls, cycle = ls.map Location.path ∧ IsCircuit g.edges ls
  distinct : cycle.dropLast.Nodup

end Graph

/-! ### The ring that an import closes -/

/-- The locations of a ring. -/
def ringLocations (stack : List Frame) (target : Location) : List Location :=
  target :: ((stack.map Frame.location).takeWhile fun l => l != target).reverse ++ [target]

theorem ring_eq (stack : List Frame) (target : Location) :
    ring stack target = (ringLocations stack target).map Location.path := rfl

/-- The files of the stack from the innermost one on, down to `target`. -/
theorem takeWhile_concat_prefix {ls : List Location} {target : Location} (h : target ∈ ls) :
    (ls.takeWhile fun l => l != target) ++ [target] <+: ls := by
  induction ls with
  | nil => exact absurd h List.not_mem_nil
  | cons l ls ih =>
    by_cases hl : l = target
    · subst hl
      simp
    · have hmem : target ∈ ls := by
        rcases List.mem_cons.1 h with he | hmem
        · exact absurd he.symm hl
        · exact hmem
      rw [List.takeWhile_cons_of_pos (by simpa using hl), List.cons_append, List.cons_prefix_cons]
      exact ⟨rfl, ih hmem⟩

/-- If each file of the stack is imported by the one below it, and the innermost file imports one of
them, then the files between the two are a way back to the imported one. -/
theorem isCircuit_ringLocations {links : List (Location × Location)} {l target : Location}
    {p : List (ImportDirective × Resolution)} {below : List Frame}
    (hway : ((⟨l, p⟩ :: below).map Frame.location).IsChain fun k j => (j, k) ∈ links)
    (hlink : (l, target) ∈ links) (hmem : target ∈ (⟨l, p⟩ :: below).map Frame.location) :
    IsCircuit links (ringLocations (⟨l, p⟩ :: below) target) := by
  have hprefix := takeWhile_concat_prefix hmem
  have hchain : (target :: (((⟨l, p⟩ :: below).map Frame.location).takeWhile
      fun k => k != target).reverse).IsChain fun u v => (u, v) ∈ links := by
    have hup := hway.prefix hprefix
    have hdown := List.isChain_reverse.2 hup
    rw [List.reverse_append] at hdown
    exact hdown
  constructor
  case long => simp [ringLocations]
  case closed => simp [ringLocations, List.getLast?_cons]
  case linked =>
    refine List.isChain_append.2 ⟨hchain, List.isChain_singleton _, fun u hu v hv => ?_⟩
    obtain rfl : target = v := by simpa using hv
    -- the way ends at the innermost file
    have hul : u = l := by
      by_cases hl : l = target
      · subst hl
        simpa using hu.symm
      · rw [List.map_cons, List.takeWhile_cons_of_pos (by simpa using hl), List.reverse_cons,
          ← List.cons_append, List.getLast?_concat] at hu
        exact (Option.some.inj hu).symm
    rw [hul]
    exact hlink

theorem nodup_ringLocations {stack : List Frame} {target : Location}
    (h : (stack.map Frame.location).Nodup) : (ringLocations stack target).dropLast.Nodup := by
  rw [ringLocations, List.dropLast_concat, List.nodup_cons, List.nodup_reverse]
  refine ⟨fun hmem => ?_, h.sublist (List.takeWhile_sublist _)⟩
  have hne := List.all_eq_true.1 List.all_takeWhile target (List.mem_reverse.1 hmem)
  simp at hne

/-! ### What building keeps -/

/-- Each file on the stack is imported by the one below it, and each reported cycle is a way back to
its first file. -/
structure Ringed (b : Build) : Prop where
  way : (b.stack.map Frame.location).IsChain fun l below => (below, l) ∈ b.graph.links
  rings : ∀ cycle, .cyclicImport cycle ∈ b.graph.warnings →
    ∃ ls, cycle = ls.map Location.path ∧ IsCircuit b.graph.links ls ∧ ls.dropLast.Nodup

/-- A step that reports no cycle keeps this if it keeps the edges and puts no file on the stack. -/
theorem Ringed.pass {b c : Build} (h : Ringed b)
    (hs : c.stack.map Frame.location <:+ b.stack.map Frame.location)
    (hl : c.graph.links = b.graph.links)
    (hw : ∀ cycle, .cyclicImport cycle ∈ c.graph.warnings → .cyclicImport cycle ∈ b.graph.warnings) :
    Ringed c := by
  constructor
  case way =>
    rw [hl]
    exact h.way.suffix hs
  case rings =>
    rw [hl]
    exact fun cycle hm => h.rings cycle (hw cycle hm)

theorem Ringed.move {b c : Build} (m : Move t root b c) (hb : Traversed t root entry b)
    (h : Ringed b) : Ringed c := by
  have hn := hb.stackNodup
  have ha := hb.active
  cases m with
  | leave => exact h.pass (List.suffix_cons _ _) rfl fun _ hm => hm
  | unresolved => exact h.pass (List.suffix_refl _) rfl fun _ hm => hm
  | unreadable unknown fails =>
    refine h.pass (List.suffix_refl _) rfl fun cycle hm => ?_
    rcases List.mem_append.1 hm with hm | hm
    · exact hm
    · simp at hm
  | @known g l target d rest below active known =>
    have hsub : ∀ e ∈ g.links, e ∈ (meet ⟨g, [], active⟩ (⟨l, rest⟩ :: below) l target).links := by
      intro e he
      rw [links_meet]
      exact Graph.mem_links_link.2 (.inl he)
    have hway := h.way.imp fun _ _ he => hsub _ he
    refine ⟨hway, fun cycle hm => ?_⟩
    rcases mem_warnings_meet.1 hm with hm | ⟨hact, hring⟩
    · obtain ⟨ls, hls, hcircuit, hdistinct⟩ := h.rings cycle hm
      exact ⟨ls, hls, hcircuit.mono hsub, hdistinct⟩
    · have hlink : (l, target) ∈ (meet ⟨g, [], active⟩ (⟨l, rest⟩ :: below) l target).links := by
        rw [links_meet]
        exact Graph.mem_links_link.2 (.inr rfl)
      have hmem : target ∈ (⟨l, rest⟩ :: below).map Frame.location := ha ▸ hact
      exact ⟨_, (Warning.cyclicImport.inj hring).trans (ring_eq _ _),
        isCircuit_ringLocations hway hlink hmem, nodup_ringLocations hn⟩
  | @fresh g l target d text rest below active unknown reads =>
    have hlinks : ∀ e, e ∈ ((withFile t root (g.report (.following d.path l.path)) target
        text).link l target).links ↔ e ∈ g.links ∨ e = (l, target) := by
      intro e
      rw [Graph.mem_links_link, links_withFile, Graph.links_report]
    constructor
    case way =>
      refine List.isChain_cons_cons.2 ⟨(hlinks _).2 (.inr rfl), ?_⟩
      exact h.way.imp fun _ _ he => (hlinks _).2 (.inl he)
    case rings =>
      intro cycle hm
      rw [Graph.warnings_link, warnings_withFile] at hm
      rcases List.mem_append.1 hm with hm | hm
      · obtain ⟨ls, hls, hcircuit, hdistinct⟩ := h.rings cycle hm
        exact ⟨ls, hls, hcircuit.mono fun e he => (hlinks e).2 (.inl he), hdistinct⟩
      · exact absurd hm (cyclicImport_notMem_missing _ _ cycle)

theorem ringed_start {l : Location} {text : Text} : Ringed (start t root l text) := by
  rw [start_eq]
  refine ⟨List.isChain_singleton _, fun cycle hm => ?_⟩
  rw [warnings_withFile] at hm
  rcases List.mem_append.1 hm with hm | hm
  · exact absurd hm List.not_mem_nil
  · exact absurd hm (cyclicImport_notMem_missing _ _ cycle)

theorem ringed_of_build {entry : Path} (h : Graph.build t entry root = .ok g) :
    Ringed ⟨g, [], []⟩ := by
  obtain ⟨l, text, -, ht, rfl⟩ := Graph.exists_start_of_build h
  obtain ⟨c, ⟨-, hc⟩, hs, hg⟩ := Build.run_induction
    (P := fun b => Traversed t (t.normalize root) l b ∧ Ringed b)
    (fun b c m hb => ⟨Traversed.move m hb.1, hb.2.move m hb.1⟩) _
    ⟨traversed_start _ ht, ringed_start⟩
  rw [hg]
  exact ⟨List.isChain_nil, hc.rings⟩

/-! ### Reported cycles and circuits -/

namespace Graph

/-- Both ends of an edge are files of the graph. -/
theorem mem_locations_of_mem_links (h : Traversed t root entry ⟨g, [], []⟩) {u v : Location}
    (huv : (u, v) ∈ g.links) : u ∈ g.locations ∧ v ∈ g.locations := by
  have hu : u ∈ g.locations := h.sources _ huv
  obtain ⟨hd, hk⟩ := dependencies_of_traversed h hu
  have hv := mem_dependencies.2 huv
  rw [hd, List.mem_eraseDups] at hv
  exact ⟨hu, hk v hv⟩

theorem not_before_self (hn : g.locations.Nodup) (hp : g.orderedLocations.Perm g.locations)
    (u : Location) : ¬ g.Before u u := by
  intro h
  rw [Before, flattenOrder_map_location hn hp] at h
  exact absurd (h.nodup (hp.nodup_iff.2 hn)) (by simp)

/-- The files of a way along the edges have different paths if they are different. -/
theorem nodup_map_path {ls : List Location} (hn : ls.Nodup) (hp : ∀ l ∈ ls, l.Proper) :
    (ls.map Location.path).Nodup :=
  List.Nodup.map_on (fun l hl k hk he => Location.path_injective (hp l hl) (hp k hk) he) hn

variable {entry root : Path}

theorem isRing_of_mem_warnings (hw : t.WellFormed) (h : build t entry root = .ok g)
    {cycle : List Path} (hm : .cyclicImport cycle ∈ g.warnings) : g.IsRing cycle := by
  obtain ⟨l, hl, ht⟩ := traversed_of_build h
  obtain ⟨ls, rfl, hcircuit, hdistinct⟩ := (ringed_of_build h).rings cycle hm
  have hproper : ∀ k ∈ g.locations, k.Proper := fun k hk =>
    proper_of_stands hw (stands_of_reached hw (hw.stands_of_canonical hl) (ht.reached k hk))
  have hedges : ∀ e ∈ g.links, e ∈ g.edges := fun e he =>
    mem_edges.2 ⟨(mem_locations_of_mem_links ht he).1, he⟩
  have hfiles : ∀ k ∈ ls.dropLast, k ∈ g.locations := by
    intro k hk
    obtain ⟨j, hlink⟩ := exists_next_of_mem_dropLast hcircuit.linked hk
    exact (mem_locations_of_mem_links ht hlink).1
  refine ⟨⟨ls, rfl, hcircuit.mono hedges⟩, ?_⟩
  rw [← List.map_dropLast]
  exact nodup_map_path hdistinct fun k hk => hproper k (hfiles k hk)

theorem exists_closes_of_isCircuit (hw : t.WellFormed) (h : build t entry root = .ok g)
    {ls : List Location} (hc : IsCircuit g.edges ls) :
    ∃ u v, [u, v] <:+: ls ∧ g.Closes u v := by
  obtain ⟨l, -, ht, hline⟩ := lined_of_build hw h
  have heq : line g.orderedLocations ⟨g, [], []⟩ = g.orderedLocations := by simp [line]
  have hperm : g.orderedLocations.Perm g.locations := heq ▸ hline.perm
  by_contra hnone
  refine hc.not_isChain (R := fun u v => g.Before v u)
    (fun u v w huv hvw => before_trans ht.nodup hperm hvw huv)
    (not_before_self ht.nodup hperm) ?_
  -- an edge that closes no cycle points backward in the order
  refine List.isChain_iff_forall_rel_of_append_cons_cons.2 fun {u v xs ys} hls => ?_
  have hinfix : [u, v] <:+: ls := ⟨xs, ys, by rw [hls]; simp⟩
  have hedge : (u, v) ∈ g.edges := by
    have hlinked := hc.linked
    rw [hls] at hlinked
    exact (List.isChain_append_cons_cons.1 hlinked).2.1
  exact (before_iff_not_closes ht.nodup hline
    (fun e he => (mem_locations_of_mem_links ht he).2) hedge).2
      fun hcl => hnone ⟨u, v, hinfix, hcl⟩

/-- The reported cycles of a built graph are ways along its edges back to their first file that come to
no other file twice; every way along its edges back to its first file takes an edge that closes a
reported cycle; so a cycle is reported if and only if there is one. -/
theorem cyclicImport_complete (hw : t.WellFormed) (h : build t entry root = .ok g) :
    (∀ cycle, .cyclicImport cycle ∈ g.warnings → g.IsRing cycle) ∧
    (∀ ls, IsCircuit g.edges ls → ∃ u v, [u, v] <:+: ls ∧ g.Closes u v) ∧
    ((∃ cycle, .cyclicImport cycle ∈ g.warnings) ↔ ∃ ls, IsCircuit g.edges ls) := by
  refine ⟨fun cycle hm => isRing_of_mem_warnings hw h hm,
    fun ls hc => exists_closes_of_isCircuit hw h hc, ?_, ?_⟩
  · rintro ⟨cycle, hm⟩
    obtain ⟨⟨ls, -, hc⟩, -⟩ := isRing_of_mem_warnings hw h hm
    exact ⟨ls, hc⟩
  · rintro ⟨ls, hc⟩
    obtain ⟨u, v, -, cycle, hm, -⟩ := exists_closes_of_isCircuit hw h hc
    exact ⟨cycle, hm⟩

theorem warnings_ringTree :
    (build ringTree ⟨"A.sol".toList⟩ ⟨"/p".toList⟩).map (fun g => g.warnings) = .ok
      [.cyclicImport [⟨"/p/B.sol".toList⟩, ⟨"/p/C.sol".toList⟩, ⟨"/p/B.sol".toList⟩],
        .cyclicImport [⟨"/p/C.sol".toList⟩, ⟨"/p/C.sol".toList⟩],
        .cyclicImport [⟨"/p/A.sol".toList⟩, ⟨"/p/B.sol".toList⟩, ⟨"/p/A.sol".toList⟩],
        .unresolvedImport "./X.sol".toList ⟨"/p/A.sol".toList⟩ .unreadable] := by
  cbv

theorem cyclicImport_complete_ringTree :
    ringTree.WellFormed ∧ ∃ g, build ringTree ⟨"A.sol".toList⟩ ⟨"/p".toList⟩ = .ok g ∧
      g.IsRing [⟨"/p/B.sol".toList⟩, ⟨"/p/C.sol".toList⟩, ⟨"/p/B.sol".toList⟩] ∧
      ∃ ls, IsCircuit g.edges ls := by
  obtain ⟨g, hg⟩ := exists_build_ringTree
  have hwarnings := warnings_ringTree
  rw [hg] at hwarnings
  have hm : .cyclicImport [⟨"/p/B.sol".toList⟩, ⟨"/p/C.sol".toList⟩, ⟨"/p/B.sol".toList⟩] ∈
      g.warnings := by
    have hlist : g.warnings = _ := Except.ok.inj hwarnings
    rw [hlist]
    exact List.mem_cons_self
  obtain ⟨hrings, -, hiff⟩ := cyclicImport_complete ringTree_wellFormed hg
  exact ⟨ringTree_wellFormed, g, hg, hrings _ hm, hiff.1 ⟨_, hm⟩⟩

end Graph

end FlatSol
