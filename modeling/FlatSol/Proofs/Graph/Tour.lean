import FlatSol.Graph.Order
import FlatSol.Proofs.Graph.Closure

/-!
# The order of the files

The tour that writes a graph's files takes the same way as the traversal that built it. While both
go on, the files that were left stand before those being entered, the innermost one first; in this
line every import that is no closing edge of a reported cycle points backward, and no closing edge
does.
-/

namespace FlatSol

open Build

variable {t : FileTree} {root : Path} {entry : Location} {g : Graph}

/-- The files that a step of building leaves: those that it takes from the stack. -/
def Build.leftBy (b c : Build) : List Location :=
  (b.stack.map Frame.location).take (b.stack.length - c.stack.length)

theorem Build.leftBy_leave (γ : Graph) (l : Location) (below : List Frame)
    (active active' : List Location) :
    leftBy ⟨γ, ⟨l, []⟩ :: below, active⟩ ⟨γ, below, active'⟩ = [l] := by
  simp [leftBy]

namespace Tour

theorem run_of_step {s r : Tour} (h : step? g s = some r) : run g s = run g r := by
  rw [run]
  split
  · next hn => simp [hn] at h
  · next r' hr =>
    rw [hr] at h
    rw [Option.some.inj h]

theorem run_of_empty (u order : List Location) : run g ⟨[], u, order⟩ = order := by
  rw [run]
  split
  · rfl
  · next r hr => simp [step?] at hr

/-- A tour is at the place of the traversal that builds `g`: it has the same files on its stack, has
still to look at the edges that are not yet there, and has not come to the files that the traversal
has yet to find. -/
structure Mirrors (g : Graph) (b : Build) (s : Tour) : Prop where
  stack : s.stack.map Prod.fst = b.stack.map Frame.location
  pending : ∀ p ∈ s.stack, g.dependencies p.1 = b.graph.dependencies p.1 ++ p.2
  unvisited : ∀ l, l ∈ s.unvisited ↔ l ∈ g.locations ∧ l ∉ b.graph.locations
  nodup : s.unvisited.Nodup

theorem Mirrors.of_eq {b c : Build} {s : Tour} (h : Mirrors g b s)
    (hs : c.stack.map Frame.location = b.stack.map Frame.location)
    (hl : c.graph.links = b.graph.links) (hc : c.graph.locations = b.graph.locations) :
    Mirrors g c s := by
  refine ⟨by rw [hs]; exact h.stack, fun p hp => ?_, by rw [hc]; exact h.unvisited, h.nodup⟩
  rw [Graph.dependencies_of_links hl]
  exact h.pending p hp

/-- The pending edges of the innermost file, whose targets from `met` on are still to come. -/
theorem Mirrors.top {b : Build} {s : Tour} {l : Location} {rest : List Location}
    (h : Mirrors g b s) (hb : b.stack.map Frame.location = l :: rest) :
    ∃ ds below, s.stack = (l, ds) :: below ∧ below.map Prod.fst = rest ∧
      g.dependencies l = b.graph.dependencies l ++ ds := by
  have hs := h.stack
  rw [hb] at hs
  cases he : s.stack with
  | nil => simp [he] at hs
  | cons p below =>
    obtain ⟨k, ds⟩ := p
    simp only [he, List.map_cons, List.cons.injEq] at hs
    obtain ⟨rfl, hbelow⟩ := hs
    exact ⟨ds, below, rfl, hbelow, h.pending (k, ds) (by rw [he]; exact List.mem_cons_self)⟩

/-- The edge that the traversal adds is the next one that the tour looks at. -/
theorem pending_of_met {l target : Location} {met rest ds : List Location}
    (ht : targetsAt t root l = met ++ target :: rest)
    (hg : g.dependencies l = (targetsAt t root l).eraseDups)
    (hd : g.dependencies l = met.eraseDups ++ ds) (hm : target ∉ met) :
    ∃ ds', ds = target :: ds' := by
  rw [hg, ht, List.eraseDups_append] at hd
  have he : ((target :: rest).removeAll met).eraseDups = ds := List.append_cancel_left hd
  have hr : (target :: rest).removeAll met = target :: rest.removeAll met := by
    simp [List.removeAll, hm]
  rw [hr, List.eraseDups_cons] at he
  exact ⟨_, he.symm⟩

/-- When the innermost file meets the target in front, the edge is there, and it is no longer to come. -/
theorem Mirrors.pending_link {b c : Build} {s : Tour} {l target : Location} {ds : List Location}
    {below : List (Location × List Location)} (h : Mirrors g b s)
    (hn : (b.stack.map Frame.location).Nodup) (hs : s.stack = (l, target :: ds) :: below)
    (hl : c.graph.links = (b.graph.link l target).links) (hnew : target ∉ b.graph.dependencies l) :
    ∀ p ∈ (l, ds) :: below, g.dependencies p.1 = c.graph.dependencies p.1 ++ p.2 := by
  have hpending := h.pending
  rw [← h.stack, hs, List.map_cons, List.nodup_cons] at hn
  rw [hs] at hpending
  intro p hp
  rw [Graph.dependencies_of_links hl]
  rcases List.mem_cons.1 hp with rfl | hbelow
  · rw [Graph.dependencies_link_self, if_neg hnew, List.append_assoc]
    exact hpending _ List.mem_cons_self
  · have hne : p.1 ≠ l := fun he => hn.1 (he ▸ List.mem_map.2 ⟨p, hbelow, rfl⟩)
    rw [Graph.dependencies_link_of_ne hne]
    exact hpending p (List.mem_cons_of_mem _ hbelow)

/-- The tour looks at an edge to a file that it has come to already. -/
theorem Mirrors.skip {b c : Build} {s : Tour} {l target : Location} {ds : List Location}
    {below : List (Location × List Location)} (h : Mirrors g b s)
    (hn : (b.stack.map Frame.location).Nodup) (hs : s.stack = (l, target :: ds) :: below)
    (hcs : c.stack.map Frame.location = b.stack.map Frame.location)
    (hl : c.graph.links = (b.graph.link l target).links) (hnew : target ∉ b.graph.dependencies l)
    (hc : c.graph.locations = b.graph.locations) (hk : target ∈ b.graph.locations) :
    ∃ r, step? g s = some r ∧ r.order = s.order ∧ Mirrors g c r := by
  have hu : target ∉ s.unvisited := fun hm => ((h.unvisited target).1 hm).2 hk
  refine ⟨{ s with stack := (l, ds) :: below }, ?_, rfl, ?_, h.pending_link hn hs hl hnew, ?_,
    h.nodup⟩
  · simp [step?, hs, hu]
  · rw [hcs, ← h.stack, hs]
    rfl
  · rw [hc]
    exact h.unvisited

/-- The tour comes to a file when the traversal finds it. -/
theorem Mirrors.visit {b c : Build} {s : Tour} {l target : Location} {ds : List Location}
    {below : List (Location × List Location)} (h : Mirrors g b s)
    (hn : (target :: b.stack.map Frame.location).Nodup)
    (hs : s.stack = (l, target :: ds) :: below)
    (hcs : c.stack.map Frame.location = target :: b.stack.map Frame.location)
    (hl : c.graph.links = (b.graph.link l target).links) (hnew : target ∉ b.graph.dependencies l)
    (hnone : b.graph.dependencies target = [])
    (hc : c.graph.locations = b.graph.locations ++ [target]) (hk : target ∉ b.graph.locations)
    (hg : target ∈ g.locations) :
    ∃ r, step? g s = some r ∧ r.order = s.order ∧ Mirrors g c r := by
  have hu : target ∈ s.unvisited := (h.unvisited target).2 ⟨hg, hk⟩
  obtain ⟨htarget, hn⟩ := List.nodup_cons.1 hn
  refine ⟨{ s with
    stack := (target, g.dependencies target) :: (l, ds) :: below
    unvisited := s.unvisited.erase target }, ?_, rfl, ?_, ?_, ?_, h.nodup.erase target⟩
  · simp [step?, hs, hu]
  · rw [hcs, ← h.stack, hs]
    rfl
  · have hlt : target ≠ l := by
      rintro rfl
      exact htarget (by rw [← h.stack, hs]; exact List.mem_cons_self)
    intro p hp
    rcases List.mem_cons.1 hp with rfl | hp
    · rw [Graph.dependencies_of_links hl, Graph.dependencies_link_of_ne hlt, hnone, List.nil_append]
    · exact h.pending_link hn hs hl hnew p hp
  · intro k
    rw [h.nodup.mem_erase_iff, h.unvisited, hc]
    simp only [List.mem_append, List.mem_singleton, not_or]
    constructor
    · rintro ⟨hkt, hkg, hkb⟩
      exact ⟨hkg, hkb, hkt⟩
    · rintro ⟨hkg, hkb, hkt⟩
      exact ⟨hkt, hkg, hkb⟩

/-- Leaving a file: the tour has nothing left to look at in it. -/
theorem Mirrors.leave {b c : Build} {s : Tour} {l : Location} {rest : List Location}
    (h : Mirrors g b s) (hb : b.stack.map Frame.location = l :: rest)
    (hd : g.dependencies l = b.graph.dependencies l) (hcs : c.stack.map Frame.location = rest)
    (hc : c.graph = b.graph) :
    ∃ r, step? g s = some r ∧ r.order = s.order ++ [l] ∧ Mirrors g c r := by
  obtain ⟨ds, below, hs, hbelow, hds⟩ := h.top hb
  have hnil : ds = [] := by simpa [hd] using hds
  subst hnil
  refine ⟨{ s with stack := below, order := s.order ++ [l] }, ?_, rfl, ?_, ?_, ?_, h.nodup⟩
  · simp [step?, hs]
  · rw [hcs, ← hbelow]
  · intro p hp
    rw [hc]
    exact h.pending p (by rw [hs]; exact List.mem_cons_of_mem _ hp)
  · rw [hc]
    exact h.unvisited

/-- The target that the traversal meets next is the one that the tour has in front, if the edge to it
is new. -/
theorem Mirrors.next {b : Build} {s : Tour} {l target : Location} {text : Text}
    {d : ImportDirective} {rest : List (ImportDirective × Resolution)} {below : List Frame}
    (h : Mirrors g b s) (ht : Traversed t root entry b)
    (hb : b.stack = ⟨l, (d, .resolved target) :: rest⟩ :: below) (hr : t.textAt target = .ok text)
    (hdeps : g.dependencies l = (targetsAt t root l).eraseDups)
    (hnew : target ∉ b.graph.dependencies l) :
    target ∈ targetsAt t root l ∧ ∃ ds fs, s.stack = (l, target :: ds) :: fs := by
  obtain ⟨met, hs, hd, -⟩ := ht.met l (ht.stackKnown l (by simp [hb]))
  obtain ⟨ds, fs, hstack, -, hds⟩ := h.top (by rw [hb]; rfl)
  rw [hb, pendingTargets_cons_self, targetsOf_cons_of_textAt hr] at hs
  have hmet : target ∉ met := fun he => hnew (by rw [hd]; exact List.mem_eraseDups.2 he)
  have hds' : g.dependencies l = met.eraseDups ++ ds := hd ▸ hds
  obtain ⟨ds', rfl⟩ := pending_of_met hs hdeps hds' hmet
  exact ⟨by rw [hs]; simp, ds', fs, hstack⟩

/-- The tour looks at what the traversal looks at, and leaves the files that it leaves. -/
theorem Mirrors.move {b c : Build} {s : Tour} (m : Move t root b c)
    (ht : Traversed t root entry b) (hg : Traversed t root entry ⟨g, [], []⟩)
    (h : Mirrors g b s) :
    ∃ r, run g s = run g r ∧ r.order = s.order ++ leftBy b c ∧ Mirrors g c r := by
  have hsub : ∀ l ∈ b.graph.locations, l ∈ g.locations := fun l hl =>
    (mem_locations_iff_reached hg l).2 (ht.reached l hl)
  have hdeps : ∀ l ∈ b.graph.locations, g.dependencies l = (targetsAt t root l).eraseDups :=
    fun l hl => (dependencies_of_traversed hg (hsub l hl)).1
  have hn := ht.stackNodup
  cases m with
  | @leave γ l below active =>
    have hl : l ∈ γ.locations := ht.stackKnown l (by simp)
    obtain ⟨met, hs, hd, -⟩ := ht.met l hl
    have hall : g.dependencies l = γ.dependencies l := by
      rw [hdeps l hl, hs, hd, pendingTargets_cons_self]
      simp [targetsOf]
    obtain ⟨r, hstep, horder, hr⟩ := h.leave (c := ⟨γ, below, active.erase l⟩) rfl hall rfl rfl
    exact ⟨r, run_of_step hstep, by rw [horder, leftBy_leave], hr⟩
  | unresolved => exact ⟨s, rfl, by simp [leftBy], h.of_eq rfl rfl rfl⟩
  | unreadable => exact ⟨s, rfl, by simp [leftBy], h.of_eq rfl rfl rfl⟩
  | @known γ l target d rest below active known =>
    have hl : l ∈ γ.locations := ht.stackKnown l (by simp)
    obtain ⟨text, hr⟩ := ht.textAt known
    by_cases hnew : target ∈ γ.dependencies l
    · -- the edge is there already, and the tour has looked at it
      have hlink : (γ.link l target).links = γ.links := by
        rw [Graph.link, if_pos (Graph.mem_dependencies.1 hnew)]
      exact ⟨s, rfl, by simp [leftBy], h.of_eq rfl (by simp [hlink]) (by simp)⟩
    · obtain ⟨-, ds, fs, hstack⟩ := h.next ht rfl hr (hdeps l hl) hnew
      obtain ⟨r, hstep, horder, hmr⟩ := h.skip
        (c := ⟨meet ⟨γ, [], active⟩ (⟨l, rest⟩ :: below) l target, ⟨l, rest⟩ :: below, active⟩)
        hn hstack rfl (by simp) hnew (by simp) known
      exact ⟨r, run_of_step hstep, by simp [leftBy, horder], hmr⟩
  | @fresh γ l target d text rest below active unknown reads =>
    have hl : l ∈ γ.locations := ht.stackKnown l (by simp)
    have hnew : target ∉ γ.dependencies l := fun he => by
      obtain ⟨met, -, hd, hk⟩ := ht.met l hl
      rw [hd] at he
      exact unknown (hk target (List.mem_eraseDups.1 he))
    obtain ⟨htl, ds, fs, hstack⟩ := h.next ht rfl reads (hdeps l hl) hnew
    have htarget := reached_of_mem_targetsAt (ht.reached l hl) htl
    have hlinks : ((withFile t root (γ.report (.following d.path l.path)) target text).link l
        target).links = (γ.link l target).links :=
      Graph.links_link_of_links (by simp) l target
    have hfresh : (target :: (⟨l, (d, .resolved target) :: rest⟩ :: below).map
        Frame.location).Nodup :=
      List.nodup_cons.2 ⟨fun hm => unknown (ht.stackKnown target hm), hn⟩
    obtain ⟨r, hstep, horder, hmr⟩ := h.visit
      (c := ⟨(withFile t root (γ.report (.following d.path l.path)) target text).link l target,
        ⟨target, importsOf t root target text⟩ :: ⟨l, rest⟩ :: below, target :: active⟩)
      hfresh hstack rfl hlinks hnew (ht.dependencies_of_unknown unknown) (by simp) unknown
      ((mem_locations_iff_reached hg target).2 htarget)
    exact ⟨r, run_of_step hstep, by simp [leftBy, horder], hmr⟩

end Tour

/-! ### Cycles and the line of files -/

/-- The pair of files whose import closes a reported cycle. -/
def Graph.Closes (g : Graph) (source target : Location) : Prop :=
  ∃ cycle, .cyclicImport cycle ∈ g.warnings ∧ [source.path, target.path] <:+ cycle

theorem Graph.Closes.mono {h : Graph} {s d : Location} (hc : g.Closes s d)
    (hw : ∀ w ∈ g.warnings, w ∈ h.warnings) : h.Closes s d := by
  obtain ⟨cycle, hm, hs⟩ := hc
  exact ⟨cycle, hw _ hm, hs⟩

theorem Graph.Closes.of_warnings {h : Graph} {s d : Location} {ws : List Warning}
    (hc : h.Closes s d) (hw : h.warnings = g.warnings ++ ws)
    (hws : ∀ cycle, .cyclicImport cycle ∉ ws) : g.Closes s d := by
  obtain ⟨cycle, hm, hs⟩ := hc
  rw [hw] at hm
  rcases List.mem_append.1 hm with hm | hm
  · exact ⟨cycle, hm, hs⟩
  · exact absurd hm (hws cycle)

theorem cyclicImport_notMem_missing (l : Location) (imports : List (ImportDirective × Resolution))
    (cycle : List Path) : .cyclicImport cycle ∉ missing l imports := by
  intro hm
  obtain ⟨i, -, hi⟩ := List.mem_filterMap.1 hm
  split at hi <;> simp at hi

/-- A cycle ends with the import that closes it. -/
theorem suffix_ring (l target : Location) (p : List (ImportDirective × Resolution))
    (below : List Frame) : [l.path, target.path] <:+ ring (⟨l, p⟩ :: below) target := by
  by_cases h : l = target
  · subst h
    simp [ring]
  · refine ⟨(target :: ((below.map Frame.location).takeWhile fun k => k != target).reverse).map
      Location.path, ?_⟩
    simp [ring, h]

theorem eq_of_pair_suffix {α : Type} {a b c d : α} {xs : List α} (h : [a, b] <:+ xs)
    (h' : [c, d] <:+ xs) : a = c ∧ b = d := by
  obtain ⟨ys, rfl⟩ := h
  obtain ⟨zs, hz⟩ := h'
  have hp := List.append_inj_right' hz rfl
  simp only [List.cons.injEq, and_true] at hp
  exact ⟨hp.1.symm, hp.2.symm⟩

/-- A pair closes a cycle behind an import if it did so before, or if it is the import of a file that
is being entered. -/
theorem closes_meet_iff {b : Build} {below : List Frame} {l target u v : Location}
    {p : List (ImportDirective × Resolution)} :
    (meet b (⟨l, p⟩ :: below) l target).Closes u v ↔ b.graph.Closes u v ∨
      target ∈ b.active ∧ u.path = l.path ∧ v.path = target.path := by
  constructor
  · rintro ⟨cycle, hm, hs⟩
    rcases mem_warnings_meet.1 hm with hm | ⟨hact, hring⟩
    · exact .inl ⟨cycle, hm, hs⟩
    · obtain rfl := Warning.cyclicImport.inj hring
      exact .inr ⟨hact, eq_of_pair_suffix hs (suffix_ring l target p below)⟩
  · rintro (⟨cycle, hm, hs⟩ | ⟨hact, hu, hv⟩)
    · exact ⟨cycle, mem_warnings_meet.2 (.inl hm), hs⟩
    · refine ⟨ring (⟨l, p⟩ :: below) target, mem_warnings_meet.2 (.inr ⟨hact, rfl⟩), ?_⟩
      rw [hu, hv]
      exact suffix_ring l target p below

theorem pair_sublist_of_mem {α : Type} {a b : α} {xs ys : List α} (zs : List α) (ha : a ∈ xs)
    (hb : b ∈ ys) : [a, b].Sublist (xs ++ ys ++ zs) := by
  have h := (List.singleton_sublist.2 ha).append (List.singleton_sublist.2 hb)
  exact h.trans (List.sublist_append_left _ _)

theorem pair_asymm {α : Type} {a b : α} {xs : List α} (hn : xs.Nodup) (h : [a, b].Sublist xs) :
    ¬ [b, a].Sublist xs := by
  induction xs with
  | nil => simp at h
  | cons x xs ih =>
    obtain ⟨hx, hn⟩ := List.nodup_cons.1 hn
    intro h'
    -- an element that is in front is not behind
    rcases List.sublist_cons_iff.1 h with h | ⟨r, hr, h⟩
    · rcases List.sublist_cons_iff.1 h' with h' | ⟨r', hr', -⟩
      · exact ih hn h h'
      · have hb : b = x := (List.cons.inj hr').1
        exact hx (hb ▸ h.subset (by simp))
    · have ha : a = x := (List.cons.inj hr).1
      rcases List.sublist_cons_iff.1 h' with h' | ⟨r', hr', h'⟩
      · exact hx (ha ▸ h'.subset (by simp))
      · obtain rfl := (List.cons.inj hr').2
        exact hx (ha ▸ h'.subset (by simp))

theorem pair_trans {α : Type} {a b c : α} {xs : List α} (hn : xs.Nodup) (h : [a, b].Sublist xs)
    (h' : [b, c].Sublist xs) : [a, c].Sublist xs := by
  induction xs with
  | nil => simp at h
  | cons x xs ih =>
    obtain ⟨hx, hn⟩ := List.nodup_cons.1 hn
    rcases List.sublist_cons_iff.1 h' with h' | ⟨r', hr', h'⟩
    · rcases List.sublist_cons_iff.1 h with h | ⟨r, hr, h⟩
      · exact (ih hn h h').cons x
      · rw [(List.cons.inj hr).1]
        exact (List.singleton_sublist.2 (h'.subset (by simp))).cons_cons x
    · have hb : b = x := (List.cons.inj hr').1
      rcases List.sublist_cons_iff.1 h with h | ⟨r, hr, h⟩
      · exact absurd (hb ▸ h.subset (by simp)) hx
      · obtain rfl := (List.cons.inj hr).2
        exact absurd (hb ▸ h.subset (by simp)) hx

/-- The files that were left and, behind them, those being entered. -/
def line (order : List Location) (b : Build) : List Location :=
  order ++ b.stack.map Frame.location

/-- What holds of the line at every moment: it has every file found so far, and the entry at its
end; an edge points backward in it unless it closes a reported cycle, and then it does not. -/
structure Lined (entry : Location) (b : Build) (order : List Location) : Prop where
  perm : (line order b).Perm b.graph.locations
  last : (line order b).getLast? = some entry
  backward : ∀ u v, (u, v) ∈ b.graph.links →
    b.graph.Closes u v ∨ [v, u].Sublist (line order b)
  forward : ∀ u v, u ∈ b.graph.locations → v ∈ b.graph.locations → b.graph.Closes u v →
    u = v ∨ [u, v].Sublist (line order b)
  found : ∀ u v, b.graph.Closes u v → u.path ∈ b.graph.locations.map Location.path ∧
    v.path ∈ b.graph.locations.map Location.path

theorem Lined.pass {b c : Build} {order order' : List Location} (h : Lined entry b order)
    (hline : line order' c = line order b) (hc : c.graph.locations = b.graph.locations)
    (hl : c.graph.links = b.graph.links)
    (hw : ∀ u v, c.graph.Closes u v ↔ b.graph.Closes u v) : Lined entry c order' := by
  constructor
  case perm =>
    rw [hline, hc]
    exact h.perm
  case last =>
    rw [hline]
    exact h.last
  case backward =>
    intro u v huv
    rw [hl] at huv
    rw [hline, hw]
    exact h.backward u v huv
  case forward =>
    intro u v hu hv huv
    rw [hc] at hu hv
    rw [hline]
    exact h.forward u v hu hv ((hw u v).1 huv)
  case found =>
    intro u v huv
    rw [hc]
    exact h.found u v ((hw u v).1 huv)

/-- An import of a file that is being entered closes a cycle; one of a file that was left does
not. -/
theorem Lined.meets {b c : Build} {order : List Location} {l target : Location}
    {rest : List Location} {p : List (ImportDirective × Resolution)} {below : List Frame}
    (h : Lined entry b order) (hb : b.stack.map Frame.location = l :: rest)
    (hcs : c.stack.map Frame.location = b.stack.map Frame.location)
    (ha : b.active = b.stack.map Frame.location)
    (hg : c.graph = meet b (⟨l, p⟩ :: below) l target)
    (hl : l ∈ b.graph.locations) (ht : target ∈ b.graph.locations)
    (hp : ∀ k ∈ b.graph.locations, k.Proper) : Lined entry c order := by
  have hline : line order c = line order b := by simp only [line, hcs]
  have hc : c.graph.locations = b.graph.locations := by simp [hg]
  have hmem : target ∈ order ∨ target ∈ b.stack.map Frame.location := by
    have hm := h.perm.mem_iff.2 ht
    exact List.mem_append.1 hm
  have hclose : ∀ u v, c.graph.Closes u v ↔ b.graph.Closes u v ∨
      target ∈ b.active ∧ u.path = l.path ∧ v.path = target.path := by
    intro u v
    rw [hg]
    exact closes_meet_iff
  constructor
  case perm =>
    rw [hline, hc]
    exact h.perm
  case last =>
    rw [hline]
    exact h.last
  case backward =>
    intro u v huv
    rw [hg, links_meet, Graph.mem_links_link] at huv
    rcases huv with huv | huv
    · rw [hline]
      exact (h.backward u v huv).imp_left fun hcl => (hclose u v).2 (.inl hcl)
    · obtain ⟨rfl, rfl⟩ := Prod.mk.inj huv
      rcases hmem with hm | hm
      · refine .inr ?_
        have hu : u ∈ b.stack.map Frame.location := by simp [hb]
        simpa only [line, hcs, List.append_nil] using pair_sublist_of_mem [] hm hu
      · exact .inl ((hclose u v).2 (.inr ⟨ha ▸ hm, rfl, rfl⟩))
  case forward =>
    intro u v hu hv hcl
    rw [hc] at hu hv
    rw [hline]
    rcases (hclose u v).1 hcl with hcl | ⟨hact, hul, hvt⟩
    · exact h.forward u v hu hv hcl
    · obtain rfl := Location.path_injective (hp u hu) (hp l hl) hul
      obtain rfl := Location.path_injective (hp v hv) (hp target ht) hvt
      rw [ha, hb] at hact
      rcases List.mem_cons.1 hact with he | hact
      · exact .inl he.symm
      · refine .inr ?_
        have hpair := (List.singleton_sublist.2 hact).cons_cons u
        rw [line, hb]
        exact hpair.trans (List.sublist_append_right _ _)
  case found =>
    intro u v hcl
    rw [hc]
    rcases (hclose u v).1 hcl with hcl | ⟨-, hul, hvt⟩
    · exact h.found u v hcl
    · rw [hul, hvt]
      exact ⟨List.mem_map_of_mem hl, List.mem_map_of_mem ht⟩

theorem Lined.enters {b c : Build} {order : List Location} {l target : Location}
    {rest : List Location} {text : Text} {g' : Graph} (h : Lined entry b order)
    (hb : b.stack.map Frame.location = l :: rest)
    (hcs : c.stack.map Frame.location = target :: b.stack.map Frame.location)
    (hg : c.graph = (withFile t root g' target text).link l target)
    (hf : g'.files = b.graph.files) (hl : g'.links = b.graph.links)
    (hw : g'.warnings = b.graph.warnings)
    (hp : ∀ k ∈ target :: b.graph.locations, k.Proper) : Lined entry c order := by
  have hc : c.graph.locations = b.graph.locations ++ [target] := by
    simp [hg, Graph.locations, hf, sourceFile]
  have hwarn : c.graph.warnings =
      b.graph.warnings ++ missing target (importsOf t root target text) := by
    rw [hg, ← hw, ← warnings_withFile]
    unfold Graph.link
    split <;> rfl
  have hsub : (line order b).Sublist (line order c) := by
    simp only [line, hcs]
    exact (List.sublist_cons_self _ _).append_left _
  have hclose : ∀ u v, c.graph.Closes u v → b.graph.Closes u v := fun u v hcl =>
    hcl.of_warnings hwarn fun cycle => cyclicImport_notMem_missing _ _ cycle
  -- the new file has no part in a cycle that was reported before it was found
  have hknown : ∀ u ∈ c.graph.locations, u.path ∈ b.graph.locations.map Location.path →
      u ∈ b.graph.locations := by
    intro u huc hup
    obtain ⟨k, hk, he⟩ := List.mem_map.1 hup
    have hpu : u.Proper := by
      rw [hc] at huc
      rcases List.mem_append.1 huc with huc | huc
      · exact hp u (List.mem_cons_of_mem _ huc)
      · exact hp u (by rw [List.mem_singleton.1 huc]; exact List.mem_cons_self)
    exact Location.path_injective (hp k (List.mem_cons_of_mem _ hk)) hpu he ▸ hk
  constructor
  case perm =>
    rw [hc, line, hcs]
    refine List.perm_middle.trans ?_
    exact (h.perm.cons target).trans (List.perm_append_singleton _ _).symm
  case last =>
    have hlast := h.last
    rw [line, hb] at hlast
    rw [line, hcs, hb]
    simpa [List.getLast?_append, List.getLast?_cons] using hlast
  case backward =>
    intro u v huv
    rw [hg, Graph.mem_links_link, links_withFile, hl] at huv
    rcases huv with huv | huv
    · exact (h.backward u v huv).imp (fun hcl => hcl.mono fun w hm => by
        rw [hwarn]
        exact List.mem_append_left _ hm) fun hsl => hsl.trans hsub
    · obtain ⟨rfl, rfl⟩ := Prod.mk.inj huv
      refine .inr ?_
      rw [line, hcs, hb]
      have hpair : [v, u].Sublist (v :: u :: rest) :=
        (List.singleton_sublist.2 List.mem_cons_self).cons_cons v
      exact hpair.trans (List.sublist_append_right _ _)
  case forward =>
    intro u v hu hv hcl
    have hcb := hclose u v hcl
    obtain ⟨hup, hvp⟩ := h.found u v hcb
    have hfw := h.forward u v (hknown u hu hup) (hknown v hv hvp) hcb
    exact hfw.imp_right fun hsl => hsl.trans hsub
  case found =>
    intro u v hcl
    obtain ⟨hup, hvp⟩ := h.found u v (hclose u v hcl)
    rw [hc, List.map_append]
    exact ⟨List.mem_append_left _ hup, List.mem_append_left _ hvp⟩

/-- The files that a step leaves go from the stack to the end of those left before. -/
theorem Lined.move {b c : Build} {order : List Location} (m : Move t root b c)
    (ht : Traversed t root entry b) (hp : ∀ l, Reached t root entry l → l.Proper)
    (h : Lined entry b order) : Lined entry c (order ++ leftBy b c) := by
  have hproper : ∀ l ∈ b.graph.locations, l.Proper := fun l hl => hp l (ht.reached l hl)
  cases m with
  | leave => exact h.pass (by simp [line, leftBy]) rfl rfl fun _ _ => .rfl
  | unresolved => exact h.pass (by simp [line, leftBy]) rfl rfl fun _ _ => .rfl
  | @unreadable γ l target d fault rest below active unknown fails =>
    refine h.pass (by simp [line, leftBy]) rfl rfl fun u v => ?_
    have hws : ∀ cycle,
        .cyclicImport cycle ∉ [Warning.unresolvedImport d.path l.path .unreadable] := by simp
    exact ⟨fun hc => hc.of_warnings rfl hws,
      fun hc => hc.mono fun w hw => List.mem_append_left _ hw⟩
  | @known γ l target d rest below active known =>
    have hnone : leftBy ⟨γ, ⟨l, (d, .resolved target) :: rest⟩ :: below, active⟩
        ⟨meet ⟨γ, [], active⟩ (⟨l, rest⟩ :: below) l target, ⟨l, rest⟩ :: below, active⟩ = [] := by
      simp [leftBy]
    rw [hnone, List.append_nil]
    exact h.meets rfl rfl ht.active rfl (ht.stackKnown l (by simp)) known hproper
  | @fresh γ l target d text rest below active unknown reads =>
    have hnone : leftBy ⟨γ, ⟨l, (d, .resolved target) :: rest⟩ :: below, active⟩
        ⟨(withFile t root (γ.report (.following d.path l.path)) target text).link l target,
          ⟨target, importsOf t root target text⟩ :: ⟨l, rest⟩ :: below, target :: active⟩ = [] := by
      simp [leftBy]
    rw [hnone, List.append_nil]
    refine h.enters rfl rfl rfl rfl rfl rfl fun k hk => ?_
    rcases List.mem_cons.1 hk with rfl | hk
    · refine hp _ (reached_of_mem_targetsAt (ht.reached l (ht.stackKnown l (by simp))) ?_)
      obtain ⟨met, hs, -, -⟩ := ht.met l (ht.stackKnown l (by simp))
      rw [hs, pendingTargets_cons_self, targetsOf_cons_of_textAt reads]
      simp
    · exact hproper k hk

/-! ### The tour and the traversal together -/

/-- A tour of `g` from `first` on has come to where the traversal that builds `g` is, and what it has
left by then is as `P` says. -/
def Accompanied (g : Graph) (first : Tour) (P : List Location → Build → Prop) (b : Build) : Prop :=
  ∃ s, Tour.Mirrors g b s ∧ Tour.run g first = Tour.run g s ∧ P s.order b

theorem Accompanied.move {first : Tour} {P : List Location → Build → Prop} {b c : Build}
    (m : Move t root b c) (ht : Traversed t root entry b)
    (hg : Traversed t root entry ⟨g, [], []⟩)
    (keep : ∀ order, P order b → P (order ++ leftBy b c) c) (h : Accompanied g first P b) :
    Accompanied g first P c := by
  obtain ⟨s, hm, hrun, hs⟩ := h
  obtain ⟨r, hr, horder, hmr⟩ := hm.move m ht hg
  exact ⟨r, hmr, hrun.trans hr, horder ▸ keep s.order hs⟩

theorem lined_start {l : Location} {text : Text} : Lined l (start t root l text) [] := by
  rw [start_eq]
  have hloc : (withFile t root .empty l text).locations = [l] := locations_withFile_empty l text
  have hlinks : (withFile t root .empty l text).links = [] := links_withFile_empty l text
  have hnone : ∀ u v, ¬ (withFile t root .empty l text).Closes u v := by
    rintro u v ⟨cycle, hm, -⟩
    rw [warnings_withFile] at hm
    rcases List.mem_append.1 hm with hm | hm
    · exact absurd hm List.not_mem_nil
    · exact cyclicImport_notMem_missing _ _ cycle hm
  refine ⟨?_, rfl, ?_, fun u v _ _ hc => absurd hc (hnone u v), fun u v hc => absurd hc (hnone u v)⟩
  · rw [hloc]
    exact List.Perm.refl _
  · intro u v huv
    rw [hlinks] at huv
    exact absurd huv List.not_mem_nil

theorem accompanied_start {l : Location} {text : Text} {P : List Location → Build → Prop}
    (hP : P [] (start t root l text)) (hg : Traversed t root l ⟨g, [], []⟩)
    {others : List Location} (ho : g.locations = l :: others) :
    Accompanied g ⟨[(l, g.dependencies l)], others, []⟩ P (start t root l text) := by
  have hn := hg.nodup
  simp only [ho, List.nodup_cons] at hn
  have hdeps : (start t root l text).graph.dependencies l = [] := by
    rw [start_eq, Graph.dependencies, links_withFile_empty]
    rfl
  have hloc : (start t root l text).graph.locations = [l] := by
    rw [start_eq, locations_withFile_empty]
  refine ⟨_, ⟨rfl, ?_, ?_, hn.2⟩, rfl, hP⟩
  · intro p hp
    rw [List.mem_singleton.1 hp, hdeps, List.nil_append]
  · intro k
    rw [hloc, ho, List.mem_singleton, List.mem_cons]
    constructor
    · exact fun hk => ⟨.inr hk, fun he => hn.1 (he ▸ hk)⟩
    · rintro ⟨rfl | hk, hne⟩
      · exact absurd rfl hne
      · exact hk

namespace Graph

variable {entry root : Path}

/-- What holds at the start of building, and is kept when the files that a step leaves are put behind
those left before, holds of the order of the built graph's files. -/
theorem order_induction {l : Location} {P : List Location → Build → Prop}
    (h : build t entry root = .ok g) (hl : t.canonical? entry = some l)
    (base : ∀ text, t.textAt l = .ok text → P [] (start t (t.normalize root) l text))
    (keep : ∀ b c order, Move t (t.normalize root) b c →
      Traversed t (t.normalize root) l b → P order b → P (order ++ leftBy b c) c) :
    Traversed t (t.normalize root) l ⟨g, [], []⟩ ∧ P g.orderedLocations ⟨g, [], []⟩ := by
  obtain ⟨k, text, hk, ht, hg⟩ := exists_start_of_build h
  obtain ⟨k', hk', htg⟩ := traversed_of_build h
  obtain rfl : k = l := Option.some.inj (hk.symm.trans hl)
  obtain rfl : k = k' := Option.some.inj (hk.symm.trans hk')
  obtain ⟨others, ho⟩ : ∃ others, g.locations = k :: others := by
    have hhead := htg.head
    cases hg : g.locations with
    | nil => simp [hg] at hhead
    | cons j js => exact ⟨js, by rw [show j = k by simpa [hg] using hhead]⟩
  obtain ⟨c, ⟨hct, s, hm, hrun, hP⟩, hs, hgc⟩ := Build.run_induction
    (P := fun b => Traversed t (t.normalize root) k b ∧
      Accompanied g ⟨[(k, g.dependencies k)], others, []⟩ P b)
    (fun b c m hb => ⟨hb.1.move m, hb.2.move m hb.1 htg fun order => keep b c order m hb.1⟩) _
    ⟨traversed_start _ ht, accompanied_start (base text ht) htg ho⟩
  rw [← hg] at hgc
  have hsnil : s.stack = [] := by
    have hst := hm.stack
    rw [hs] at hst
    simpa using hst
  have horder : g.orderedLocations = s.order := by
    rw [orderedLocations, ho]
    simp only
    rw [hrun]
    obtain ⟨stack, unvisited, order⟩ := s
    simp only at hsnil
    rw [hsnil, Tour.run_of_empty]
  obtain ⟨graph, stack, active⟩ := c
  simp only at hs hgc
  obtain rfl := hs
  obtain rfl : active = [] := hct.active
  refine ⟨htg, ?_⟩
  rw [horder, hgc]
  exact hP

/-- The order of a built graph's files is the line that the traversal leaves behind. -/
theorem lined_of_build (hw : t.WellFormed) (h : build t entry root = .ok g) :
    ∃ l, t.canonical? entry = some l ∧ Traversed t (t.normalize root) l ⟨g, [], []⟩ ∧
      Lined l ⟨g, [], []⟩ g.orderedLocations := by
  obtain ⟨l, hl, -⟩ := traversed_of_build h
  have hproper : ∀ k, Reached t (t.normalize root) l k → k.Proper := fun k hk =>
    proper_of_stands hw (stands_of_reached hw (hw.stands_of_canonical hl) hk)
  exact ⟨l, hl, order_induction (P := fun order b => Lined l b order) h hl (fun _ _ => lined_start)
    fun b c order m ht hline => hline.move m ht hproper⟩

theorem fileAt_location (hn : g.locations.Nodup) {f : SourceFile} (hf : f ∈ g.files) :
    g.fileAt? f.location = some f := by
  have key : ∀ fs : List SourceFile, (fs.map SourceFile.location).Nodup → f ∈ fs →
      fs.find? (fun x => x.location == f.location) = some f := by
    intro fs
    induction fs with
    | nil => simp
    | cons x xs ih =>
      intro hn hf
      simp only [List.map_cons, List.nodup_cons] at hn
      rcases List.mem_cons.1 hf with rfl | hf
      · simp
      · have hne : x.location ≠ f.location := fun he =>
          hn.1 (he ▸ List.mem_map.2 ⟨f, hf, rfl⟩)
        rw [List.find?_cons_of_neg (by simpa using hne)]
        exact ih hn.2 hf
  exact key g.files hn hf

theorem flattenOrder_map_location (hn : g.locations.Nodup)
    (hp : g.orderedLocations.Perm g.locations) :
    g.flattenOrder.map SourceFile.location = g.orderedLocations := by
  have key : ∀ ls : List Location, (∀ l ∈ ls, l ∈ g.locations) →
      (ls.filterMap g.fileAt?).map SourceFile.location = ls := by
    intro ls
    induction ls with
    | nil => simp
    | cons l ls ih =>
      intro hls
      obtain ⟨f, hf, rfl⟩ := List.mem_map.1 (hls l List.mem_cons_self)
      rw [List.filterMap_cons_some (fileAt_location hn hf), List.map_cons,
        ih fun k hk => hls k (List.mem_cons_of_mem _ hk)]
  exact key _ fun l hl => hp.subset hl

theorem flattenOrder_perm (hn : g.locations.Nodup) (hp : g.orderedLocations.Perm g.locations) :
    g.flattenOrder.Perm g.files := by
  have h := hp.filterMap g.fileAt?
  have hall : g.locations.filterMap g.fileAt? = g.files := by
    rw [locations, List.filterMap_map]
    have hc : ∀ f ∈ g.files, (g.fileAt? ∘ SourceFile.location) f = some f := fun f hf =>
      fileAt_location hn hf
    rw [List.filterMap_congr hc, List.filterMap_some]
  rw [hall] at h
  exact h

/-- One file is written before another. -/
def Before (g : Graph) (first second : Location) : Prop :=
  [first, second].Sublist (g.flattenOrder.map SourceFile.location)

theorem before_iff_not_closes {l : Location} (hn : g.locations.Nodup)
    (h : Lined l ⟨g, [], []⟩ g.orderedLocations) (ht : ∀ e ∈ g.links, e.2 ∈ g.locations)
    {u v : Location} (huv : (u, v) ∈ g.edges) : g.Before v u ↔ ¬ g.Closes u v := by
  obtain ⟨hu, hlink⟩ := mem_edges.1 huv
  have hline : line g.orderedLocations ⟨g, [], []⟩ = g.orderedLocations := by simp [line]
  have hperm : g.orderedLocations.Perm g.locations := hline ▸ h.perm
  have hnodup : g.orderedLocations.Nodup := hperm.nodup_iff.2 hn
  rw [Before, flattenOrder_map_location hn hperm]
  constructor
  · intro hb hc
    rcases h.forward u v hu (ht _ hlink) hc with rfl | hf
    · exact absurd (hb.nodup hnodup) (by simp)
    · exact pair_asymm hnodup hb (hline ▸ hf)
  · intro hc
    exact hline ▸ (h.backward u v hlink).resolve_left hc

theorem before_trans (hn : g.locations.Nodup) (hp : g.orderedLocations.Perm g.locations)
    {u v w : Location} (h : g.Before u v) (h' : g.Before v w) : g.Before u w := by
  unfold Before at *
  rw [flattenOrder_map_location hn hp] at *
  exact pair_trans (hp.nodup_iff.2 hn) h h'

/-- The order of a built graph has every file once and the entry last, and an imported file stands
before the importing one unless the import closes a reported cycle. -/
theorem flattenOrder_isPostorder (hw : t.WellFormed) (h : build t entry root = .ok g) :
    (g.files.Nodup ∧ g.flattenOrder.Perm g.files) ∧
    (∃ l, t.canonical? entry = some l ∧ g.flattenOrder.getLast?.map SourceFile.location = some l) ∧
    (∀ u v, (u, v) ∈ g.edges → (g.Before v u ↔ ¬ g.Closes u v)) ∧
    ((∀ cycle, .cyclicImport cycle ∉ g.warnings) →
      ∀ u v, Relation.TransGen (fun a b => (a, b) ∈ g.edges) u v → g.Before v u) := by
  obtain ⟨l, hl, ht, hline⟩ := lined_of_build hw h
  have hn : g.locations.Nodup := ht.nodup
  have heq : line g.orderedLocations ⟨g, [], []⟩ = g.orderedLocations := by simp [line]
  have hperm : g.orderedLocations.Perm g.locations := heq ▸ hline.perm
  have htargets : ∀ e ∈ g.links, e.2 ∈ g.locations := by
    rintro ⟨u, v⟩ huv
    obtain ⟨hd, hk⟩ := dependencies_of_traversed ht (ht.sources _ huv)
    have hv := mem_dependencies.2 huv
    rw [hd, List.mem_eraseDups] at hv
    exact hk v hv
  have hiff : ∀ u v, (u, v) ∈ g.edges → (g.Before v u ↔ ¬ g.Closes u v) := fun u v huv =>
    before_iff_not_closes hn hline htargets huv
  refine ⟨⟨hn.of_map _, flattenOrder_perm hn hperm⟩, ⟨l, hl, ?_⟩, hiff, ?_⟩
  · rw [← List.getLast?_map, flattenOrder_map_location hn hperm, ← heq]
    exact hline.last
  · intro hnone u v huv
    have hone : ∀ a b, (a, b) ∈ g.edges → g.Before b a := fun a b hab =>
      (hiff a b hab).2 fun ⟨cycle, hm, _⟩ => hnone cycle hm
    induction huv with
    | single hab => exact hone _ _ hab
    | tail _ hbc ih => exact before_trans hn hperm (hone _ _ hbc) ih

theorem flattenOrder_isPostorder_ringTree :
    ringTree.WellFormed ∧ ∃ g, build ringTree ⟨"A.sol".toList⟩ ⟨"/p".toList⟩ = .ok g ∧
      (g.files.Nodup ∧ g.flattenOrder.Perm g.files) ∧
      ∀ u v, (u, v) ∈ g.edges → (g.Before v u ↔ ¬ g.Closes u v) := by
  obtain ⟨g, hg⟩ := exists_build_ringTree
  obtain ⟨hfiles, -, hedges, -⟩ := flattenOrder_isPostorder ringTree_wellFormed hg
  exact ⟨ringTree_wellFormed, g, hg, hfiles, hedges⟩

end Graph

end FlatSol
