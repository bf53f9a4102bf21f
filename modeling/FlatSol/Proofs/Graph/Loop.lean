import FlatSol.Proofs.Graph.Closure
import FlatSol.Proofs.Text.Search

/-!
# The loop that builds a graph

The traversal as a loop over numbers. A file is a place in the list of files, a table has the place
of each location, and the stack holds, for each file being entered, its place and the place of its
next import. Every place is checked where it is used, and a loop that uses one that is out of range
is astray. Main statement: from a readable entry the loop goes astray at no turn, it ends after one
turn for each import of each file of the graph and one more for each file, and it leaves the graph
behind; throughout, the files and the files being entered are pairwise different.
-/

namespace FlatSol

/-- A file being entered, by its place, and the place of the import that it looks at next. -/
structure Cursor where
  node : Nat
  next : Nat

structure Loop where
  /-- The files in the order of their discovery, with the imports as they stand by now. -/
  files : List SourceFile
  /-- The place of each location. -/
  places : List (Location × Nat)
  links : List (Nat × Nat)
  warnings : List Warning
  events : List Event
  /-- The files being entered, the innermost one first. -/
  stack : List Cursor
  /-- The places of those files, as a set. -/
  onPath : List Nat

/-- What a turn of the loop comes to. -/
inductive Turn where
  | ended
  /-- A place was out of range, or was looked for where it is not. -/
  | astray
  | on (s : Loop)

/-- The number of turns that the loop takes for a graph. -/
def Graph.turns (g : Graph) : Nat :=
  (g.files.map fun f => f.imports.length + 1).sum

namespace Loop

def report (s : Loop) (e : Event) : Loop :=
  { s with events := s.events ++ [e] }

def warn (s : Loop) (w : Warning) : Loop :=
  { s with warnings := s.warnings ++ [w], events := s.events ++ [.warned w] }

/-- The loop with one more edge, unless it has the edge already. -/
def link? (s : Loop) (source target : Nat) : Option Loop :=
  if source < s.files.length ∧ target < s.files.length then
    some { s with
      links := if (source, target) ∈ s.links then s.links else s.links ++ [(source, target)] }
  else none

/-- The files from the one at a place on the stack to the innermost one. -/
def ring? (files : List SourceFile) (stack : List Cursor) (target : Nat) : Option (List Path) :=
  match stack.reverse.findIdx? fun c => c.node == target with
  | none => none
  | some start => (stack.reverse.drop start).mapM fun c => files[c.node]?.map SourceFile.path

/-- The turn for an import of a file that the graph has already. -/
def meet? (s : Loop) (source dep : Nat) (target : Location) : Option Loop := do
  let s ← s.link? source dep
  if dep ∈ s.onPath then
    let ring ← ring? s.files s.stack dep
    return s.warn (.cyclicImport (ring ++ [target.path]))
  else return s

/-- The turn for an import of a file that cannot be read: the file keeps the import as unresolved. -/
def refuse (s : Loop) (c : Cursor) (f : SourceFile) (d : ImportDirective) (target : Location)
    (fault : Fault) : Loop :=
  let kept := { f with imports := f.imports.set c.next (d, .unresolved .unreadable) }
  let reported := s.report (.unreadable ⟨.readFile, target.path, fault⟩)
  { reported with files := s.files.set c.node kept }.warn
    (.unresolvedImport d.path f.path .unreadable)

variable (t : FileTree) (root : Path)

/-- The loop with a file added at the end, its imports as they resolve. -/
def add (s : Loop) (l : Location) (text : Text) : Loop :=
  let imports := Build.importsOf t root l text
  let warned := (Build.missing l imports).foldl warn s
  { warned with
    files := s.files ++ [⟨l, text, imports⟩]
    places := (l, s.files.length) :: s.places }

/-- The turn for an import of a file that the graph does not have. -/
def enter? (s : Loop) (source : Nat) (f : SourceFile) (d : ImportDirective) (target : Location)
    (text : Text) : Option Loop := do
  let dep := s.files.length
  let s ← ((s.report (.following d.path f.path)).add t root target text).link? source dep
  return { s with stack := ⟨dep, 0⟩ :: s.stack, onPath := s.onPath.insert dep }

/-- The turn for the innermost file. -/
def look? (s : Loop) (c : Cursor) (below : List Cursor) : Option Loop := do
  let f ← s.files[c.node]?
  let s := { s with stack := ⟨c.node, c.next + 1⟩ :: below }
  match f.imports[c.next]? with
  | none => some { s with stack := below, onPath := s.onPath.erase c.node }
  | some (_, .unresolved _) => some s
  | some (d, .resolved target) =>
    match s.places.lookup target with
    | some dep => s.meet? c.node dep target
    | none =>
      match t.textAt target with
      | .ok text => s.enter? t root c.node f d target text
      | .error fault => some (s.refuse c f d target fault)

def turn (s : Loop) : Turn :=
  match s.stack with
  | [] => .ended
  | c :: below =>
    match s.look? t root c below with
    | none => .astray
    | some r => .on r

/-- The loop after a number of turns, if it takes that many. -/
def after? (s : Loop) : Nat → Option Loop
  | 0 => some s
  | n + 1 =>
    (after? s n).bind fun r =>
      match r.turn t root with
      | .on r => some r
      | _ => none

def start (l : Location) (text : Text) : Loop :=
  { add t root ⟨[], [], [], [], [], [], []⟩ l text with stack := [⟨0, 0⟩], onPath := [0] }

/-- The locations of the two ends of an edge. -/
def edge? (files : List SourceFile) (e : Nat × Nat) : Option (Location × Location) := do
  return ((← files[e.1]?).location, (← files[e.2]?).location)

/-- The graph, with each edge by the locations of its ends. -/
def graph (s : Loop) : Graph where
  files := s.files
  links := s.links.filterMap (edge? s.files)
  warnings := s.warnings
  events := s.events

/-- What holds at every turn. -/
structure Sound (s : Loop) : Prop where
  distinct : (s.files.map SourceFile.location).Nodup
  stackNodup : (s.stack.map Cursor.node).Nodup
  onPath : ∀ i, i ∈ s.onPath ↔ i ∈ s.stack.map Cursor.node
  inside : ∀ c ∈ s.stack, ∃ f, s.files[c.node]? = some f ∧ c.next ≤ f.imports.length
  ends : ∀ e ∈ s.links, e.1 < s.files.length ∧ e.2 < s.files.length

/-! ### The loop beside the traversal -/

variable {t root}

/-- The imports as the graph keeps them. -/
def settled (t : FileTree) (imports : List (ImportDirective × Resolution)) :
    List (ImportDirective × Resolution) :=
  imports.map fun i => (i.1, Build.settle t i.2)

/-- A cursor is at a frame: the imports in front of it are kept already, those from it on are
pending. -/
def AtFrame (t : FileTree) (files kept : List SourceFile) (c : Cursor) (f : Frame) : Prop :=
  ∃ (g : SourceFile) (before : List (ImportDirective × Resolution)),
    kept[c.node]? = some g ∧ g.location = f.location ∧ before.length = c.next ∧
      files[c.node]? = some { g with imports := before ++ f.pending } ∧
        g.imports = before ++ settled t f.pending

/-- An edge between places is one between the locations there. -/
def AtLink (ls : List Location) (e : Nat × Nat) (k : Location × Location) : Prop :=
  ls[e.1]? = some k.1 ∧ ls[e.2]? = some k.2

/-- The loop and the traversal have come equally far. -/
structure Follows (t : FileTree) (s : Loop) (b : Build) : Prop where
  frames : List.Forall₂ (AtFrame t s.files b.graph.files) s.stack b.stack
  finished : ∀ i, i ∉ s.stack.map Cursor.node → s.files[i]? = b.graph.files[i]?
  places : ∀ l i, s.places.lookup l = some i ↔ b.graph.locations[i]? = some l
  links : List.Forall₂ (AtLink b.graph.locations) s.links b.graph.links
  warnings : s.warnings = b.graph.warnings
  events : s.events = b.graph.events
  onPath : s.onPath = s.stack.map Cursor.node

/-! ### Cursors and frames -/

section AtFrame

variable {files kept : List SourceFile} {c : Cursor} {f : Frame}

theorem AtFrame.place (h : AtFrame t files kept c f) :
    (kept.map SourceFile.location)[c.node]? = some f.location := by
  obtain ⟨g, before, hg, hl, -⟩ := h
  rw [List.getElem?_map, hg, Option.map_some, hl]

theorem AtFrame.location (h : AtFrame t files kept c f) :
    (files.map SourceFile.location)[c.node]? = some f.location := by
  obtain ⟨g, before, -, hl, -, hf, -⟩ := h
  rw [List.getElem?_map, hf, Option.map_some, ← hl]

/-- Only the two files at the cursor count. -/
theorem AtFrame.of_eq {files' kept' : List SourceFile} (h : AtFrame t files kept c f)
    (hf : files'[c.node]? = files[c.node]?) (hk : kept'[c.node]? = kept[c.node]?) :
    AtFrame t files' kept' c f := by
  unfold AtFrame at h ⊢
  rw [hf, hk]
  exact h

/-- A file with nothing pending stands as the graph keeps it. -/
theorem AtFrame.eq_of_nil {l : Location} (h : AtFrame t files kept c ⟨l, []⟩) :
    files[c.node]? = kept[c.node]? := by
  obtain ⟨g, before, hg, -, -, hf, hi⟩ := h
  rw [hf, hg]
  simp only [settled, List.map_nil] at hi
  simp only [← hi]

/-- The import at the cursor is the first one that is pending. -/
theorem AtFrame.file {l : Location} {p : List (ImportDirective × Resolution)}
    (h : AtFrame t files kept c ⟨l, p⟩) :
    ∃ g, files[c.node]? = some g ∧ g.location = l ∧ g.imports[c.next]? = p.head? ∧
      c.next ≤ g.imports.length := by
  obtain ⟨g, before, hg, hl, hn, hf, hi⟩ := h
  refine ⟨_, hf, hl, ?_, ?_⟩
  · rw [← hn, List.getElem?_append_right (le_refl _), Nat.sub_self, List.head?_eq_getElem?]
  · simp only [List.length_append]
    omega

/-- An import that the graph keeps as it is gets passed. -/
theorem AtFrame.pass {l : Location} {i : ImportDirective × Resolution}
    {p : List (ImportDirective × Resolution)} (h : AtFrame t files kept c ⟨l, i :: p⟩)
    (hi : Build.settle t i.2 = i.2) : AtFrame t files kept ⟨c.node, c.next + 1⟩ ⟨l, p⟩ := by
  obtain ⟨g, before, hg, hl, hn, hf, hs⟩ := h
  refine ⟨g, before ++ [i], hg, hl, by simp [hn], by simpa using hf, ?_⟩
  simpa [settled, hi] using hs

/-- An import of a file that cannot be read gets passed once the file keeps it as unresolved. -/
theorem AtFrame.refuse {l : Location} {d : ImportDirective} {r : Resolution}
    {p : List (ImportDirective × Resolution)} {g : SourceFile}
    (h : AtFrame t files kept c ⟨l, (d, r) :: p⟩) (hg : files[c.node]? = some g) :
    AtFrame t (files.set c.node { g with imports := g.imports.set c.next (d, Build.settle t r) })
      kept ⟨c.node, c.next + 1⟩ ⟨l, p⟩ := by
  obtain ⟨k, before, hk, hl, hn, hf, hs⟩ := h
  have hlt : c.node < files.length := (List.getElem?_eq_some_iff.1 hf).1
  obtain rfl := Option.some.inj (hg.symm.trans hf)
  refine ⟨k, before ++ [(d, Build.settle t r)], hk, hl, by simp [hn], ?_, ?_⟩
  · rw [List.getElem?_set_self hlt, ← hn]
    simp
  · simpa [settled] using hs

end AtFrame

section Follows

variable {entry : Location} {s : Loop} {b : Build}

theorem Follows.exists_frame (h : Follows t s b) {c : Cursor} (hc : c ∈ s.stack) :
    ∃ f, AtFrame t s.files b.graph.files c f := by
  obtain ⟨k, hk, rfl⟩ := List.mem_iff_getElem.1 hc
  exact ⟨_, h.frames.get hk (h.frames.length_eq ▸ hk)⟩

theorem Follows.locations (h : Follows t s b) :
    s.files.map SourceFile.location = b.graph.locations := by
  refine List.ext_getElem? fun i => ?_
  by_cases hi : i ∈ s.stack.map Cursor.node
  · obtain ⟨c, hc, rfl⟩ := List.mem_map.1 hi
    obtain ⟨f, hf⟩ := h.exists_frame hc
    rw [hf.location, Graph.locations, hf.place]
  · rw [Graph.locations, List.getElem?_map, List.getElem?_map, h.finished i hi]

theorem Follows.length_files (h : Follows t s b) : s.files.length = b.graph.locations.length := by
  rw [← h.locations, List.length_map]

/-- The places on the stack are those of the frames. -/
theorem Follows.map_place (h : Follows t s b) :
    s.stack.map (fun c => b.graph.locations[c.node]?) =
      b.stack.map fun f => some f.location := by
  have hrel := h.frames.imp fun c f hcf => hcf.place
  exact List.forall₂_eq_eq_eq ▸ (List.forall₂_map_left_iff.2 (List.forall₂_map_right_iff.2 hrel))

theorem Follows.stackNodup (h : Follows t s b) (hb : (b.stack.map Frame.location).Nodup) :
    (s.stack.map Cursor.node).Nodup := by
  refine List.Nodup.of_map (fun i => b.graph.locations[i]?) ?_
  rw [List.map_map]
  have hsome := hb.map (Option.some_injective Location)
  rw [List.map_map] at hsome
  exact h.map_place ▸ hsome

theorem biUnique_getElem? {ls : List Location} (h : ls.Nodup) :
    Relator.BiUnique fun (i : Nat) l => ls[i]? = some l := by
  constructor
  · intro i j l hi hj
    have hlt := (List.getElem?_eq_some_iff.1 hi).1
    exact (List.getElem?_inj hlt h).1 (hi.trans hj.symm)
  · intro i l k hl hk
    exact Option.some.inj (hl.symm.trans hk)

theorem Follows.mem_onPath (h : Follows t s b) (hn : b.graph.locations.Nodup)
    (ha : b.active = b.stack.map Frame.location) {i : Nat} {l : Location}
    (hi : b.graph.locations[i]? = some l) : i ∈ s.onPath ↔ l ∈ b.active := by
  rw [h.onPath, ha]
  have hrel := h.frames.imp fun _ _ => AtFrame.place
  exact List.rel_mem (biUnique_getElem? hn) hi
    (List.forall₂_map_left_iff.2 (List.forall₂_map_right_iff.2 hrel))

theorem biUnique_atLink {ls : List Location} (h : ls.Nodup) : Relator.BiUnique (AtLink ls) := by
  obtain ⟨hleft, hright⟩ := biUnique_getElem? h
  constructor
  · intro e e' k he he'
    exact Prod.ext (hleft he.1 he'.1) (hleft he.2 he'.2)
  · intro e k k' hk hk'
    exact Prod.ext (hright hk.1 hk'.1) (hright hk.2 hk'.2)

/-- The same edge is added on both sides, or on neither. -/
theorem forall₂_link {ls : List Location} (hls : ls.Nodup) {es : List (Nat × Nat)} {g : Graph}
    (h : List.Forall₂ (AtLink ls) es g.links) {i j : Nat} {l d : Location} (hi : ls[i]? = some l)
    (hj : ls[j]? = some d) :
    List.Forall₂ (AtLink ls) (if (i, j) ∈ es then es else es ++ [(i, j)]) (g.link l d).links := by
  have hij : AtLink ls (i, j) (l, d) := ⟨hi, hj⟩
  have hmem : (i, j) ∈ es ↔ (l, d) ∈ g.links := List.rel_mem (biUnique_atLink hls) hij h
  unfold Graph.link
  by_cases hl : (l, d) ∈ g.links
  · simp only [hmem.2 hl, hl, if_true]
    exact h
  · simp only [mt hmem.1 hl, hl, if_false]
    exact List.rel_append h (.cons hij .nil)

theorem link?_eq {s : Loop} {i j : Nat} (hi : i < s.files.length) (hj : j < s.files.length) :
    s.link? i j = some { s with
      links := if (i, j) ∈ s.links then s.links else s.links ++ [(i, j)] } := by
  rw [link?, if_pos ⟨hi, hj⟩]

/-- The ring of an import is the part of the stack from the imported file on. -/
theorem ring?_eq {files : List SourceFile} {stack : List Cursor} {frames : List Frame} {dep : Nat}
    {target : Location}
    (hs : stack.map (fun c => (files.map SourceFile.location)[c.node]?) =
      frames.map fun f => some f.location)
    (hn : (stack.map Cursor.node).Nodup) (hframes : (frames.map Frame.location).Nodup)
    (hdep : dep ∈ stack.map Cursor.node)
    (htarget : (files.map SourceFile.location)[dep]? = some target) :
    ∃ ring, ring? files stack dep = some ring ∧ ring ++ [target.path] = Build.ring frames target := by
  obtain ⟨c, hc, rfl⟩ := List.mem_map.1 hdep
  obtain ⟨above, below, hstack⟩ := List.append_of_mem hc
  let loc : Cursor → Location := fun c => ((files.map SourceFile.location)[c.node]?).getD []
  have hloc : loc c = target := by simp only [loc, htarget, Option.getD_some]
  have hlocs : frames.map Frame.location = above.map loc ++ target :: below.map loc := by
    have hmap := congrArg (List.map fun o : Option Location => o.getD []) hs
    rw [hstack] at hmap
    rw [← hloc]
    simpa [Function.comp_def, loc] using hmap.symm
  have hpaths : ∀ k ∈ c :: above.reverse,
      files[k.node]?.map SourceFile.path = some (loc k).path := by
    intro k hk
    have hmem : k ∈ stack := by
      rw [hstack]
      rcases List.mem_cons.1 hk with rfl | hk
      · simp
      · simp [List.mem_reverse.1 hk]
    obtain ⟨f, -, hf⟩ := List.mem_map.1 (hs ▸ List.mem_map_of_mem hmem)
    have hsome : files[k.node]?.map SourceFile.location = some (loc k) := by
      simp only [loc, ← List.getElem?_map, ← hf, Option.getD_some]
    obtain ⟨g, hg, hgl⟩ := Option.map_eq_some_iff.1 hsome
    rw [hg, Option.map_some, ← hgl]
    rfl
  refine ⟨target.path :: above.reverse.map fun k => (loc k).path, ?_, ?_⟩
  · -- the file stands on the stack once, so the search passes what is outside of it
    have houter : below.reverse.findIdx? (fun k => k.node == c.node) = none := by
      rw [List.findIdx?_eq_none_iff]
      intro k hk
      rw [hstack, List.map_append, List.map_cons, List.nodup_append, List.nodup_cons] at hn
      have hne : k.node ≠ c.node := fun he =>
        hn.2.1.1 (he ▸ List.mem_map_of_mem (List.mem_reverse.1 hk))
      simpa using hne
    have hstart : stack.reverse.findIdx? (fun k => k.node == c.node) =
        some below.reverse.length := by
      rw [hstack, List.reverse_append, List.reverse_cons, List.append_assoc, List.findIdx?_append,
        houter]
      simp [List.findIdx?_cons]
    have hdrop : stack.reverse.drop below.reverse.length = c :: above.reverse := by
      rw [hstack, List.reverse_append, List.reverse_cons, List.append_assoc, List.drop_left]
      rfl
    simp only [ring?, hstart, hdrop]
    rw [List.mapM_eq_some_map hpaths, List.map_cons, hloc]
  · have hnot : ∀ l ∈ above.map loc, (l != target) = true := by
      intro l hl
      rw [hlocs, List.nodup_append] at hframes
      simpa using hframes.2.2 l hl target (by simp)
    rw [Build.ring, hlocs, List.takeWhile_append_of_pos hnot]
    simp [Function.comp_def]

theorem foldl_warn (s : Loop) (ws : List Warning) :
    ws.foldl warn s =
      { s with warnings := s.warnings ++ ws, events := s.events ++ ws.map Event.warned } := by
  induction ws generalizing s with
  | nil => simp
  | cons w ws ih =>
    rw [List.foldl_cons, ih]
    simp [warn]

theorem events_withFile (root : Path) (g : Graph) (l : Location) (text : Text) :
    (Build.withFile t root g l text).events =
      g.events ++ (Build.missing l (Build.importsOf t root l text)).map Event.warned := by
  have hfold : ∀ (ws : List Warning) (k : Graph),
      (ws.foldl Graph.warn k).events = k.events ++ ws.map Event.warned := by
    intro ws
    induction ws with
    | nil => simp
    | cons w ws ih =>
      intro k
      rw [List.foldl_cons, ih]
      simp [Graph.warn]
  exact hfold _ _

theorem events_link (g : Graph) (l d : Location) : (g.link l d).events = g.events := by
  unfold Graph.link
  split <;> rfl

/-! ### One turn beside one step -/

/-- An import that the graph keeps as it is gets passed. -/
theorem Follows.advance {g : Graph} {l : Location} {i : ImportDirective × Resolution}
    {rest : List (ImportDirective × Resolution)} {below : List Frame} {active : List Location}
    {c : Cursor} {cs : List Cursor} (h : Follows t s ⟨g, ⟨l, i :: rest⟩ :: below, active⟩)
    (hs : s.stack = c :: cs) (hi : Build.settle t i.2 = i.2) :
    Follows t { s with stack := ⟨c.node, c.next + 1⟩ :: cs } ⟨g, ⟨l, rest⟩ :: below, active⟩ := by
  obtain ⟨hframes, hfinished, hplaces, hlinks, hwarnings, hevents, honPath⟩ := h
  rw [hs] at hframes hfinished honPath
  obtain ⟨hc, hcs⟩ := List.forall₂_cons.1 hframes
  exact ⟨.cons (hc.pass hi) hcs, hfinished, hplaces, hlinks, hwarnings, hevents, honPath⟩

/-- A change of edges and reports on both sides. -/
theorem Follows.amend (h : Follows t s b) {g : Graph} {links : List (Nat × Nat)}
    {warnings : List Warning} {events : List Event} (hf : g.files = b.graph.files)
    (hl : List.Forall₂ (AtLink b.graph.locations) links g.links) (hw : warnings = g.warnings)
    (he : events = g.events) :
    Follows t { s with links := links, warnings := warnings, events := events }
      ⟨g, b.stack, b.active⟩ := by
  have hlocations : g.locations = b.graph.locations := by rw [Graph.locations, hf, Graph.locations]
  exact ⟨hf ▸ h.frames, hf ▸ h.finished, hlocations ▸ h.places, hlocations ▸ hl, hw, he, h.onPath⟩

theorem Follows.lt (h : Follows t s b) {i : Nat} {l : Location}
    (hi : b.graph.locations[i]? = some l) : i < s.files.length :=
  h.length_files ▸ (List.getElem?_eq_some_iff.1 hi).1

theorem Follows.meet (h : Follows t s b) (hn : b.graph.locations.Nodup)
    (hstack : (b.stack.map Frame.location).Nodup) (ha : b.active = b.stack.map Frame.location)
    {i j : Nat} {l target : Location} (hi : b.graph.locations[i]? = some l)
    (hj : b.graph.locations[j]? = some target) :
    ∃ s', s.meet? i j target = some s' ∧
      Follows t s' ⟨Build.meet ⟨b.graph, [], b.active⟩ b.stack l target, b.stack, b.active⟩ := by
  have hlinks := forall₂_link hn h.links hi hj
  have hactive := h.mem_onPath hn ha hj
  rw [meet?, link?_eq (h.lt hi) (h.lt hj)]
  by_cases hact : target ∈ b.active
  · have hmem : j ∈ s.stack.map Cursor.node := h.onPath ▸ hactive.2 hact
    obtain ⟨ring, hring, heq⟩ := ring?_eq (h.locations ▸ h.map_place) (h.stackNodup hstack)
      hstack hmem (h.locations ▸ hj)
    simp only [Option.bind_eq_bind, Option.bind_some, if_pos (hactive.2 hact), hring, heq]
    refine ⟨_, rfl, h.amend (by simp) ?_ ?_ ?_⟩
    · rw [Build.links_meet]
      exact hlinks
    · simp [Build.meet, hact, Graph.warn, Graph.warnings_link, h.warnings]
    · simp [Build.meet, hact, Graph.warn, events_link, h.events]
  · simp only [Option.bind_eq_bind, Option.bind_some, if_neg (mt hactive.1 hact)]
    refine ⟨_, rfl, h.amend (by simp) ?_ ?_ ?_⟩
    · rw [Build.links_meet]
      exact hlinks
    · simp [Build.meet, hact, Graph.warnings_link, h.warnings]
    · simp [Build.meet, hact, events_link, h.events]

/-- The table of places keeps pace with the list of locations. -/
theorem lookup_cons_iff {places : List (Location × Nat)} {ls : List Location} {l k : Location}
    {n i : Nat} (hl : l ∉ ls) (hn : ls.length = n) (h : places.lookup k = some i ↔ ls[i]? = some k) :
    ((l, n) :: places).lookup k = some i ↔ (ls ++ [l])[i]? = some k := by
  subst hn
  by_cases hk : k = l
  · subst hk
    rw [List.lookup_cons_self, Option.some.injEq]
    constructor
    · rintro rfl
      exact List.getElem?_concat_length
    · intro hi
      rcases lt_trichotomy i ls.length with hlt | heq | hgt
      · rw [List.getElem?_append_left hlt] at hi
        exact absurd (List.mem_of_getElem? hi) hl
      · exact heq.symm
      · rw [List.getElem?_eq_none (by simp; omega)] at hi
        simp at hi
  · have hlookup : ((l, ls.length) :: places).lookup k = places.lookup k := by
      rw [List.lookup_cons, beq_false_of_ne hk]
    rw [hlookup, h]
    constructor
    · intro hi
      rw [List.getElem?_append_left (List.getElem?_eq_some_iff.1 hi).1, hi]
    · intro hi
      rcases Nat.lt_or_ge i ls.length with hlt | hge
      · rwa [List.getElem?_append_left hlt] at hi
      · rw [List.getElem?_append_right hge] at hi
        exact absurd (by simpa using List.mem_of_getElem? hi) hk

/-- A file that is new is added at the end, and entered. -/
theorem Follows.push (h : Follows t s b) (root : Path) {l : Location} (text : Text) {g : Graph}
    {warnings : List Warning} {events : List Event} (unknown : l ∉ b.graph.locations)
    (hf : g.files = b.graph.files ++ [Build.sourceFile t root l text])
    (hl : g.links = b.graph.links) (hw : warnings = g.warnings) (he : events = g.events) :
    Follows t
      { s with
        files := s.files ++ [⟨l, text, Build.importsOf t root l text⟩]
        places := (l, s.files.length) :: s.places
        warnings := warnings
        events := events
        stack := ⟨s.files.length, 0⟩ :: s.stack
        onPath := s.files.length :: s.onPath }
      ⟨g, ⟨l, Build.importsOf t root l text⟩ :: b.stack, l :: b.active⟩ := by
  have hlength : b.graph.files.length = s.files.length := by
    rw [h.length_files, Graph.locations, List.length_map]
  have hlocations : g.locations = b.graph.locations ++ [l] := by
    simp [Graph.locations, hf, Build.sourceFile]
  have hold : ∀ i, i < s.files.length →
      (s.files ++ [⟨l, text, Build.importsOf t root l text⟩])[i]? = s.files[i]? ∧
        g.files[i]? = b.graph.files[i]? := by
    intro i hi
    exact ⟨List.getElem?_append_left hi, by rw [hf, List.getElem?_append_left (hlength ▸ hi)]⟩
  refine ⟨.cons ?_ ?_, ?_, ?_, ?_, hw, he, ?_⟩
  · refine ⟨Build.sourceFile t root l text, [], ?_, rfl, rfl, ?_, rfl⟩
    · rw [hf, ← hlength, List.getElem?_concat_length]
    · rw [List.getElem?_concat_length]
      rfl
  · refine h.frames.imp fun c f hcf => ?_
    have hlt : c.node < s.files.length := h.lt hcf.place
    exact hcf.of_eq (hold c.node hlt).1 (hold c.node hlt).2
  · intro i hi
    simp only [List.map_cons, List.mem_cons, not_or] at hi
    rcases lt_trichotomy i s.files.length with hlt | heq | hgt
    · rw [(hold i hlt).1, (hold i hlt).2, h.finished i hi.2]
    · exact absurd heq hi.1
    · rw [List.getElem?_eq_none (by simp; omega), List.getElem?_eq_none (by simp [hf]; omega)]
  · intro k i
    rw [hlocations]
    exact lookup_cons_iff unknown h.length_files.symm (h.places k i)
  · rw [hl, hlocations]
    refine h.links.imp fun e k hek => ⟨?_, ?_⟩
    · rw [List.getElem?_append_left (List.getElem?_eq_some_iff.1 hek.1).1, hek.1]
    · rw [List.getElem?_append_left (List.getElem?_eq_some_iff.1 hek.2).1, hek.2]
  · rw [h.onPath]
    rfl

/-- A file is added on both sides, entered, and linked. -/
theorem Follows.enter (h : Follows t s b) (root : Path) {f : SourceFile} (d : ImportDirective)
    {i : Nat} {target : Location} (text : Text) (hn : b.graph.locations.Nodup)
    (hi : b.graph.locations[i]? = some f.location) (unknown : target ∉ b.graph.locations) :
    ∃ s', s.enter? t root i f d target text = some s' ∧
      Follows t s' ⟨(Build.withFile t root (b.graph.report (.following d.path f.path))
        target text).link f.location target,
        ⟨target, Build.importsOf t root target text⟩ :: b.stack, target :: b.active⟩ := by
  have hlt := h.lt hi
  have hnew : s.files.length ∉ s.onPath := by
    rw [h.onPath]
    intro hmem
    obtain ⟨c, hc, hnode⟩ := List.mem_map.1 hmem
    obtain ⟨k, hk⟩ := h.exists_frame hc
    exact absurd hnode (Nat.ne_of_lt (h.lt hk.place))
  have hpush := h.push root text unknown
    (Build.files_withFile (b.graph.report (.following d.path f.path)) target text)
    (Build.links_withFile _ target text) rfl rfl
  have hlocations : (Build.withFile t root (b.graph.report (.following d.path f.path)) target
      text).locations = b.graph.locations ++ [target] := Build.locations_withFile _ _ _
  have hlinks := forall₂_link
    (hlocations ▸ hn.append (List.nodup_singleton target) (by simpa using unknown)) hpush.links
    (i := i) (j := s.files.length) (l := f.location) (d := target)
    (by rw [hlocations, List.getElem?_append_left (h.length_files ▸ hlt), hi])
    (by rw [hlocations, h.length_files, List.getElem?_concat_length])
  have hamend := hpush.amend (Graph.files_link _ f.location target) hlinks
    (Graph.warnings_link _ _ _).symm (events_link _ _ _).symm
  rw [enter?, link?_eq (by simp [add, report]; omega) (by simp [add, report])]
  simp only [Option.bind_eq_bind, Option.bind_some, add, foldl_warn, report]
  refine ⟨_, rfl, ?_⟩
  rw [List.insert_of_not_mem hnew]
  simp only [Build.warnings_withFile, events_withFile] at hamend
  simpa [Graph.report, h.warnings, h.events] using hamend

/-- The innermost file is left. -/
theorem Follows.leave {g : Graph} {l : Location} {below : List Frame} {active : List Location}
    {c : Cursor} {cs : List Cursor} (h : Follows t s ⟨g, ⟨l, []⟩ :: below, active⟩)
    (hs : s.stack = c :: cs) :
    Follows t { s with stack := cs, onPath := s.onPath.erase c.node }
      ⟨g, below, active.erase l⟩ := by
  obtain ⟨hframes, hfinished, hplaces, hlinks, hwarnings, hevents, honPath⟩ := h
  rw [hs] at hframes hfinished honPath
  obtain ⟨hc, hcs⟩ := List.forall₂_cons.1 hframes
  refine ⟨hcs, fun i hi => ?_, hplaces, hlinks, hwarnings, hevents, ?_⟩
  · by_cases hnode : i = c.node
    · rw [hnode]
      exact hc.eq_of_nil
    · exact hfinished i (by simp [hnode, hi])
  · rw [honPath, List.map_cons, List.erase_cons_head]

/-- The innermost file keeps an import of a file that cannot be read as unresolved. -/
theorem Follows.refuse {g : Graph} {l target : Location} {d : ImportDirective} {fault : Fault}
    {rest : List (ImportDirective × Resolution)} {below : List Frame} {active : List Location}
    {c : Cursor} {cs : List Cursor} {f : SourceFile}
    (h : Follows t s ⟨g, ⟨l, (d, .resolved target) :: rest⟩ :: below, active⟩)
    (hs : s.stack = c :: cs) (hn : (s.stack.map Cursor.node).Nodup)
    (hf : s.files[c.node]? = some f) (fails : t.textAt target = .error fault) :
    Follows t (refuse { s with stack := ⟨c.node, c.next + 1⟩ :: cs } c f d target fault)
      ⟨(g.report (.unreadable ⟨.readFile, target.path, fault⟩)).warn
        (.unresolvedImport d.path f.path .unreadable), ⟨l, rest⟩ :: below, active⟩ := by
  obtain ⟨hframes, hfinished, hplaces, hlinks, hwarnings, hevents, honPath⟩ := h
  rw [hs] at hframes hfinished honPath hn
  obtain ⟨hc, hcs⟩ := List.forall₂_cons.1 hframes
  rw [List.map_cons, List.nodup_cons] at hn
  have hset : ∀ i, i ≠ c.node → ∀ k : SourceFile, (s.files.set c.node k)[i]? = s.files[i]? :=
    fun i hi k => List.getElem?_set_ne (Ne.symm hi)
  have hrefuse := hc.refuse hf
  rw [Build.settle_of_error fails] at hrefuse
  refine ⟨.cons hrefuse ?_, fun i hi => ?_, hplaces, hlinks, ?_, ?_, honPath⟩
  · -- the files below are other ones
    have hbelow : List.Forall₂ (fun k fr => k ∈ cs ∧ AtFrame t s.files g.files k fr) cs below :=
      (List.forall₂_and_left cs below).2 ⟨fun k hk => hk, hcs⟩
    refine hbelow.imp fun k fr hk => hk.2.of_eq (hset k.node ?_ _) rfl
    exact fun he => hn.1 (he ▸ List.mem_map_of_mem hk.1)
  · have hother : i ≠ c.node ∧ i ∉ cs.map Cursor.node := by
      simpa [Loop.refuse, warn, report] using hi
    exact (hset i hother.1 _).trans (hfinished i (by simpa using hother))
  · simp [Loop.refuse, warn, report, Graph.warn, Graph.report, hwarnings]
  · simp [Loop.refuse, warn, report, Graph.warn, Graph.report, hevents]

/-- A turn of the loop does what a step of the traversal does. -/
theorem turn_of_move {c : Build} (m : Build.Move t root b c) (tr : Build.Traversed t root entry b)
    (h : Follows t s b) : ∃ r, s.turn t root = .on r ∧ Follows t r c := by
  have hn := h.stackNodup tr.stackNodup
  cases m with
  | @leave g l below active =>
    obtain ⟨k, cs, hk, -, hs⟩ := List.forall₂_cons_right_iff.1 h.frames
    obtain ⟨f, hf, -, hnext, -⟩ := hk.file
    refine ⟨_, ?_, h.leave hs⟩
    simp only [turn, hs, look?, hf, Option.bind_eq_bind, Option.bind_some, hnext, List.head?_nil]
  | @unresolved g l d reason rest below active =>
    obtain ⟨k, cs, hk, -, hs⟩ := List.forall₂_cons_right_iff.1 h.frames
    obtain ⟨f, hf, -, hnext, -⟩ := hk.file
    refine ⟨_, ?_, h.advance hs rfl⟩
    simp only [turn, hs, look?, hf, Option.bind_eq_bind, Option.bind_some, hnext, List.head?_cons]
  | @unreadable g l target d fault rest below active unknown fails =>
    obtain ⟨k, cs, hk, -, hs⟩ := List.forall₂_cons_right_iff.1 h.frames
    obtain ⟨f, hf, rfl, hnext, -⟩ := hk.file
    refine ⟨_, ?_, h.refuse hs hn hf fails⟩
    have hplace : s.places.lookup target = none :=
      Option.eq_none_iff_forall_ne_some.2 fun i hi =>
        unknown (List.mem_of_getElem? ((h.places target i).1 hi))
    simp only [turn, hs, look?, hf, Option.bind_eq_bind, Option.bind_some, hnext, List.head?_cons,
      hplace, fails]
  | @known g l target d rest below active known =>
    obtain ⟨k, cs, hk, -, hs⟩ := List.forall₂_cons_right_iff.1 h.frames
    obtain ⟨f, hf, -, hnext, -⟩ := hk.file
    obtain ⟨dep, hdep⟩ := List.mem_iff_getElem?.1 known
    obtain ⟨text, reads⟩ := tr.textAt known
    obtain ⟨r, hr, hfollows⟩ := (h.advance hs (Build.settle_of_textAt reads)).meet tr.nodup
      tr.stackNodup tr.active hk.place hdep
    refine ⟨r, ?_, hfollows⟩
    simp only [turn, hs, look?, hf, Option.bind_eq_bind, Option.bind_some, hnext, List.head?_cons,
      (h.places target dep).2 hdep, hr]
  | @fresh g l target d text rest below active unknown reads =>
    obtain ⟨k, cs, hk, -, hs⟩ := List.forall₂_cons_right_iff.1 h.frames
    obtain ⟨f, hf, rfl, hnext, -⟩ := hk.file
    have hplace : s.places.lookup target = none :=
      Option.eq_none_iff_forall_ne_some.2 fun i hi =>
        unknown (List.mem_of_getElem? ((h.places target i).1 hi))
    obtain ⟨r, hr, hfollows⟩ := (h.advance hs (Build.settle_of_textAt reads)).enter root d text
      tr.nodup hk.place unknown
    refine ⟨r, ?_, hfollows⟩
    simp only [turn, hs, look?, hf, Option.bind_eq_bind, Option.bind_some, hnext, List.head?_cons,
      hplace, reads, hr]

theorem turn_of_stack_nil (root : Path) (h : Follows t s b) (hb : b.stack = []) :
    s.turn t root = .ended := by
  have hs : s.stack = [] := List.forall₂_nil_right_iff.1 (hb ▸ h.frames)
  rw [turn, hs]

theorem follows_start (root : Path) (l : Location) (text : Text) :
    Follows t (start t root l text) (Build.start t root l text) := by
  have hempty : Follows t ⟨[], [], [], [], [], [], []⟩ ⟨.empty, [], []⟩ :=
    ⟨.nil, fun _ _ => rfl, fun _ _ => by simp [Graph.empty, Graph.locations], .nil, rfl, rfl, rfl⟩
  have hpush := hempty.push root (l := l) text
    (by simp [Graph.empty, Graph.locations]) (Build.files_withFile .empty l text)
    (Build.links_withFile .empty l text) rfl rfl
  simp only [Build.warnings_withFile, events_withFile] at hpush
  rw [start, add, foldl_warn, Build.start_eq]
  exact hpush

theorem Follows.sound (h : Follows t s b) (tr : Build.Traversed t root entry b) : s.Sound where
  distinct := h.locations ▸ tr.nodup
  stackNodup := h.stackNodup tr.stackNodup
  onPath i := by rw [h.onPath]
  inside c hc := by
    obtain ⟨⟨l, p⟩, hf⟩ := h.exists_frame hc
    obtain ⟨g, hg, -, -, hle⟩ := hf.file
    exact ⟨g, hg, hle⟩
  ends e he := by
    obtain ⟨k, hk, rfl⟩ := List.mem_iff_getElem.1 he
    have hlink := h.links.get hk (h.links.length_eq ▸ hk)
    exact ⟨h.lt hlink.1, h.lt hlink.2⟩

theorem filterMap_edge? {files : List SourceFile} {es : List (Nat × Nat)}
    {ks : List (Location × Location)}
    (h : List.Forall₂ (AtLink (files.map SourceFile.location)) es ks) :
    es.filterMap (edge? files) = ks := by
  induction h with
  | nil => rfl
  | @cons e k es ks hek _ ih =>
    obtain ⟨hsource, htarget⟩ := hek
    rw [List.getElem?_map, Option.map_eq_some_iff] at hsource htarget
    obtain ⟨f, hf, hfl⟩ := hsource
    obtain ⟨g, hg, hgl⟩ := htarget
    have hedge : edge? files e = some k := by simp [edge?, hf, hg, hfl, hgl]
    rw [List.filterMap_cons_some hedge, ih]

/-- A loop that has followed a traversal to its end holds its graph. -/
theorem Follows.graph_eq (h : Follows t s b) (hb : b.stack = []) : s.graph = b.graph := by
  have hs : s.stack = [] := List.forall₂_nil_right_iff.1 (hb ▸ h.frames)
  have hfiles : s.files = b.graph.files :=
    List.ext_getElem? fun i => h.finished i (by simp [hs])
  rw [graph, filterMap_edge? (h.locations ▸ h.links), hfiles, h.warnings, h.events]

end Follows

/-! ### The run of the loop -/

section Run

variable {entry : Location} {b c : Build}

/-- Each step of the traversal takes one from the turns that are left. -/
theorem turns_of_move (m : Build.Move t root b c) :
    Build.work b.stack + c.graph.turns = Build.work c.stack + b.graph.turns + 1 := by
  cases m with
  | leave => simp [Build.work]; omega
  | unresolved => simp [Build.work]; omega
  | unreadable => simp [Build.work, Graph.turns]; omega
  | known => simp [Build.work, Graph.turns]; omega
  | fresh => simp [Build.work, Graph.turns, Build.sourceFile]; omega

/-- The loop after some turns, beside the traversal after as many steps. -/
structure Reaches (t : FileTree) (root : Path) (entry : Location) (first : Loop) (n : Nat)
    (s : Loop) (b : Build) : Prop where
  after : first.after? t root n = some s
  follows : Follows t s b
  traversed : Build.Traversed t root entry b
  turns : n + Build.work b.stack = b.graph.turns

theorem reaches_start (root : Path) {l : Location} {text : Text} (h : t.textAt l = .ok text) :
    Reaches t root l (start t root l text) 0 (start t root l text) (Build.start t root l text) where
  after := rfl
  follows := follows_start root l text
  traversed := Build.traversed_start root h
  turns := by simp [Build.start_eq, Build.work, Graph.turns, Graph.empty, Build.sourceFile]

theorem Reaches.move {first s : Loop} {n : Nat} (m : Build.Move t root b c)
    (h : Reaches t root entry first n s b) : ∃ r, Reaches t root entry first (n + 1) r c := by
  obtain ⟨r, hr, hf⟩ := turn_of_move m h.traversed h.follows
  refine ⟨r, ?_, hf, h.traversed.move m, ?_⟩
  · rw [after?, h.after, Option.bind_some, hr]
  · have := h.turns
    have := turns_of_move m
    omega

/-- Wherever the loop is, the traversal gets there too. -/
theorem exists_reaches (root : Path) {l : Location} {text : Text} (h : t.textAt l = .ok text)
    (n : Nat) {s : Loop} (hs : (start t root l text).after? t root n = some s) :
    ∃ b, Reaches t root l (start t root l text) n s b := by
  induction n generalizing s with
  | zero =>
    obtain rfl := Option.some.inj hs
    exact ⟨_, reaches_start root h⟩
  | succ n ih =>
    rw [after?, Option.bind_eq_some_iff] at hs
    obtain ⟨r, hr, hturn⟩ := hs
    obtain ⟨b, hb⟩ := ih hr
    cases hstep : Build.step? t root b with
    | none =>
      have hended := turn_of_stack_nil root hb.follows (Build.stack_of_step?_eq_none hstep)
      simp [hended] at hturn
    | some c =>
      obtain ⟨r', hr'⟩ := hb.move (Build.move_of_step hstep)
      have hsame : r' = s := by
        have hafter := hr'.after
        rw [after?, hr, Option.bind_some] at hafter
        exact Option.some.inj (hafter.symm.trans hturn)
      exact ⟨c, hsame ▸ hr'⟩

end Run

end Loop

namespace Graph

/-- From a readable entry the loop goes through as many turns as its graph has imports and files, and
is at its end then; it goes astray nowhere, and is sound at every turn. -/
theorem loop_of_readable {t : FileTree} {entry : Path} {l : Location} {text : Text}
    (hl : t.canonical? entry = some l) (ht : t.textAt l = .ok text) (root : Path) :
    ∃ g s, build t entry root = .ok g ∧
      (Loop.start t (t.normalize root) l text).after? t (t.normalize root) g.turns = some s ∧
      s.turn t (t.normalize root) = .ended ∧ s.graph = g ∧
      ∀ n r, (Loop.start t (t.normalize root) l text).after? t (t.normalize root) n = some r →
        r.Sound ∧ r.turn t (t.normalize root) ≠ .astray := by
  obtain ⟨g, hg⟩ := exists_build hl ht root
  obtain ⟨l', text', hl', ht', hrun⟩ := exists_start_of_build hg
  obtain rfl := Option.some.inj (hl.symm.trans hl')
  obtain rfl := Except.ok.inj (ht.symm.trans ht')
  obtain ⟨c, ⟨n, s, hc⟩, hstack, hgraph⟩ := Build.run_induction
    (P := fun b => ∃ n s, Loop.Reaches t (t.normalize root) l
      (Loop.start t (t.normalize root) l text) n s b)
    (fun b c m ⟨n, s, h⟩ => ⟨n + 1, h.move m⟩) _ ⟨0, _, Loop.reaches_start _ ht⟩
  have hturns : n = g.turns := by
    have hwork := hc.turns
    rw [hstack, ← hgraph, ← hrun, Build.work] at hwork
    exact hwork
  refine ⟨g, s, hg, hturns ▸ hc.after, Loop.turn_of_stack_nil _ hc.follows hstack, ?_, ?_⟩
  · rw [hc.follows.graph_eq hstack, hrun, hgraph]
  · intro n r hr
    obtain ⟨b, hb⟩ := Loop.exists_reaches _ ht n hr
    refine ⟨hb.follows.sound hb.traversed, ?_⟩
    cases hstep : Build.step? t (t.normalize root) b with
    | none => simp [Loop.turn_of_stack_nil _ hb.follows (Build.stack_of_step?_eq_none hstep)]
    | some c =>
      obtain ⟨r', hr', -⟩ := Loop.turn_of_move (Build.move_of_step hstep) hb.traversed hb.follows
      simp [hr']

end Graph

theorem loop_of_readable_ringTree :
    ∃ text g s, ringTree.canonical? ⟨"A.sol".toList⟩ = some ["p".toList, "A.sol".toList] ∧
      ringTree.textAt ["p".toList, "A.sol".toList] = .ok text ∧
      Graph.build ringTree ⟨"A.sol".toList⟩ ⟨"/p".toList⟩ = .ok g ∧
      (Loop.start ringTree (ringTree.normalize ⟨"/p".toList⟩) ["p".toList, "A.sol".toList]
        text).after? ringTree (ringTree.normalize ⟨"/p".toList⟩) g.turns = some s ∧ s.graph = g := by
  obtain ⟨g, s, hg, hs, -, he, -⟩ :=
    Graph.loop_of_readable canonical_ringTree textAt_ringTree ⟨"/p".toList⟩
  exact ⟨_, g, s, canonical_ringTree, textAt_ringTree, hg, hs, he⟩

end FlatSol
