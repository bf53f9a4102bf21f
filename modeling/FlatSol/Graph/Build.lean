import FlatSol.FileTree.Read
import FlatSol.Graph.Basic

/-!
# Building an import graph

The graph is built depth first from the entry: a stack holds the files that are being entered, each
with the imports that are still to be looked at. One step looks at one import of the innermost file,
or leaves that file. Main statement: every step that adds a file adds one that the tree has and the
graph did not have, and every other step shortens the work on the stack; so building ends.
-/

namespace FlatSol

/-- A file being entered, with its imports that are still to be looked at. -/
structure Frame where
  location : Location
  pending : List (ImportDirective × Resolution)

structure Build where
  graph : Graph
  /-- The files being entered, the innermost one first. -/
  stack : List Frame
  /-- The locations of those files, as a set. -/
  active : List Location

namespace Build

variable (t : FileTree) (root : Path)

/-- The imports of a text at a location, each with the file it leads to, be that readable or not. -/
def importsOf (l : Location) (text : Text) : List (ImportDirective × Resolution) :=
  (Source.imports text).map fun d => (d, t.resolveImport d.path l.path root)

/-- The resolution that a graph keeps: a file that cannot be read is no target. -/
def settle : Resolution → Resolution
  | .resolved l =>
    match t.textAt l with
    | .ok _ => .resolved l
    | .error _ => .unresolved .unreadable
  | r => r

/-- The warnings for the imports with no file behind them. -/
def missing (l : Location) (imports : List (ImportDirective × Resolution)) : List Warning :=
  imports.filterMap fun i =>
    match i.2 with
    | .unresolved reason => some (.unresolvedImport i.1.path l.path reason)
    | .resolved _ => none

/-- The state after a file is added to the graph and entered. -/
def enter (b : Build) (l : Location) (text : Text) : Build :=
  let imports := importsOf t root l text
  let file : SourceFile := ⟨l, text, imports.map fun i => (i.1, settle t i.2)⟩
  let added := { b.graph with files := b.graph.files ++ [file] }
  { graph := (missing l imports).foldl Graph.warn added
    stack := ⟨l, imports⟩ :: b.stack
    active := l :: b.active }

/-- The files from `target` to the innermost one and back to `target`: the ring that an import of
`target` closes. -/
def ring (stack : List Frame) (target : Location) : List Path :=
  let inner := (stack.map Frame.location).takeWhile fun l => l != target
  (target :: inner.reverse ++ [target]).map Location.path

/-- The state after the innermost file's import `d` of the file at `target`, with `below` the stack
for the imports that follow. -/
def follow (b : Build) (below : List Frame) (source target : Location) (d : ImportDirective) :
    Build :=
  let b := { b with stack := below }
  if target ∈ b.graph.locations then
    let linked := b.graph.link source target
    { b with
      graph :=
        if target ∈ b.active then linked.warn (.cyclicImport (ring below target)) else linked }
  else
    match t.textAt target with
    | .ok text =>
      let entered :=
        enter t root { b with graph := b.graph.report (.following d.path source.path) } target text
      { entered with graph := entered.graph.link source target }
    | .error fault =>
      { b with
        graph :=
          (b.graph.report (.unreadable ⟨.readFile, target.path, fault⟩)).warn
            (.unresolvedImport d.path source.path .unreadable) }

/-- One step of building; none is left when the stack is empty. -/
def step? (b : Build) : Option Build :=
  match b.stack with
  | [] => none
  | ⟨l, []⟩ :: below => some { b with stack := below, active := b.active.erase l }
  | ⟨l, (d, r) :: pending⟩ :: below =>
    match r with
    | .unresolved _ => some { b with stack := ⟨l, pending⟩ :: below }
    | .resolved target => some (follow t root b (⟨l, pending⟩ :: below) l target d)

/-! ### Building ends -/

/-- The number of steps that the imports on the stack still take, files yet to be found apart. -/
def work : List Frame → Nat
  | [] => 0
  | f :: fs => f.pending.length + 1 + work fs

def unknown (b : Build) : Nat :=
  (t.locations.filter fun l => decide (l ∉ b.graph.locations)).length

theorem locations_foldl_warn (g : Graph) (ws : List Warning) :
    (ws.foldl Graph.warn g).locations = g.locations := by
  induction ws generalizing g with
  | nil => rfl
  | cons w ws ih => rw [List.foldl_cons, ih, Graph.locations_warn]

theorem locations_enter (b : Build) (l : Location) (text : Text) :
    (enter t root b l text).graph.locations = b.graph.locations ++ [l] := by
  simp only [enter, locations_foldl_warn]
  simp [Graph.locations]

theorem length_filter_lt {α : Type} {p q : α → Bool} {xs : List α} {x : α} (hx : x ∈ xs)
    (hp : p x = true) (hq : q x = false) (hqp : ∀ y, q y = true → p y = true) :
    (xs.filter q).length < (xs.filter p).length := by
  have hle : ∀ ys : List α, (ys.filter q).length ≤ (ys.filter p).length := by
    intro ys
    rw [← List.countP_eq_length_filter, ← List.countP_eq_length_filter]
    exact List.countP_mono_left fun y _ h => hqp y h
  induction xs with
  | nil => simp at hx
  | cons y ys ih =>
    rcases List.mem_cons.1 hx with rfl | hx
    · have := hle ys
      simp [hp, hq]
      omega
    · have := ih hx
      by_cases hqy : q y = true
      · simp [hqy, hqp y hqy, this]
      · by_cases hpy : p y = true
        · simp [hqy, hpy]; omega
        · simp [hqy, hpy, this]

theorem unknown_lt {b c : Build} {l : Location} (hl : l ∈ t.locations)
    (hb : l ∉ b.graph.locations) (hc : c.graph.locations = b.graph.locations ++ [l]) :
    unknown t c < unknown t b := by
  refine length_filter_lt hl (by simpa using hb) (by simp [hc]) fun k hk => ?_
  simp only [hc, List.mem_append, List.mem_singleton, not_or, decide_eq_true_eq] at hk
  simpa using hk.1

theorem step?_decreases {b c : Build} (h : step? t root b = some c) :
    unknown t c < unknown t b ∨ unknown t c = unknown t b ∧ work c.stack < work b.stack := by
  unfold step? at h
  split at h
  · simp at h
  · next hs =>
    obtain rfl := Option.some.inj h
    exact .inr ⟨rfl, by simp [hs, work]⟩
  · next l d r pending below hs =>
    split at h
    · obtain rfl := Option.some.inj h
      exact .inr ⟨rfl, by simp [hs, work]⟩
    · next target =>
      obtain rfl := Option.some.inj h
      unfold follow
      simp only
      split
      · refine .inr ⟨?_, by simp [hs, work]⟩
        split <;> simp [unknown]
      · next hk =>
        split
        · next text ht =>
          refine .inl (unknown_lt t (FileTree.mem_locations_of_textAt ht) hk ?_)
          simp [locations_enter]
        · exact .inr ⟨rfl, by simp [hs, work]⟩

def run (b : Build) : Graph :=
  match _h : step? t root b with
  | none => b.graph
  | some c => run c
termination_by (unknown t b, work b.stack)
decreasing_by
  rcases step?_decreases t root _h with h | ⟨h, h'⟩
  · exact Prod.Lex.left _ _ h
  · rw [h]
    exact Prod.Lex.right _ h'

def start (l : Location) (text : Text) : Build :=
  enter t root ⟨.empty, [], []⟩ l text

end Build

namespace FileTree

/-- The location of what a path denotes, or why it denotes nothing. -/
def locate (t : FileTree) (p : Path) : Except Fault Location :=
  match t.canonical? p with
  | some l => .ok l
  | none => t.resolve .follow p

end FileTree

/-- The import graph of an entry file in the project at `root`. Only an entry that cannot be read is
an error. -/
def Graph.build (t : FileTree) (entry root : Path) : Except IoError Graph :=
  match t.locate entry with
  | .error fault => .error ⟨.readFile, entry, fault⟩
  | .ok l =>
    match t.textAt l with
    | .error fault => .error ⟨.readFile, l.path, fault⟩
    | .ok text =>
      let root := t.normalize root
      .ok (Build.run t root (Build.start t root l text))

end FlatSol
