import FlatSol.Graph.Build
import FlatSol.Proofs.FileTree.WellFormed

/-!
# The steps of building a graph

One step of building leaves a file, passes an import that leads to no readable file, meets a file
that the graph has already, or enters a new one. What a whole run keeps is what each of these keeps.
-/

namespace FlatSol

/-- The file that an import leads to. -/
def Resolution.target? : Resolution → Option Location
  | .resolved l => some l
  | .unresolved _ => none

/-- The files that a file imports, in the order of its imports and with repeats. -/
def SourceFile.targets (f : SourceFile) : List Location :=
  f.imports.filterMap fun i => i.2.target?

namespace Graph

@[simp] theorem links_warn (g : Graph) (w : Warning) : (g.warn w).links = g.links := rfl

@[simp] theorem links_report (g : Graph) (e : Event) : (g.report e).links = g.links := rfl

theorem warnings_link (g : Graph) (s d : Location) : (g.link s d).warnings = g.warnings := by
  unfold link
  split <;> rfl

theorem mem_links_link {g : Graph} {s d : Location} {e : Location × Location} :
    e ∈ (g.link s d).links ↔ e ∈ g.links ∨ e = (s, d) := by
  unfold link
  split
  · next h =>
    refine ⟨.inl, ?_⟩
    rintro (h' | rfl)
    · exact h'
    · exact h
  · simp

theorem mem_dependencies {g : Graph} {l d : Location} :
    d ∈ g.dependencies l ↔ (l, d) ∈ g.links := by
  simp [dependencies]

theorem dependencies_of_links {g h : Graph} (e : g.links = h.links) (l : Location) :
    g.dependencies l = h.dependencies l := by
  simp only [dependencies, e]

theorem links_link_of_links {g h : Graph} (e : g.links = h.links) (s d : Location) :
    (g.link s d).links = (h.link s d).links := by
  unfold link
  rw [e]
  split
  · exact e
  · rfl

theorem dependencies_link_of_ne {g : Graph} {s d l : Location} (h : l ≠ s) :
    (g.link s d).dependencies l = g.dependencies l := by
  have hs : (s == l) = false := by simpa using fun he => h he.symm
  unfold link
  split
  · rfl
  · simp [dependencies, hs]

theorem dependencies_link_self (g : Graph) (s d : Location) :
    (g.link s d).dependencies s =
      if d ∈ g.dependencies s then g.dependencies s else g.dependencies s ++ [d] := by
  by_cases h : (s, d) ∈ g.links
  · simp [link, h, mem_dependencies]
  · rw [if_neg (mt mem_dependencies.1 h)]
    simp [link, h, dependencies]

theorem mem_edges {g : Graph} {s d : Location} :
    (s, d) ∈ g.edges ↔ s ∈ g.locations ∧ (s, d) ∈ g.links := by
  simp only [edges, List.mem_flatMap, List.mem_map, locations, Prod.mk.injEq]
  constructor
  · rintro ⟨f, hf, k, hk, rfl, rfl⟩
    exact ⟨⟨f, hf, rfl⟩, mem_dependencies.1 hk⟩
  · rintro ⟨⟨f, hf, rfl⟩, hl⟩
    exact ⟨f, hf, d, mem_dependencies.2 hl, rfl, rfl⟩

end Graph

namespace Build

variable {t : FileTree} {root : Path}

/-- The source file that the graph holds for a location and its text. -/
def sourceFile (t : FileTree) (root : Path) (l : Location) (text : Text) : SourceFile :=
  ⟨l, text, (importsOf t root l text).map fun i => (i.1, settle t i.2)⟩

def targetsOf (t : FileTree) (imports : List (ImportDirective × Resolution)) : List Location :=
  imports.filterMap fun i => (settle t i.2).target?

/-- The readable files that the file at a location imports. -/
def targetsAt (t : FileTree) (root : Path) (l : Location) : List Location :=
  match t.textAt l with
  | .ok text => targetsOf t (importsOf t root l text)
  | .error _ => []

theorem targets_sourceFile (l : Location) (text : Text) :
    (sourceFile t root l text).targets = targetsOf t (importsOf t root l text) := by
  simp only [SourceFile.targets, sourceFile, targetsOf, List.filterMap_map]
  rfl

theorem targetsAt_of_textAt {l : Location} {text : Text} (h : t.textAt l = .ok text) :
    targetsAt t root l = targetsOf t (importsOf t root l text) := by
  simp only [targetsAt, h]

theorem settle_of_textAt {l : Location} {text : Text} (h : t.textAt l = .ok text) :
    settle t (.resolved l) = .resolved l := by
  simp only [settle, h]

theorem settle_of_error {l : Location} {fault : Fault} (h : t.textAt l = .error fault) :
    settle t (.resolved l) = .unresolved .unreadable := by
  simp only [settle, h]

theorem textAt_of_target {r : Resolution} {l : Location} (h : (settle t r).target? = some l) :
    r = .resolved l ∧ ∃ text, t.textAt l = .ok text := by
  cases r with
  | unresolved reason => simp [settle, Resolution.target?] at h
  | resolved k =>
    cases hk : t.textAt k with
    | error fault => simp [settle_of_error hk, Resolution.target?] at h
    | ok text =>
      rw [settle_of_textAt hk] at h
      have hkl : k = l := by simpa [Resolution.target?] using h
      exact ⟨by rw [hkl], text, by rw [← hkl, hk]⟩

/-! ### Changes of a graph -/

theorem graph_foldl_warn (g : Graph) (ws : List Warning) :
    (ws.foldl Graph.warn g).files = g.files ∧ (ws.foldl Graph.warn g).links = g.links ∧
      (ws.foldl Graph.warn g).warnings = g.warnings ++ ws := by
  induction ws generalizing g with
  | nil => simp
  | cons w ws ih =>
    obtain ⟨hf, hl, hw⟩ := ih (g.warn w)
    simp only [List.foldl_cons]
    exact ⟨hf, hl, by rw [hw]; simp [Graph.warn]⟩

/-- The graph with a file added, and with warnings for its imports with no file behind them. -/
def withFile (t : FileTree) (root : Path) (g : Graph) (l : Location) (text : Text) : Graph :=
  (missing l (importsOf t root l text)).foldl Graph.warn
    { g with files := g.files ++ [sourceFile t root l text] }

@[simp] theorem files_withFile (g : Graph) (l : Location) (text : Text) :
    (withFile t root g l text).files = g.files ++ [sourceFile t root l text] :=
  (graph_foldl_warn _ _).1

@[simp] theorem links_withFile (g : Graph) (l : Location) (text : Text) :
    (withFile t root g l text).links = g.links :=
  (graph_foldl_warn _ _).2.1

@[simp] theorem warnings_withFile (g : Graph) (l : Location) (text : Text) :
    (withFile t root g l text).warnings = g.warnings ++ missing l (importsOf t root l text) :=
  (graph_foldl_warn _ _).2.2

@[simp] theorem locations_withFile (g : Graph) (l : Location) (text : Text) :
    (withFile t root g l text).locations = g.locations ++ [l] := by
  simp [Graph.locations, sourceFile]

theorem locations_withFile_empty (l : Location) (text : Text) :
    (withFile t root .empty l text).locations = [l] :=
  locations_withFile .empty l text

theorem links_withFile_empty (l : Location) (text : Text) :
    (withFile t root .empty l text).links = [] :=
  links_withFile .empty l text

/-- The graph after an import of a file that it has already. -/
def meet (b : Build) (below : List Frame) (source target : Location) : Graph :=
  if target ∈ b.active then
    (b.graph.link source target).warn (.cyclicImport (ring below target))
  else b.graph.link source target

@[simp] theorem files_meet (b : Build) (below : List Frame) (source target : Location) :
    (meet b below source target).files = b.graph.files := by
  unfold meet
  split <;> simp

/-- An import of a file that is being entered is reported as a cycle. -/
theorem mem_warnings_meet {b : Build} {below : List Frame} {source target : Location}
    {w : Warning} : w ∈ (meet b below source target).warnings ↔
      w ∈ b.graph.warnings ∨ target ∈ b.active ∧ w = .cyclicImport (ring below target) := by
  unfold meet
  split
  · next hact => simp [Graph.warn, Graph.warnings_link, hact]
  · next hact => simp [Graph.warnings_link, hact]

@[simp] theorem locations_meet (b : Build) (below : List Frame) (source target : Location) :
    (meet b below source target).locations = b.graph.locations := by
  simp [Graph.locations]

@[simp] theorem links_meet (b : Build) (below : List Frame) (source target : Location) :
    (meet b below source target).links = (b.graph.link source target).links := by
  unfold meet
  split <;> rfl

/-! ### What a step does -/

/-- What one step of building does. -/
inductive Move (t : FileTree) (root : Path) : Build → Build → Prop
  | leave {g : Graph} {l : Location} {below : List Frame} {active : List Location} :
    Move t root ⟨g, ⟨l, []⟩ :: below, active⟩ ⟨g, below, active.erase l⟩
  | unresolved {g : Graph} {l : Location} {d : ImportDirective} {reason : UnresolvedReason}
      {rest : List (ImportDirective × Resolution)} {below : List Frame} {active : List Location} :
    Move t root ⟨g, ⟨l, (d, .unresolved reason) :: rest⟩ :: below, active⟩
      ⟨g, ⟨l, rest⟩ :: below, active⟩
  | unreadable {g : Graph} {l target : Location} {d : ImportDirective} {fault : Fault}
      {rest : List (ImportDirective × Resolution)} {below : List Frame} {active : List Location}
      (unknown : target ∉ g.locations) (fails : t.textAt target = .error fault) :
    Move t root ⟨g, ⟨l, (d, .resolved target) :: rest⟩ :: below, active⟩
      ⟨(g.report (.unreadable ⟨.readFile, target.path, fault⟩)).warn
        (.unresolvedImport d.path l.path .unreadable), ⟨l, rest⟩ :: below, active⟩
  | known {g : Graph} {l target : Location} {d : ImportDirective}
      {rest : List (ImportDirective × Resolution)} {below : List Frame} {active : List Location}
      (known : target ∈ g.locations) :
    Move t root ⟨g, ⟨l, (d, .resolved target) :: rest⟩ :: below, active⟩
      ⟨meet ⟨g, [], active⟩ (⟨l, rest⟩ :: below) l target, ⟨l, rest⟩ :: below, active⟩
  | fresh {g : Graph} {l target : Location} {d : ImportDirective} {text : Text}
      {rest : List (ImportDirective × Resolution)} {below : List Frame} {active : List Location}
      (unknown : target ∉ g.locations) (reads : t.textAt target = .ok text) :
    Move t root ⟨g, ⟨l, (d, .resolved target) :: rest⟩ :: below, active⟩
      ⟨(withFile t root (g.report (.following d.path l.path)) target text).link l target,
        ⟨target, importsOf t root target text⟩ :: ⟨l, rest⟩ :: below, target :: active⟩

theorem move_of_step {b c : Build} (h : step? t root b = some c) : Move t root b c := by
  obtain ⟨g, stack, active⟩ := b
  unfold step? at h
  split at h
  · simp at h
  · next l below hs =>
    obtain rfl := Option.some.inj h
    simp only at hs
    subst hs
    exact .leave
  · next l d r rest below hs =>
    simp only at hs
    subst hs
    cases r with
    | unresolved reason =>
      obtain rfl := Option.some.inj h
      exact .unresolved
    | resolved target =>
      obtain rfl := Option.some.inj h
      unfold follow
      by_cases hk : target ∈ g.locations
      · simp only [hk, if_true]
        exact .known hk
      · simp only [hk, if_false]
        cases ht : t.textAt target with
        | error fault => exact .unreadable hk ht
        | ok text => exact .fresh hk ht

theorem run_of_step {b c : Build} (h : step? t root b = some c) :
    run t root b = run t root c := by
  rw [run]
  split
  · next hn => simp [hn] at h
  · next c' hc =>
    rw [hc] at h
    rw [Option.some.inj h]

theorem run_of_empty (g : Graph) (active : List Location) : run t root ⟨g, [], active⟩ = g := by
  rw [run]
  split
  · rfl
  · next c hc => simp [step?] at hc

theorem stack_of_step?_eq_none {b : Build} (h : step? t root b = none) : b.stack = [] := by
  unfold step? at h
  split at h
  · assumption
  · simp at h
  · split at h <;> simp at h

/-- A run ends at an empty stack, and what every step keeps holds there. -/
theorem run_induction {P : Build → Prop} (keep : ∀ b c, Move t root b c → P b → P c) (b : Build)
    (hb : P b) : ∃ c, P c ∧ c.stack = [] ∧ run t root b = c.graph := by
  fun_induction run t root b with
  | case1 b hn => exact ⟨b, hb, stack_of_step?_eq_none hn, rfl⟩
  | case2 b c hc ih => exact ih (keep b c (move_of_step hc) hb)

end Build

end FlatSol
