import FlatSol.Proofs.FileTree.Way
import FlatSol.Proofs.Graph.Steps

/-!
# The import closure

The graph of an entry holds the files that the entry reaches by imports that lead to readable
files, and no others, each of them once; its edges are the imports. The invariant of the traversal
says of every file which of its targets were met and which are still pending on the stack.
-/

namespace FlatSol

/-- The least set of files with the entry in it and, with a file, every readable file that one of
its imports leads to. -/
inductive Reached (t : FileTree) (root : Path) (entry : Location) : Location → Prop
  | entry : Reached t root entry entry
  | follow {l target : Location} {text text' : Text} {d : ImportDirective}
      (reached : Reached t root entry l) (reads : t.textAt l = .ok text)
      (imported : d ∈ Source.imports text)
      (resolves : t.resolveImport d.path l.path root = .resolved target)
      (readable : t.textAt target = .ok text') : Reached t root entry target

theorem eraseDups_concat {α : Type} [BEq α] [LawfulBEq α] (xs : List α) (x : α) :
    (xs ++ [x]).eraseDups = if x ∈ xs then xs.eraseDups else xs.eraseDups ++ [x] := by
  rw [List.eraseDups_append]
  split
  · next h => simp [List.removeAll, h]
  · next h => simp [List.removeAll, h, List.eraseDups_cons]

namespace Build

variable {t : FileTree} {root : Path}

theorem mem_targetsAt {l target : Location} :
    target ∈ targetsAt t root l ↔ ∃ text, t.textAt l = .ok text ∧ ∃ d ∈ Source.imports text,
      t.resolveImport d.path l.path root = .resolved target ∧
        ∃ text', t.textAt target = .ok text' := by
  cases hl : t.textAt l with
  | error fault => simp [targetsAt, hl]
  | ok text =>
    simp only [targetsAt_of_textAt hl, targetsOf, importsOf, List.filterMap_map]
    rw [List.mem_filterMap]
    constructor
    · rintro ⟨d, hd, hs⟩
      obtain ⟨hr, hread⟩ := textAt_of_target hs
      exact ⟨text, rfl, d, hd, hr, hread⟩
    · rintro ⟨_, he, d, hd, hr, text', hread⟩
      obtain rfl := Except.ok.inj he
      refine ⟨d, hd, ?_⟩
      simp [hr, settle_of_textAt hread, Resolution.target?]

theorem reached_of_mem_targetsAt {entry l target : Location} (h : Reached t root entry l)
    (hm : target ∈ targetsAt t root l) : Reached t root entry target := by
  obtain ⟨text, hl, d, hd, hr, text', ht⟩ := mem_targetsAt.1 hm
  exact .follow h hl hd hr ht

/-! ### What the traversal keeps -/

/-- The targets of the file at a location that the stack has still to meet. -/
def pendingTargets (t : FileTree) : List Frame → Location → List Location
  | [], _ => []
  | f :: fs, l => if f.location = l then targetsOf t f.pending else pendingTargets t fs l

theorem pendingTargets_cons_self (l : Location) (p : List (ImportDirective × Resolution))
    (fs : List Frame) : pendingTargets t (⟨l, p⟩ :: fs) l = targetsOf t p := by
  rw [pendingTargets, if_pos rfl]

theorem pendingTargets_cons_of_ne {l k : Location} (h : k ≠ l)
    (p : List (ImportDirective × Resolution)) (fs : List Frame) :
    pendingTargets t (⟨l, p⟩ :: fs) k = pendingTargets t fs k := by
  rw [pendingTargets, if_neg (Ne.symm h)]

theorem pendingTargets_of_notMem {stack : List Frame} {l : Location}
    (h : l ∉ stack.map Frame.location) : pendingTargets t stack l = [] := by
  induction stack with
  | nil => rfl
  | cons f fs ih =>
    simp only [List.map_cons, List.mem_cons, not_or] at h
    rw [pendingTargets_cons_of_ne h.1, ih h.2]

/-- The part of the invariant that looks at one file: which of its targets were met. -/
def Met (t : FileTree) (root : Path) (g : Graph) (stack : List Frame) (l : Location) : Prop :=
  ∃ met, targetsAt t root l = met ++ pendingTargets t stack l ∧
    g.dependencies l = met.eraseDups ∧ ∀ d ∈ met, d ∈ g.locations

/-- What holds at every moment of building the graph of `entry`. -/
structure Traversed (t : FileTree) (root : Path) (entry : Location) (b : Build) : Prop where
  head : b.graph.locations.head? = some entry
  nodup : b.graph.locations.Nodup
  files : ∀ f ∈ b.graph.files, ∃ text, t.textAt f.location = .ok text ∧
    f = sourceFile t root f.location text
  reached : ∀ l ∈ b.graph.locations, Reached t root entry l
  stackNodup : (b.stack.map Frame.location).Nodup
  stackKnown : ∀ l ∈ b.stack.map Frame.location, l ∈ b.graph.locations
  active : b.active = b.stack.map Frame.location
  sources : ∀ e ∈ b.graph.links, e.1 ∈ b.graph.locations
  met : ∀ l ∈ b.graph.locations, Met t root b.graph b.stack l

theorem Met.of_eq {g h : Graph} {s r : List Frame} {l : Location} (m : Met t root g s l)
    (hp : pendingTargets t r l = pendingTargets t s l)
    (hd : h.dependencies l = g.dependencies l) (hl : ∀ k ∈ g.locations, k ∈ h.locations) :
    Met t root h r l := by
  obtain ⟨met, hs, hm, hk⟩ := m
  exact ⟨met, by rw [hp]; exact hs, by rw [hd]; exact hm, fun d hdm => hl d (hk d hdm)⟩

/-- The target in front is met: the file has the edge to it from now on. -/
theorem Met.link {g h : Graph} {s r : List Frame} {l target : Location} (m : Met t root g s l)
    (hp : pendingTargets t s l = target :: pendingTargets t r l)
    (hd : h.dependencies l = (g.link l target).dependencies l)
    (hl : ∀ k ∈ g.locations, k ∈ h.locations) (ht : target ∈ h.locations) :
    Met t root h r l := by
  obtain ⟨met, hs, hm, hk⟩ := m
  refine ⟨met ++ [target], ?_, ?_, ?_⟩
  · rw [hs, hp, List.append_assoc, List.singleton_append]
  · rw [hd, Graph.dependencies_link_self, eraseDups_concat, hm]
    simp only [List.mem_eraseDups]
  · intro d hdm
    rcases List.mem_append.1 hdm with hdm | hdm
    · exact hl d (hk d hdm)
    · rw [List.mem_singleton.1 hdm]
      exact ht

/-- A file that is entered has no edge yet, and all its targets are pending. -/
theorem Met.fresh {g : Graph} {l : Location} {text : Text} {below : List Frame}
    (hr : t.textAt l = .ok text) (hd : g.dependencies l = []) :
    Met t root g (⟨l, importsOf t root l text⟩ :: below) l := by
  refine ⟨[], ?_, hd, fun d hd => absurd hd List.not_mem_nil⟩
  rw [pendingTargets_cons_self, targetsAt_of_textAt hr, List.nil_append]

/-- A step that adds no file keeps the invariant if it keeps what there is to say of each file. -/
theorem Traversed.of_files {entry : Location} {b c : Build} (h : Traversed t root entry b)
    (hf : c.graph.files = b.graph.files)
    (hs : (c.stack.map Frame.location).Sublist (b.stack.map Frame.location))
    (ha : c.active = c.stack.map Frame.location)
    (hsources : ∀ e ∈ c.graph.links, e.1 ∈ b.graph.locations)
    (hmet : ∀ l ∈ b.graph.locations, (∀ k ∈ b.graph.locations, k ∈ c.graph.locations) →
      Met t root c.graph c.stack l) : Traversed t root entry c := by
  have hloc : c.graph.locations = b.graph.locations := by simp only [Graph.locations, hf]
  constructor
  case head =>
    rw [hloc]
    exact h.head
  case nodup =>
    rw [hloc]
    exact h.nodup
  case files =>
    rw [hf]
    exact h.files
  case reached =>
    rw [hloc]
    exact h.reached
  case stackNodup => exact hs.nodup h.stackNodup
  case stackKnown =>
    rw [hloc]
    exact fun l hm => h.stackKnown l (hs.subset hm)
  case active => exact ha
  case sources =>
    rw [hloc]
    exact hsources
  case met =>
    rw [hloc]
    exact fun l hl => hmet l hl fun k hk => hloc ▸ hk

/-- A step that adds no file and no edge keeps the invariant if it keeps what is pending. -/
theorem Traversed.pass {entry : Location} {b c : Build} (h : Traversed t root entry b)
    (hf : c.graph.files = b.graph.files) (hl : c.graph.links = b.graph.links)
    (hs : (c.stack.map Frame.location).Sublist (b.stack.map Frame.location))
    (ha : c.active = c.stack.map Frame.location)
    (hp : ∀ l, pendingTargets t c.stack l = pendingTargets t b.stack l) :
    Traversed t root entry c := by
  refine h.of_files hf hs ha (by rw [hl]; exact h.sources) fun l hm hknown => ?_
  exact (h.met l hm).of_eq (hp l) (Graph.dependencies_of_links hl l) hknown

/-- A file that is not yet found has no edge. -/
theorem Traversed.dependencies_of_unknown {entry : Location} {b : Build} {l : Location}
    (h : Traversed t root entry b) (hu : l ∉ b.graph.locations) : b.graph.dependencies l = [] := by
  refine List.eq_nil_iff_forall_not_mem.2 fun d hd => ?_
  exact hu (h.sources _ (Graph.mem_dependencies.1 hd))

theorem Traversed.sources_link {entry : Location} {b c : Build} {l target : Location}
    (h : Traversed t root entry b) (hl : c.graph.links = (b.graph.link l target).links)
    (hlm : l ∈ b.graph.locations) : ∀ e ∈ c.graph.links, e.1 ∈ b.graph.locations := by
  intro e he
  rw [hl, Graph.mem_links_link] at he
  rcases he with he | rfl
  · exact h.sources e he
  · exact hlm

/-- When a file meets a target, it has one pending target less, and no other file changes. -/
theorem Traversed.met_link {entry : Location} {b c : Build} {l target k : Location}
    (h : Traversed t root entry b) (hl : c.graph.links = (b.graph.link l target).links)
    (hknown : ∀ j ∈ b.graph.locations, j ∈ c.graph.locations) (ht : target ∈ c.graph.locations)
    (hself : pendingTargets t b.stack l = target :: pendingTargets t c.stack l)
    (hk : k ∈ b.graph.locations)
    (hp : k ≠ l → pendingTargets t c.stack k = pendingTargets t b.stack k) :
    Met t root c.graph c.stack k := by
  have hdeps := Graph.dependencies_of_links hl k
  by_cases hkl : k = l
  · subst hkl
    exact (h.met k hk).link hself hdeps hknown ht
  · rw [Graph.dependencies_link_of_ne hkl] at hdeps
    exact (h.met k hk).of_eq (hp hkl) hdeps hknown

theorem Traversed.meets {entry : Location} {b c : Build} {l target : Location}
    (h : Traversed t root entry b) (hf : c.graph.files = b.graph.files)
    (hl : c.graph.links = (b.graph.link l target).links)
    (hs : c.stack.map Frame.location = b.stack.map Frame.location) (ha : c.active = b.active)
    (hlm : l ∈ b.graph.locations) (ht : target ∈ b.graph.locations)
    (hself : pendingTargets t b.stack l = target :: pendingTargets t c.stack l)
    (hp : ∀ k, k ≠ l → pendingTargets t c.stack k = pendingTargets t b.stack k) :
    Traversed t root entry c := by
  have hstack : (c.stack.map Frame.location).Sublist (b.stack.map Frame.location) := by rw [hs]
  refine h.of_files hf hstack ?_ (h.sources_link hl hlm) fun k hk hknown => ?_
  · rw [ha, hs, h.active]
  · exact h.met_link hl hknown (hknown target ht) hself hk (hp k)

theorem Traversed.enters {entry : Location} {b c : Build} {l target : Location} {text : Text}
    {rest : List (ImportDirective × Resolution)} {below : List Frame}
    (h : Traversed t root entry b) (hu : target ∉ b.graph.locations)
    (hr : t.textAt target = .ok text)
    (hf : c.graph.files = b.graph.files ++ [sourceFile t root target text])
    (hl : c.graph.links = (b.graph.link l target).links)
    (hcs : c.stack = ⟨target, importsOf t root target text⟩ :: ⟨l, rest⟩ :: below)
    (hbs : b.stack.map Frame.location = l :: below.map Frame.location)
    (ha : c.active = target :: b.active)
    (hself : pendingTargets t b.stack l = target :: targetsOf t rest)
    (hp : ∀ k, k ≠ l → pendingTargets t b.stack k = pendingTargets t (⟨l, rest⟩ :: below) k) :
    Traversed t root entry c := by
  have hloc : c.graph.locations = b.graph.locations ++ [target] := by
    simp only [Graph.locations, hf, List.map_append]
    rfl
  have hlm : l ∈ b.graph.locations := h.stackKnown l (by rw [hbs]; exact List.mem_cons_self)
  have hlt : l ≠ target := fun he => hu (he ▸ hlm)
  have htl : target ∈ targetsAt t root l := by
    obtain ⟨met, hs, -, -⟩ := h.met l hlm
    rw [hs, hself]
    simp
  have hstack : c.stack.map Frame.location = target :: b.stack.map Frame.location := by
    rw [hcs, hbs]
    rfl
  have hsub : ∀ k ∈ b.graph.locations, k ∈ c.graph.locations := fun k hk => by
    rw [hloc]
    exact List.mem_append_left _ hk
  have htc : target ∈ c.graph.locations := by simp [hloc]
  have hpending : ∀ k, k ≠ target →
      pendingTargets t c.stack k = pendingTargets t (⟨l, rest⟩ :: below) k := fun k hk => by
    rw [hcs, pendingTargets_cons_of_ne hk]
  constructor
  case head =>
    rw [hloc, List.head?_append, h.head]
    rfl
  case nodup =>
    rw [hloc, List.nodup_append]
    refine ⟨h.nodup, by simp, ?_⟩
    intro k hk k' hk' he
    rw [List.mem_singleton.1 hk'] at he
    exact hu (he ▸ hk)
  case files =>
    intro f hm
    rw [hf] at hm
    rcases List.mem_append.1 hm with hm | hm
    · exact h.files f hm
    · rw [List.mem_singleton.1 hm]
      exact ⟨text, hr, rfl⟩
  case reached =>
    intro k hk
    rw [hloc] at hk
    rcases List.mem_append.1 hk with hk | hk
    · exact h.reached k hk
    · rw [List.mem_singleton.1 hk]
      exact reached_of_mem_targetsAt (h.reached l hlm) htl
  case stackNodup =>
    have hts : target ∉ b.stack.map Frame.location := fun hm => hu (h.stackKnown target hm)
    rw [hstack]
    exact List.nodup_cons.2 ⟨hts, h.stackNodup⟩
  case stackKnown =>
    intro k hk
    rw [hstack] at hk
    rcases List.mem_cons.1 hk with rfl | hk
    · exact htc
    · exact hsub k (h.stackKnown k hk)
  case active => rw [ha, hstack, h.active]
  case sources =>
    exact fun e he => hsub _ (h.sources_link hl hlm e he)
  case met =>
    intro k hk
    by_cases hkt : k = target
    · subst hkt
      have hnone : c.graph.dependencies k = [] := by
        rw [Graph.dependencies_of_links hl, Graph.dependencies_link_of_ne (Ne.symm hlt)]
        exact h.dependencies_of_unknown hu
      rw [hcs]
      exact .fresh hr hnone
    · rw [hloc] at hk
      have hkb : k ∈ b.graph.locations := by
        rcases List.mem_append.1 hk with hk | hk
        · exact hk
        · exact absurd (List.mem_singleton.1 hk) hkt
      refine h.met_link hl hsub htc ?_ hkb fun hkl => ?_
      · rw [hself, hpending l hlt, pendingTargets_cons_self]
      · rw [hpending k hkt, hp k hkl]

theorem targetsOf_cons_of_textAt {d : ImportDirective} {l : Location} {text : Text}
    (h : t.textAt l = .ok text) (p : List (ImportDirective × Resolution)) :
    targetsOf t ((d, .resolved l) :: p) = l :: targetsOf t p := by
  simp [targetsOf, settle_of_textAt h, Resolution.target?]

theorem targetsOf_cons_of_error {d : ImportDirective} {l : Location} {fault : Fault}
    (h : t.textAt l = .error fault) (p : List (ImportDirective × Resolution)) :
    targetsOf t ((d, .resolved l) :: p) = targetsOf t p := by
  simp [targetsOf, settle_of_error h, Resolution.target?]

theorem Traversed.textAt {entry l : Location} {b : Build} (h : Traversed t root entry b)
    (hl : l ∈ b.graph.locations) : ∃ text, t.textAt l = .ok text := by
  obtain ⟨f, hf, rfl⟩ := List.mem_map.1 hl
  obtain ⟨text, hr, -⟩ := h.files f hf
  exact ⟨text, hr⟩

theorem Traversed.move {entry : Location} {b c : Build} (m : Move t root b c)
    (h : Traversed t root entry b) : Traversed t root entry c := by
  have hn := h.stackNodup
  have ha := h.active
  cases m with
  | @leave g l below active =>
    simp only [List.map_cons, List.nodup_cons] at hn ha
    refine h.pass rfl rfl (List.sublist_cons_self _ _) ?_ fun k => ?_
    · simp [ha]
    · by_cases hk : k = l
      · subst hk
        rw [pendingTargets_cons_self, pendingTargets_of_notMem hn.1]
        rfl
      · rw [pendingTargets_cons_of_ne hk]
  | unresolved =>
    refine h.pass rfl rfl (List.Sublist.refl _) ha fun k => ?_
    simp [pendingTargets, targetsOf, settle, Resolution.target?]
  | unreadable unknown fails =>
    refine h.pass rfl rfl (List.Sublist.refl _) ha fun k => ?_
    simp only [pendingTargets, targetsOf_cons_of_error fails]
  | @known g l target d rest below active known =>
    obtain ⟨text, hr⟩ := h.textAt known
    have hl : l ∈ g.locations := h.stackKnown l (by simp)
    refine h.meets (by simp) (by simp) rfl rfl hl known ?_ ?_
    · simp only [pendingTargets_cons_self, targetsOf_cons_of_textAt hr]
    · intro k hk
      simp only [pendingTargets_cons_of_ne hk]
  | @fresh g l target d text rest below active unknown reads =>
    refine h.enters unknown reads (by simp) ?_ rfl rfl rfl ?_ ?_
    · exact Graph.links_link_of_links (by simp) l target
    · simp only [pendingTargets_cons_self, targetsOf_cons_of_textAt reads]
    · intro k hk
      simp only [pendingTargets_cons_of_ne hk]

/-! ### From the start to the end -/

theorem start_eq (l : Location) (text : Text) :
    start t root l text =
      ⟨withFile t root .empty l text, [⟨l, importsOf t root l text⟩], [l]⟩ := rfl

theorem traversed_start (root : Path) {l : Location} {text : Text} (h : t.textAt l = .ok text) :
    Traversed t root l (start t root l text) := by
  rw [start_eq]
  have hloc : (withFile t root .empty l text).locations = [l] := locations_withFile_empty l text
  have hlinks : (withFile t root .empty l text).links = [] := links_withFile_empty l text
  refine ⟨?_, ?_, ?_, ?_, ?_, ?_, ?_, ?_, ?_⟩
  · simp only [hloc, List.head?_cons]
  · simp [hloc]
  · intro f hf
    rw [files_withFile] at hf
    rw [List.mem_singleton.1 hf]
    exact ⟨text, h, rfl⟩
  · intro k hk
    simp only [hloc, List.mem_singleton] at hk
    exact hk ▸ .entry
  · simp
  · simp [hloc]
  · rfl
  · intro e he
    rw [hlinks] at he
    exact absurd he List.not_mem_nil
  · intro k hk
    simp only [hloc, List.mem_singleton] at hk
    subst hk
    refine ⟨[], ?_, ?_, by simp⟩
    · rw [pendingTargets_cons_self, targetsAt_of_textAt h, List.nil_append]
    · rw [Graph.dependencies, hlinks]
      rfl

end Build

theorem FileTree.canonical_of_locate {t : FileTree} {p : Path} {l : Location}
    (h : t.locate p = .ok l) : t.canonical? p = some l := by
  unfold locate at h
  split at h
  · next k hk => rw [hk, Except.ok.inj h]
  · -- a path that can be followed has a canonical location
    obtain ⟨hcheck, start, m, ho, w⟩ := resolve_eq_ok_iff.1 h
    exact canonical_of_way hcheck ho w

namespace Graph

variable {t : FileTree} {entry root : Path} {g : Graph}

theorem exists_start_of_build (h : build t entry root = .ok g) :
    ∃ l text, t.canonical? entry = some l ∧ t.textAt l = .ok text ∧
      g = Build.run t (t.normalize root) (Build.start t (t.normalize root) l text) := by
  unfold build at h
  split at h
  · simp at h
  · next l hl =>
    split at h
    · simp at h
    · next text ht =>
      exact ⟨l, text, FileTree.canonical_of_locate hl, ht, (Except.ok.inj h).symm⟩

/-- A built graph is what the traversal leaves behind when nothing is pending. -/
theorem traversed_of_build (h : build t entry root = .ok g) :
    ∃ l, t.canonical? entry = some l ∧
      Build.Traversed t (t.normalize root) l ⟨g, [], []⟩ := by
  obtain ⟨l, text, hl, ht, rfl⟩ := exists_start_of_build h
  obtain ⟨c, hc, hs, hg⟩ := Build.run_induction (fun b c m hb => Build.Traversed.move m hb)
    _ (Build.traversed_start _ ht)
  obtain ⟨graph, stack, active⟩ := c
  obtain rfl : stack = [] := hs
  obtain rfl : active = [] := hc.active
  refine ⟨l, hl, ?_⟩
  rw [hg]
  exact hc

/-- A graph that is the import closure of a file: the files are the reached ones, each once and by
its canonical path, with their contents and imports; every import that is still resolved has its
edge, and the edges are those of the imports, file by file. -/
structure IsClosure (g : Graph) (t : FileTree) (root : Path) (entry : Location) : Prop where
  distinct : (g.files.map SourceFile.path).Nodup
  canonical : ∀ f ∈ g.files, t.canonical? f.path = some f.location
  reached : ∀ l, l ∈ g.locations ↔ Reached t root entry l
  contents : ∀ f ∈ g.files, t.textAt f.location = .ok f.text ∧
    f.imports.map Prod.fst = Source.imports f.text
  linked : ∀ f ∈ g.files, ∀ d target, (d, .resolved target) ∈ f.imports →
    target ∈ g.locations ∧ (f.location, target) ∈ g.edges
  edges : g.edges = g.files.flatMap fun f => f.targets.eraseDups.map fun d => (f.location, d)

end Graph

section Built

variable {t : FileTree} {root : Path} {entry : Location} {g : Graph}

open Build

theorem Build.Traversed.imports_eq {b : Build} (h : Build.Traversed t root entry b) :
    ∀ f ∈ b.graph.files, f.imports.map Prod.fst = Source.imports f.text := by
  intro f hf
  obtain ⟨text, -, hs⟩ := h.files f hf
  have htext : f.text = text := by rw [hs]; rfl
  rw [htext, hs]
  simp [sourceFile, importsOf, Function.comp_def]

theorem resolveImport_eq_resolved_iff {path : Text} {source : Path} {target : Location} :
    t.resolveImport path source root = .resolved target ↔
      t.fileLocation? (importCandidate path source root) = some target ∧
        target.path.isInside (t.normalize root) = true := by
  unfold FileTree.resolveImport
  cases t.fileLocation? (importCandidate path source root) with
  | none => simp
  | some l =>
    by_cases hin : l.path.isInside (t.normalize root) = true
    · simp only [if_pos hin, Resolution.resolved.injEq, Option.some.injEq]
      exact ⟨fun h => ⟨h, h ▸ hin⟩, And.left⟩
    · simp only [if_neg hin, Option.some.injEq, reduceCtorEq, false_iff]
      rintro ⟨rfl, h⟩
      exact hin h

theorem canonical_of_resolved {path : Text} {source : Path} {target : Location}
    (h : t.resolveImport path source root = .resolved target) :
    t.canonical? (importCandidate path source root) = some target := by
  have hfile := (resolveImport_eq_resolved_iff.1 h).1
  rw [FileTree.fileLocation?, Option.filter_eq_some_iff] at hfile
  exact hfile.1

theorem stands_of_resolved (hw : t.WellFormed) {path : Text} {source : Path} {target : Location}
    (h : t.resolveImport path source root = .resolved target) : t.Stands target :=
  hw.stands_of_canonical (canonical_of_resolved h)

theorem stands_of_reached (hw : t.WellFormed) (he : t.Stands entry) {l : Location}
    (h : Reached t root entry l) : t.Stands l := by
  cases h with
  | entry => exact he
  | follow _ _ _ hr _ => exact stands_of_resolved hw hr

theorem proper_of_stands (hw : t.WellFormed) {l : Location} (h : t.Stands l) : l.Proper := by
  obtain ⟨e, he, -⟩ := h
  exact hw.proper he

theorem dependencies_of_traversed (h : Traversed t root entry ⟨g, [], []⟩) {l : Location}
    (hl : l ∈ g.locations) : g.dependencies l = (targetsAt t root l).eraseDups ∧
      ∀ d ∈ targetsAt t root l, d ∈ g.locations := by
  obtain ⟨met, hs, hd, hk⟩ := h.met l hl
  have hm : targetsAt t root l = met := by rw [hs, pendingTargets, List.append_nil]
  exact ⟨by rw [hm]; exact hd, by rw [hm]; exact hk⟩

theorem targets_of_traversed (h : Traversed t root entry ⟨g, [], []⟩) {f : SourceFile}
    (hf : f ∈ g.files) : f.targets = targetsAt t root f.location := by
  obtain ⟨text, ht, he⟩ := h.files f hf
  rw [targetsAt_of_textAt ht, he, targets_sourceFile]
  rfl

theorem mem_locations_iff_reached (h : Traversed t root entry ⟨g, [], []⟩) (l : Location) :
    l ∈ g.locations ↔ Reached t root entry l := by
  refine ⟨h.reached l, fun hr => ?_⟩
  induction hr with
  | entry => exact List.mem_of_mem_head? h.head
  | follow _ hl hd hr ht ih =>
    exact (dependencies_of_traversed h ih).2 _ (mem_targetsAt.2 ⟨_, hl, _, hd, hr, _, ht⟩)

/-- A resolved import leads to a file of the graph and has its edge. -/
theorem linked_of_traversed (h : Traversed t root entry ⟨g, [], []⟩) {f : SourceFile}
    (hf : f ∈ g.files) {d : ImportDirective} {target : Location}
    (hi : (d, .resolved target) ∈ f.imports) :
    target ∈ g.locations ∧ (f.location, target) ∈ g.edges := by
  have hl : f.location ∈ g.locations := List.mem_map_of_mem hf
  have htarget : target ∈ targetsAt t root f.location := by
    rw [← targets_of_traversed h hf]
    exact List.mem_filterMap.2 ⟨(d, .resolved target), hi, rfl⟩
  obtain ⟨hd, hk⟩ := dependencies_of_traversed h hl
  refine ⟨hk target htarget, Graph.mem_edges.2 ⟨hl, Graph.mem_dependencies.1 ?_⟩⟩
  rw [hd]
  exact List.mem_eraseDups.2 htarget

theorem isClosure_of_traversed (hw : t.WellFormed) (he : t.Stands entry)
    (h : Traversed t root entry ⟨g, [], []⟩) : g.IsClosure t root entry := by
  have stands : ∀ l ∈ g.locations, t.Stands l := fun l hl =>
    stands_of_reached hw he (h.reached l hl)
  have mem : ∀ f ∈ g.files, f.location ∈ g.locations := fun f hf => List.mem_map_of_mem hf
  have deps : ∀ f ∈ g.files, g.dependencies f.location = f.targets.eraseDups := fun f hf => by
    rw [targets_of_traversed h hf]
    exact (dependencies_of_traversed h (mem f hf)).1
  refine ⟨?_, ?_, mem_locations_iff_reached h, ?_, ?_, ?_⟩
  · have hpaths : g.files.map SourceFile.path = g.locations.map Location.path := by
      simp only [Graph.locations, List.map_map]
      rfl
    rw [hpaths]
    refine List.Nodup.map_on (fun l hl k hk hp => ?_) h.nodup
    exact Location.path_injective (proper_of_stands hw (stands l hl))
      (proper_of_stands hw (stands k hk)) hp
  · exact fun f hf => hw.canonical_path_of_stands (stands _ (mem f hf))
  · intro f hf
    obtain ⟨text, ht, hs⟩ := h.files f hf
    have htext : f.text = text := by rw [hs]; rfl
    exact ⟨by rw [ht, htext], h.imports_eq f hf⟩
  · exact fun f hf d target hi => linked_of_traversed h hf hi
  · unfold Graph.edges
    exact List.flatMap_congr fun f hf => by rw [deps f hf]

end Built

/-- An entry that can be read has a graph. -/
theorem Graph.exists_build {t : FileTree} {entry : Path} {l : Location} {text : Text}
    (hl : t.canonical? entry = some l) (ht : t.textAt l = .ok text) (root : Path) :
    ∃ g, Graph.build t entry root = .ok g := by
  have hlocate : t.locate entry = .ok l := by rw [FileTree.locate, hl]
  simp only [Graph.build, hlocate, ht]
  exact ⟨_, rfl⟩

/-- A directory of files that import one another in rings, one of them through a link and one of them
itself, with a file that is no text. -/
def ringTree : FileTree where
  entries :=
    [(["p".toList], .dir),
      (["p".toList, "A.sol".toList], .file (Text.toBytes
        "import \"./B.sol\";\nimport \"../p/L.sol\";\nimport \"./X.sol\";\n".toList)),
      (["p".toList, "B.sol".toList], .file (Text.toBytes
        "import \"./C.sol\";\nimport \"./A.sol\";\n".toList)),
      (["p".toList, "C.sol".toList], .file (Text.toBytes
        "import \"./B.sol\";\nimport \"./C.sol\";\n".toList)),
      (["p".toList, "L.sol".toList], .link "B.sol".toList),
      (["p".toList, "X.sol".toList], .file ⟨#[255]⟩)]
  workDir := some ["p".toList]

theorem ringTree_wellFormed : ringTree.WellFormed := by decide

theorem canonical_ringTree :
    ringTree.canonical? ⟨"A.sol".toList⟩ = some ["p".toList, "A.sol".toList] := by cbv

theorem textAt_ringTree : ringTree.textAt ["p".toList, "A.sol".toList] = .ok
    "import \"./B.sol\";\nimport \"../p/L.sol\";\nimport \"./X.sol\";\n".toList := by
  have hfile : ringTree.get? ["p".toList, "A.sol".toList] = some (.file (Text.toBytes
      "import \"./B.sol\";\nimport \"../p/L.sol\";\nimport \"./X.sol\";\n".toList)) := rfl
  simp only [FileTree.textAt, hfile, Text.ofBytes?_toBytes]

theorem exists_build_ringTree :
    ∃ g, Graph.build ringTree ⟨"A.sol".toList⟩ ⟨"/p".toList⟩ = .ok g :=
  Graph.exists_build canonical_ringTree textAt_ringTree _

end FlatSol
