import FlatSol.Project.Root
import FlatSol.Proofs.FileTree.Delivery
import FlatSol.Proofs.FileTree.Rewrite
import FlatSol.Proofs.FileTree.Straight

/-!
# The nearest project

The search for a project root walks upward through the text of a path, and asks of each text what it
denotes. Without `..` the texts denote the directories around the start from the inside out, so the
first project that is met is the nearest one. A `..` keeps the order as long as it leaves directories
that exist and no project that the start does not lie in.
-/

namespace FlatSol

theorem exists_of_concat_eq {α : Type} {init front rest : List α} {x y : α}
    (h : init ++ [x] = front ++ y :: rest) (hxy : x ≠ y) :
    ∃ before, rest = before ++ [x] ∧ init = front ++ y :: before := by
  rcases List.eq_nil_or_concat' rest with rfl | ⟨before, z, rfl⟩
  · have hlast := (List.append_inj' h rfl).2
    exact absurd (List.cons.inj hlast).1 hxy
  · rw [← List.cons_append, ← List.append_assoc] at h
    obtain ⟨rfl, hlast⟩ := List.append_inj' h rfl
    exact ⟨before, by rw [hlast], rfl⟩

namespace FileTree

variable {t : FileTree} {p q : Path} {d k l : Location} {n : Text} {steps : List Step}

/-! ### A file in the directory of a path -/

/-- The name leads to a regular file in the directory: to the file itself or by links. -/
def HoldsFile (t : FileTree) (k : Location) (n : Text) (links : Nat) : Prop :=
  ∃ m l bytes, Way t links k [.into n] m l ∧ t.get? l = some (.file bytes)

theorem HoldsFile.dir {links : Nat} (h : t.HoldsFile k n links) : t.get? k = some .dir := by
  obtain ⟨m, l, bytes, w, -⟩ := h
  cases w with
  | link dir _ _ _ => exact dir
  | into dir _ _ _ _ => exact dir

theorem WellFormed.isFile_join_iff (hw : t.WellFormed) (hn : isName n = true) (hs : '/' ∉ n) :
    t.isFile (p.join ⟨n⟩) = true ↔ Text.byteSize (p.join ⟨n⟩).text ≤ maxPathSize ∧
      ∃ start m k, t.origin (p.join ⟨n⟩) = .ok start ∧
        Way t maxLinks start (moves p.steps) m k ∧ t.HoldsFile k n m := by
  obtain ⟨hname, hfront, hslash⟩ := Path.splitLast_join p hn hs
  rw [isFile_iff]
  constructor
  · rintro ⟨l, bytes, hl, hbytes⟩
    obtain ⟨start, k, j, m, ho, w, -, v⟩ := exists_way_of_resolve hl hname hn hslash
    have hc := (resolve_eq_ok_iff.1 hl).1
    exact ⟨(checkPath_eq_ok_iff.1 hc).2.2, start, j, k, ho, hfront ▸ w, m, l, bytes, v, hbytes⟩
  · rintro ⟨hsize, start, m, k, ho, w, hfile⟩
    have hdir := hfile.dir
    obtain ⟨m', l, bytes, v, hbytes⟩ := hfile
    have hway : Way t maxLinks start (p.join ⟨n⟩).steps m' l := by
      rw [steps_of_splitLast hname hn hslash]
      exact (w.of_moves hdir (by rw [moves_moves, ← hfront]; rfl)).append v
    have hne : (p.join ⟨n⟩).text ≠ [] := by
      intro hnil
      rw [splitLast, Path.pieces, hnil] at hname
      cases hname
    have hcheck := checkPath_eq_ok_iff.2
      ⟨nul_notMem_of_steps (hw.nul_notMem_of_way hway), hne, hsize⟩
    exact ⟨l, bytes, resolve_eq_ok_iff.2 ⟨hcheck, start, m', ho, hway⟩, hbytes⟩

/-! ### The absolute form of a path -/

/-- The absolute path that the absolute form of a path begins with. -/
def front? (t : FileTree) (p : Path) : Option Path :=
  if p.isAbsolute then
    some ⟨if Text.startsWith ['/', '/'] p.text && !Text.startsWith ['/', '/', '/'] p.text
      then ['/', '/'] else ['/']⟩
  else t.workDir.map Location.path

theorem WellFormed.front_spec (hw : t.WellFormed) {here : Location} (ho : t.origin p = .ok here) :
    ∃ front, t.front? p = some front ∧ front.isAbsolute = true ∧
      moves front.steps = here.map .into := by
  unfold origin at ho
  unfold front?
  split at ho
  · next ha =>
    obtain rfl := Except.ok.inj ho
    rw [if_pos ha]
    refine ⟨_, rfl, ?_⟩
    split <;> exact ⟨rfl, rfl⟩
  · next ha =>
    rw [if_neg ha]
    split at ho
    · next w hwd =>
      obtain rfl := Except.ok.inj ho
      have hproper : w.Proper := hw.proper (hw.workDir w hwd)
      exact ⟨w.path, by rw [hwd]; rfl, Location.isAbsolute_path w, Location.moves_path hproper⟩
    · cases ho

/-- The components that an absolute form takes over make the moves of the path. -/
theorem filterMap_move_components (p : Path) :
    (p.components.filter fun c => c != .root && c != .here).filterMap Component.move? =
      moves p.steps := by
  rw [Path.moves_eq_components, List.filterMap_filter]
  refine List.filterMap_congr fun c _ => ?_
  cases c <;> rfl

/-- A path is counted from where it starts, and its `..` are kept. -/
theorem WellFormed.anchored_spec (hw : t.WellFormed) {here : Location} (hp : p.text ≠ [])
    (ho : t.origin p = .ok here) : ∃ q, t.anchored? p = some q ∧ q.isAbsolute = true ∧
      moves q.steps = here.map .into ++ moves p.steps := by
  obtain ⟨front, hfront, habsolute, hmoves⟩ := hw.front_spec ho
  have hnotRoot : .root ∉ p.components.filter fun c => c != .root && c != .here := by simp
  obtain ⟨hne, ha, hm⟩ := Path.extend_spec (Path.text_ne_nil habsolute) hnotRoot
    fun n hn => Path.isName_of_mem_components (List.mem_of_mem_filter hn)
  rw [hmoves, filterMap_move_components] at hm
  rw [habsolute] at ha
  have hempty : p.text.isEmpty = false := by simpa using hp
  unfold front? at hfront
  simp only [anchored?, hempty, Bool.false_eq_true, if_false, hfront, Option.map_some]
  refine ⟨_, rfl, ?_⟩
  split
  · -- the slash at the end adds no move
    refine ⟨(Path.isAbsolute_join _ rfl hne).trans ha, (Path.moves_join _ rfl).trans ?_⟩
    rw [hm]
    exact List.append_nil _
  · exact ⟨ha, hm⟩

end FileTree

namespace Project

open FileTree

variable {t : FileTree} {start base q : Path} {d k l : Location}

/-- A directory with a configuration file directly in it. -/
def Marked (t : FileTree) (k : Location) : Prop :=
  ∃ n ∈ configFileNames, t.HoldsFile k n maxLinks

theorem Marked.dir (h : Marked t k) : t.get? k = some .dir := by
  obtain ⟨n, -, h⟩ := h
  exact h.dir

/-- Without links, a directory is marked by a regular file of one of the two names. -/
theorem marked_iff_of_linkFree (hw : t.WellFormed)
    (hlinks : ∀ k target, t.get? k ≠ some (.link target)) :
    Marked t k ↔ ∃ n ∈ configFileNames, ∃ bytes, t.get? (k ++ [n]) = some (.file bytes) := by
  constructor
  · rintro ⟨n, hn, m, l, bytes, w, hbytes⟩
    refine ⟨n, hn, bytes, ?_⟩
    cases w with
    | link _ _ points _ => exact absurd points (hlinks _ _)
    | into _ _ _ _ way =>
      cases way
      exact hbytes
  · rintro ⟨n, hn, bytes, hbytes⟩
    have hdir : t.get? k = some .dir := hw.dir_of_append hbytes
    have hsize := (hw.proper hbytes n (by simp)).size
    exact ⟨n, hn, maxLinks, _, bytes, .into hdir hsize hbytes (fun _ => by simp) .done, hbytes⟩

theorem isName_of_mem_configFileNames {n : Text} (h : n ∈ configFileNames) :
    isName n = true ∧ '/' ∉ n := by
  have hall : ∀ n ∈ configFileNames, isName n = true ∧ '/' ∉ n := by decide
  exact hall n h

/-- The location that a search from a path starts at: a directory for what the path denotes, or else
where its names lead, in a tree without links. -/
inductive SearchesFrom (t : FileTree) (start : Path) : Location → Prop
  | file {l : Location} {bytes : ByteArray} (denoted : t.canonical? start = some l)
      (found : t.get? l = some (.file bytes)) : SearchesFrom t start l.dropLast
  | dir {l : Location} (denoted : t.canonical? start = some l) (found : t.get? l = some .dir) :
    SearchesFrom t start l
  | missing (here : Location) (nothing : t.canonical? start = none)
      (origin : t.origin start = .ok here)
      (linkFree : ∀ k target, t.get? k ≠ some (.link target)) :
    SearchesFrom t start (lexical here start.steps)

/-- What a search from `d` has to find: the innermost project around it, by an absolute path. -/
def NearestRoot (t : FileTree) (d : Location) : Option Path → Prop
  | some r => r.isAbsolute = true ∧ ∃ k, t.canonical? r = some k ∧ k <+: d ∧ Marked t k ∧
      ∀ j, j <+: d → Marked t j → j <+: k
  | none => ∀ j, j <+: d → ¬ Marked t j

/-- The configuration files above a path can be asked for by its text. -/
def InReach (t : FileTree) (p : Path) : Prop :=
  ∀ (q : Path) k n, q.IsAncestor p → t.canonical? q = some k → n ∈ configFileNames →
    t.HoldsFile k n maxLinks → Text.byteSize (q.join ⟨n⟩).text ≤ maxPathSize

/-- The `..` of an absolute path mislead no search for the project around `d`. -/
structure Forthright (t : FileTree) (p : Path) (d : Location) : Prop where
  /-- Before a name enters a project around `d`, each `..` leaves a directory that exists. -/
  enters : ∀ front name rest, moves p.steps = front ++ .into name :: rest →
    lexical [] front ++ [name] <+: d → Marked t (lexical [] front ++ [name]) →
      ∀ front' rest', front = front' ++ .up :: rest' → ∃ l, t.Leads p front' l
  /-- A project that a `..` leaves lies around `d` all the same. -/
  leaves : ∀ front rest, moves p.steps = front ++ .up :: rest → Marked t (lexical [] front) →
    lexical [] front <+: d

theorem isProject_iff (hw : t.WellFormed) (ha : q.isAbsolute = true)
    (hs : t.Straight (moves q.steps))
    (hreach : ∀ k n, t.canonical? q = some k → n ∈ configFileNames → t.HoldsFile k n maxLinks →
      Text.byteSize (q.join ⟨n⟩).text ≤ maxPathSize) :
    isProject t q = true ↔ Marked t (lexical [] (moves q.steps)) ∧
      t.Leads q (moves q.steps) (lexical [] (moves q.steps)) := by
  have hne : q.text ≠ [] := Path.text_ne_nil ha
  have horigin : ∀ n ∈ configFileNames, t.origin (q.join ⟨n⟩) = .ok [] := fun n hn => by
    rw [origin, Path.isAbsolute_join _
      (Path.isAbsolute_of_notMem (isName_of_mem_configFileNames hn).2) hne, if_pos ha]
  simp only [isProject, findConfigFile, List.find?_isSome, List.mem_map, exists_exists_and_eq_and]
  constructor
  · rintro ⟨n, hn, hfile⟩
    obtain ⟨hname, hslash⟩ := isName_of_mem_configFileNames hn
    obtain ⟨-, start, m, k, ho, w, hholds⟩ := (hw.isFile_join_iff hname hslash).1 hfile
    obtain rfl := Except.ok.inj ((horigin n hn).symm.trans ho)
    obtain rfl := hs _ m k List.prefix_rfl w
    obtain rfl := w.eq_lexical rfl
    exact ⟨⟨n, hn, hholds⟩, [], maxLinks, by rw [origin, if_pos ha], w, hholds.dir⟩
  · rintro ⟨⟨n, hn, hholds⟩, hlead⟩
    obtain ⟨hname, hslash⟩ := isName_of_mem_configFileNames hn
    have hsize := hreach _ n ((hw.canonical_dir_iff hne).2 hlead).1 hn hholds
    exact ⟨n, hn, (hw.isFile_join_iff hname hslash).2
      ⟨hsize, [], maxLinks, _, horigin n hn, (hs.way_of_leads ha hlead).1, hholds⟩⟩

/-! ### The search -/

theorem rootFrom_of_isProject (h : isProject t q = true) : (rootFrom t q).1 = some q := by
  rw [rootFrom, if_pos h]

theorem rootFrom_of_parent (parent : Path) (h : isProject t q = false)
    (hp : q.parent? = some parent) : rootFrom t q = rootFrom t parent := by
  rw [rootFrom, if_neg (by simp [h])]
  split
  · next r hr => rw [Option.some.inj (hp.symm.trans hr)]
  · next hnone =>
    rw [hp] at hnone
    cases hnone

theorem findRoot_of_searchStart (h : searchStart t start = some q) :
    (findRoot t start).1 = (rootFrom t q).1 := by
  rw [findRoot, h]

/-- The steps find a project: it is where their names lead, and they do lead there. -/
def Finds (t : FileTree) (p : Path) (steps : List Step) : Prop :=
  Marked t (lexical [] steps) ∧ t.Leads p steps (lexical [] steps)

section Search

variable (hw : t.WellFormed) (ha : base.isAbsolute = true) (hs : t.Straight (moves base.steps))

include hw ha hs in
/-- Where the path finds no project, nothing that is as long finds one. -/
theorem not_finds_of_not_isProject (hreach : InReach t base) (habove : q.IsAncestor base)
    (haq : q.isAbsolute = true) (hq : moves q.steps <+: moves base.steps)
    (hp : ¬ isProject t q = true)
    (hnone : ∀ front, front <+: moves base.steps → (moves q.steps).length < front.length →
      ¬ Finds t base front) :
    ∀ front, front <+: moves base.steps → (moves q.steps).length ≤ front.length →
      ¬ Finds t base front := by
  intro front hfront hlen hfinds
  rcases Nat.lt_or_eq_of_le hlen with hlt | heq
  · exact hnone front hfront hlt hfinds
  · obtain rfl : moves q.steps = front :=
      (List.prefix_of_prefix_length_le hq hfront hlen).eq_of_length heq
    have hlead := hfinds.2.congr (haq.trans ha.symm)
    exact hp ((isProject_iff hw haq (hs.mono hq) fun k n => hreach q k n habove).2
      ⟨hfinds.1, hlead⟩)

variable (hforth : Forthright t base d) (hd : d = lexical [] (moves base.steps))
include hforth hd

/-- A project that the text of a path comes past lies around its end. -/
theorem prefix_of_marked {front : List Step} (hfront : front <+: moves base.steps)
    (hm : Marked t (lexical [] front)) : lexical [] front <+: d := by
  obtain ⟨rest, hrest⟩ := hfront
  rcases prefix_lexical_or_left (lexical [] front) rest with hbelow | ⟨next, rest', rfl, hnext⟩
  · rwa [hd, ← hrest, lexical_append]
  · -- a `..` of the path leaves it
    have hleft : lexical [] (front ++ next) = lexical [] front := by rw [lexical_append, hnext]
    have hsteps : moves base.steps = (front ++ next) ++ .up :: rest' := by
      rw [← hrest, List.append_assoc]
    have hprefix := hforth.leaves _ _ hsteps (by rwa [hleft])
    rwa [hleft] at hprefix

include hw ha hs

/-- Every project around the end of a path is found on the way, and not left again. -/
theorem exists_finds {j : Location} (hj : j <+: d) (hm : Marked t j) :
    ∃ front rest, moves base.steps = front ++ rest ∧ lexical [] front = j ∧ Finds t base front ∧
      ∀ next, next <+: rest → j <+: lexical j next := by
  have hj' : j <+: lexical [] (moves base.steps) := hd ▸ hj
  obtain ⟨front, rest, hsteps, rfl, hentry, hbelow⟩ := exists_last_entry hj'
  have hclimbs : ∀ front' rest', front = front' ++ .up :: rest' → ∃ l, t.Leads base front' l := by
    rintro front' rest' rfl
    rcases hentry with hnil | ⟨init, name, hlast⟩
    · simp at hnil
    · -- the last step of these is the name, so the `..` stands before it
      obtain ⟨before, rfl, rfl⟩ := exists_of_concat_eq hlast.symm (by simp)
      rw [lexical_append] at hj hm
      refine hforth.enters (front' ++ .up :: before) name rest (by simp [hsteps]) ?_ ?_ front'
        before rfl
      · simpa [Step.target] using hj
      · simpa [Step.target] using hm
  exact ⟨front, rest, hsteps, rfl,
    ⟨hm, (hs.mono ⟨rest, hsteps.symm⟩).leads_lexical ha hw hclimbs hm.dir⟩, hbelow⟩

variable (hreach : InReach t base)
include hreach

/-- The first project that is met from a path upward is the nearest one, if the parts of the text
below that path find none. -/
theorem nearestRoot_rootFrom (habove : q.IsAncestor base) (haq : q.isAbsolute = true)
    (hq : moves q.steps <+: moves base.steps)
    (hnone : ∀ front, front <+: moves base.steps → (moves q.steps).length < front.length →
      ¬ Finds t base front) : NearestRoot t d (rootFrom t q).1 := by
  fun_induction rootFrom t q with
  | case1 q hp =>
    have hproject := isProject_iff hw haq (hs.mono hq) fun k n => hreach q k n habove
    obtain ⟨hm, hlead⟩ := hproject.1 hp
    refine ⟨haq, _, ((hw.canonical_dir_iff (Path.text_ne_nil haq)).2 hlead).1,
      prefix_of_marked hforth hd hq hm, hm, fun j hj hmj => ?_⟩
    obtain ⟨front, rest, hsteps, rfl, hfinds, hbelow⟩ := exists_finds hw ha hs hforth hd hj hmj
    have hfront : front <+: moves base.steps := ⟨rest, hsteps.symm⟩
    -- what finds `j` is no longer than the path, which thus comes after it
    have hlen : front.length ≤ (moves q.steps).length :=
      Nat.le_of_not_lt fun hlt => hnone front hfront hlt hfinds
    obtain ⟨next, hnext⟩ := List.prefix_of_prefix_length_le hfront hq hlen
    rw [← hnext, lexical_append]
    refine hbelow next ?_
    obtain ⟨rest', hrest'⟩ := hq
    rw [← hnext, hsteps, List.append_assoc] at hrest'
    exact ⟨rest', List.append_cancel_left hrest'⟩
  | case2 q hp parent hparent ih =>
    obtain ⟨hm, hap⟩ := Path.moves_parent? hparent
    refine ih (habove.parent hparent) (hap.trans haq) ?_ fun front hfront hlen => ?_
    · rw [hm]
      exact (List.dropLast_prefix _).trans hq
    · refine not_finds_of_not_isProject hw ha hs hreach habove haq hq hp hnone front hfront ?_
      rw [hm, List.length_dropLast] at hlen
      omega
  | case3 q hp hparent =>
    intro j hj hmj
    obtain ⟨front, rest, hsteps, rfl, hfinds, -⟩ := exists_finds hw ha hs hforth hd hj hmj
    refine not_finds_of_not_isProject hw ha hs hreach habove haq hq hp hnone front
      ⟨rest, hsteps.symm⟩ ?_ hfinds
    rw [Path.moves_of_parent?_eq_none hparent]
    exact Nat.zero_le _

theorem nearestRoot_findRoot_of_absolute (hbase : t.absolute start = base) :
    NearestRoot t d (findRoot t start).1 := by
  rw [findRoot, searchStart, hbase]
  by_cases hfile : t.isFile base = true
  · obtain ⟨l, bytes, hl, hbytes⟩ := isFile_iff.1 hfile
    obtain ⟨-, here, m, ho, w⟩ := resolve_eq_ok_iff.1 hl
    rw [if_pos hfile]
    cases hparent : base.parent? with
    | none =>
      -- no move is made, so the file would be the root directory
      rw [w.eq_of_moves_eq_nil (Path.moves_of_parent?_eq_none hparent), hw.dir_of_origin ho] at hbytes
      cases hbytes
    | some q =>
      obtain ⟨hm, hap⟩ := Path.moves_parent? hparent
      refine nearestRoot_rootFrom hw ha hs hforth hd hreach (.up hparent .self) (hap.trans ha)
        (hm ▸ List.dropLast_prefix _) fun front hfront hlen hfinds => ?_
      -- the whole path leads to a file, which is no directory
      obtain rfl : front = moves base.steps := by
        refine hfront.eq_of_length (Nat.le_antisymm hfront.length_le ?_)
        rw [hm, List.length_dropLast] at hlen
        omega
      obtain ⟨start, m', ho', w'⟩ := hfinds.2.walk_eq
      obtain rfl := Except.ok.inj (ho.symm.trans ho')
      rw [(w.unique w').2, hfinds.2.dir] at hbytes
      cases hbytes
  · rw [if_neg hfile]
    exact nearestRoot_rootFrom hw ha hs hforth hd hreach .self ha List.prefix_rfl
      fun front hfront hlen _ => Nat.not_lt.2 hfront.length_le hlen

end Search

/-- No project lies in a file, so the search around it is one from its directory. -/
theorem NearestRoot.of_file {r : Option Path} {bytes : ByteArray}
    (hf : t.get? l = some (.file bytes)) (h : NearestRoot t l r) : NearestRoot t l.dropLast r := by
  have hwiden : ∀ j, j <+: l.dropLast → j <+: l := fun j hj => hj.trans (List.dropLast_prefix l)
  cases r with
  | none => exact fun j hj => h j (hwiden j hj)
  | some r =>
    obtain ⟨ha, k, hk, hkl, hm, hmax⟩ := h
    refine ⟨ha, k, hk, ?_, hm, fun j hj => hmax j (hwiden j hj)⟩
    obtain ⟨rest, rfl⟩ := hkl
    have hne : rest ≠ [] := by
      rintro rfl
      rw [List.append_nil, hm.dir] at hf
      cases hf
    rw [List.dropLast_append_of_ne_nil hne]
    exact List.prefix_append _ _

theorem forthright_names (hl : l.Proper) : Forthright t l.path d := by
  have hnames : ∀ front rest, moves l.path.steps ≠ front ++ .up :: rest := by
    intro front rest h
    rw [Location.moves_path hl] at h
    have hmem : Step.up ∈ l.map Step.into := h ▸ by simp
    simp at hmem
  refine ⟨fun front name rest h _ _ front' rest' hfront => ?_,
    fun front rest h => absurd h (hnames front rest)⟩
  rw [hfront, List.append_assoc] at h
  exact absurd h (hnames _ _)

theorem startsWith_ancestor {p q : Path} (h : q.IsAncestor p) : q.text <+: p.text := by
  induction h with
  | self => exact List.prefix_rfl
  | up parent _ ih => exact ih.trans (Path.startsWith_parent? parent)

/-- A path that is not too long has every configuration file above it in reach. -/
theorem inReach_of_byteSize {p : Path} (h : Text.byteSize p.text + 18 ≤ maxPathSize) :
    InReach t p := by
  intro q k n hq _ hn _
  obtain ⟨rest, hrest⟩ := startsWith_ancestor hq
  have hnames : ∀ n ∈ configFileNames, Text.byteSize n ≤ 17 := by decide
  have hn17 := hnames n hn
  rw [← hrest, Text.byteSize_append] at h
  have hslash : Text.byteSize ('/' :: n) = 1 + Text.byteSize n := rfl
  rw [Path.join, Path.isAbsolute_of_notMem (isName_of_mem_configFileNames hn).2,
    if_neg Bool.false_ne_true]
  split <;> simp only [Text.byteSize_append, hslash] <;> omega

/-- The search for a project root finds the innermost project around its start. -/
theorem nearestRoot_findRoot (hw : t.WellFormed) (hd : SearchesFrom t start d)
    (hstart : start.text ≠ []) (hreach : InReach t (t.absolute start))
    (hforth : t.canonical? start = none → Forthright t (t.absolute start) d) :
    NearestRoot t d (findRoot t start).1 := by
  have hdenoted : ∀ l, t.canonical? start = some l → NearestRoot t l (findRoot t start).1 := by
    intro l hl
    have hstands := hw.stands_of_canonical hl
    have hproper : l.Proper := by
      obtain ⟨e, he, -⟩ := hstands
      exact hw.proper he
    have hbase : t.absolute start = l.path := by rw [absolute, hl]
    have hmoves := Location.moves_path hproper
    rw [hbase] at hreach
    refine nearestRoot_findRoot_of_absolute hw (Location.isAbsolute_path l)
      (hmoves ▸ hw.straight_names hstands) (forthright_names hproper) ?_ hreach hbase
    rw [hmoves, lexical_names, List.nil_append]
  cases hd with
  | file denoted found => exact (hdenoted _ denoted).of_file found
  | dir denoted found => exact hdenoted _ denoted
  | @missing here nothing origin linkFree =>
    obtain ⟨q, hq, ha, hmoves⟩ := hw.anchored_spec hstart origin
    have hbase : t.absolute start = q := by
      rw [absolute, nothing]
      exact congrArg (Option.getD · start) hq
    refine nearestRoot_findRoot_of_absolute hw ha (straight_of_linkFree linkFree)
      (hbase ▸ hforth nothing) ?_ (hbase ▸ hreach) hbase
    rw [hmoves, lexical_append, lexical_names, List.nil_append, lexical_moves]

/-- A project with one directory in it, which is where paths start. -/
def markedTree : FileTree where
  entries :=
    [(["p".toList], .dir), (["p".toList, "lib".toList], .dir),
      (["p".toList, configFileName], .file (Text.toBytes []))]
  workDir := some ["p".toList]

theorem linkFree_markedTree (k : Location) (target : Text) :
    markedTree.get? k ≠ some (.link target) := by
  intro h
  have hmem := mem_locations_of_get? h (by rintro rfl; simp at h)
  have hall : ∀ k ∈ markedTree.locations, markedTree.get? k = some .dir ∨
      markedTree.get? k = some (.file (Text.toBytes [])) := by decide
  rcases hall k hmem with hk | hk <;> simp [hk] at h

theorem forthright_markedTree :
    Forthright markedTree ⟨"/p/lib/new/../X.sol".toList⟩
      ["p".toList, "lib".toList, "X.sol".toList] := by
  have hmoves : moves (Path.steps ⟨"/p/lib/new/../X.sol".toList⟩) =
      [.into "p".toList, .into "lib".toList, .into "new".toList, .up, .into "X.sol".toList] := by
    decide
  have hclimb : ∀ front rest, moves (Path.steps ⟨"/p/lib/new/../X.sol".toList⟩) =
      front ++ .up :: rest → front = [.into "p".toList, .into "lib".toList, .into "new".toList] ∧
        rest = [.into "X.sol".toList] := by
    intro front rest hs
    rw [hmoves] at hs
    simpa [List.cons_eq_append_iff] using hs
  constructor
  · -- the only name behind the `..` is that of the file, which enters no project
    rintro front name rest hs - hm front' rest' rfl
    rw [List.append_assoc, List.cons_append] at hs
    obtain ⟨rfl, hrest⟩ := hclimb _ _ hs
    obtain ⟨rfl, rfl, -⟩ : rest' = [] ∧ name = "X.sol".toList ∧ rest = [] := by
      simpa [List.append_eq_singleton_iff] using hrest
    exact absurd hm.dir (by decide)
  · intro front rest hs hm
    obtain ⟨rfl, -⟩ := hclimb front rest hs
    exact absurd hm.dir (by decide)

theorem findRoot_missing_markedTree :
    (findRoot markedTree ⟨"lib/new/../X.sol".toList⟩).1 = some ⟨"/p".toList⟩ := by
  have hstart : searchStart markedTree ⟨"lib/new/../X.sol".toList⟩ =
      some ⟨"/p/lib/new/../X.sol".toList⟩ := by cbv
  rw [findRoot_of_searchStart hstart,
    rootFrom_of_parent ⟨"/p/lib/new/..".toList⟩ (by cbv) (by cbv),
    rootFrom_of_parent ⟨"/p/lib/new".toList⟩ (by cbv) (by cbv),
    rootFrom_of_parent ⟨"/p/lib".toList⟩ (by cbv) (by cbv),
    rootFrom_of_parent ⟨"/p".toList⟩ (by cbv) (by cbv)]
  exact rootFrom_of_isProject (by cbv)

theorem nearestRoot_findRoot_markedTree :
    markedTree.WellFormed ∧
      (findRoot markedTree ⟨"lib/new/../X.sol".toList⟩).1 = some ⟨"/p".toList⟩ ∧
      NearestRoot markedTree ["p".toList, "lib".toList, "X.sol".toList]
        (findRoot markedTree ⟨"lib/new/../X.sol".toList⟩).1 := by
  have hw : markedTree.WellFormed := by decide
  have hnone : markedTree.canonical? ⟨"lib/new/../X.sol".toList⟩ = none := by cbv
  have hbase : markedTree.absolute ⟨"lib/new/../X.sol".toList⟩ =
      ⟨"/p/lib/new/../X.sol".toList⟩ := by cbv
  have hstart : SearchesFrom markedTree ⟨"lib/new/../X.sol".toList⟩
      ["p".toList, "lib".toList, "X.sol".toList] :=
    .missing ["p".toList] hnone (by cbv) linkFree_markedTree
  refine ⟨hw, findRoot_missing_markedTree, nearestRoot_findRoot hw hstart (by decide) ?_ fun _ => ?_⟩
  · rw [hbase]
    exact inReach_of_byteSize (by decide)
  · rw [hbase]
    exact forthright_markedTree

/-- The empty path gives itself back for the current directory, and a `..` that leaves a project for
a directory that does not exist finds that project all the same. -/
theorem findRoot_markedTree :
    markedTree.WellFormed ∧
      (SearchesFrom markedTree ⟨[]⟩ ["p".toList] ∧
        (findRoot markedTree ⟨[]⟩).1 = some ⟨[]⟩ ∧
        ¬ NearestRoot markedTree ["p".toList] (findRoot markedTree ⟨[]⟩).1) ∧
      SearchesFrom markedTree ⟨"../o/X.sol".toList⟩ ["o".toList, "X.sol".toList] ∧
        (findRoot markedTree ⟨"../o/X.sol".toList⟩).1 = some ⟨"/p".toList⟩ ∧
        ¬ NearestRoot markedTree ["o".toList, "X.sol".toList]
          (findRoot markedTree ⟨"../o/X.sol".toList⟩).1 := by
  have hempty : (findRoot markedTree ⟨[]⟩).1 = some ⟨[]⟩ :=
    (findRoot_of_searchStart (by cbv)).trans (rootFrom_of_isProject (by cbv))
  have hclimbing : (findRoot markedTree ⟨"../o/X.sol".toList⟩).1 = some ⟨"/p".toList⟩ := by
    have hstart : searchStart markedTree ⟨"../o/X.sol".toList⟩ =
        some ⟨"/p/../o/X.sol".toList⟩ := by cbv
    rw [findRoot_of_searchStart hstart,
      rootFrom_of_parent ⟨"/p/../o".toList⟩ (by cbv) (by cbv),
      rootFrom_of_parent ⟨"/p/..".toList⟩ (by cbv) (by cbv),
      rootFrom_of_parent ⟨"/p".toList⟩ (by cbv) (by cbv)]
    exact rootFrom_of_isProject (by cbv)
  have hroot : markedTree.canonical? ⟨"/p".toList⟩ = some ["p".toList] := by cbv
  refine ⟨by decide, ⟨.missing ["p".toList] (by cbv) (by cbv) linkFree_markedTree, hempty,
    ?_⟩, .missing ["p".toList] (by cbv) (by cbv) linkFree_markedTree, hclimbing, ?_⟩
  · rw [hempty]
    rintro ⟨ha, -⟩
    cases ha
  · rw [hclimbing]
    rintro ⟨-, k, hk, hprefix, -⟩
    obtain rfl := Option.some.inj (hroot.symm.trans hk)
    revert hprefix
    decide

end Project

end FlatSol
