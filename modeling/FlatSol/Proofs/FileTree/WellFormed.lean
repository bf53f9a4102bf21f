import FlatSol.FileTree.Read
import FlatSol.FileTree.Write
import FlatSol.Proofs.Text.Pieces
import Mathlib

/-!
# Well-formed file trees

A tree that an operating system can hold: every entry stands in a directory and bears a name that
a path can spell, and the current directory is a directory. In such a tree the canonical path of
what a path denotes denotes the same thing again, and different locations have different paths.
-/

namespace FlatSol

/-- A name that an entry can bear. -/
structure ProperName (n : Text) : Prop where
  named : FileTree.isName n = true
  slash : '/' ∉ n
  nul : '\x00' ∉ n
  size : Text.byteSize n ≤ maxNameSize

/-- An entry that a tree can hold: no link has a NUL character in its target. -/
def Entry.Proper : Entry → Prop
  | .link target => '\x00' ∉ target
  | _ => True

structure FileTree.WellFormed (t : FileTree) : Prop where
  names : ∀ l ∈ t.locations, ∀ n ∈ l, ProperName n
  parents : ∀ l ∈ t.locations, t.get? l.dropLast = some .dir
  entries : ∀ x ∈ t.entries, x.2.Proper
  workDir : ∀ l ∈ t.workDir, t.get? l = some .dir

instance (n : Text) : Decidable (ProperName n) :=
  decidable_of_iff (FileTree.isName n = true ∧ '/' ∉ n ∧ '\x00' ∉ n ∧
      Text.byteSize n ≤ maxNameSize)
    ⟨fun ⟨hn, hs, h0, hb⟩ => ⟨hn, hs, h0, hb⟩, fun ⟨hn, hs, h0, hb⟩ => ⟨hn, hs, h0, hb⟩⟩

instance : DecidablePred Entry.Proper
  | .link target => inferInstanceAs (Decidable ('\x00' ∉ target))
  | .file _ => inferInstanceAs (Decidable True)
  | .dir => inferInstanceAs (Decidable True)

instance (t : FileTree) : Decidable t.WellFormed :=
  decidable_of_iff ((∀ l ∈ t.locations, ∀ n ∈ l, ProperName n) ∧
      (∀ l ∈ t.locations, t.get? l.dropLast = some .dir) ∧ (∀ x ∈ t.entries, x.2.Proper) ∧
      ∀ l ∈ t.workDir, t.get? l = some .dir)
    ⟨fun ⟨hn, hp, he, hd⟩ => ⟨hn, hp, he, hd⟩, fun ⟨hn, hp, he, hd⟩ => ⟨hn, hp, he, hd⟩⟩

/-! ### Locations and their paths -/

/-- A location whose names can be told apart in its path. -/
def Location.Proper (l : Location) : Prop :=
  ∀ n ∈ l, ProperName n

theorem Location.pieces_path {l : Location} (hl : l.Proper) (hne : l ≠ []) :
    l.path.pieces = [] :: l := by
  have h := Text.pieces_joinWith hne fun n hn => (hl n hn).slash
  simp only [Path.pieces, Location.path, Text.pieces, if_true, h]

theorem Location.path_injective {l k : Location} (hl : l.Proper) (hk : k.Proper)
    (h : l.path = k.path) : l = k := by
  have hp : l.path.pieces = k.path.pieces := by rw [h]
  -- the path of the root has an empty piece, which is no name
  have root : Path.pieces (Location.path []) = [[], []] := rfl
  have empty : ∀ m : Location, m.Proper → m ≠ [[]] := by
    rintro m hm rfl
    exact absurd (hm [] List.mem_cons_self).named (by decide)
  by_cases hl0 : l = []
  · by_cases hk0 : k = []
    · rw [hl0, hk0]
    · rw [hl0, root, pieces_path hk hk0] at hp
      exact absurd (List.cons.inj hp).2.symm (empty k hk)
  · by_cases hk0 : k = []
    · rw [hk0, root, pieces_path hl hl0] at hp
      exact absurd (List.cons.inj hp).2 (empty l hl)
    · rw [pieces_path hl hl0, pieces_path hk hk0] at hp
      exact (List.cons.inj hp).2

theorem Step.ofPiece_of_isName {n : Text} (h : FileTree.isName n = true) :
    Step.ofPiece n = .into n := by
  simp only [FileTree.isName, Bool.and_eq_true, bne_iff_ne, ne_eq] at h
  simp [Step.ofPiece, Path.isIdle, h.1.1, h.1.2, h.2]

theorem Location.steps_path {l : Location} (hl : l.Proper) (hne : l ≠ []) :
    l.path.steps = .stay :: l.map .into := by
  have h : l.map Step.ofPiece = l.map .into :=
    List.map_congr_left fun n hn => Step.ofPiece_of_isName (hl n hn).named
  simp only [Path.steps, pieces_path hl hne, List.map_cons, h]
  rfl

namespace FileTree

variable {t : FileTree}

theorem mem_locations_or_root {l : Location} {e : Entry} (h : t.get? l = some e) :
    l = [] ∨ l ∈ t.locations := by
  by_cases hl : l = []
  · exact .inl hl
  · exact .inr (mem_locations_of_get? h hl)

/-- Something other than a link stands at the location. -/
def Stands (t : FileTree) (l : Location) : Prop :=
  ∃ e, t.get? l = some e ∧ ∀ target, e ≠ .link target

theorem stands_of_dir {l : Location} (h : t.get? l = some .dir) : t.Stands l :=
  ⟨.dir, h, fun _ => by simp⟩

namespace WellFormed

theorem dir_dropLast (hw : t.WellFormed) {l : Location} {e : Entry} (h : t.get? l = some e) :
    t.get? l.dropLast = some .dir := by
  rcases mem_locations_or_root h with rfl | hl
  · simp
  · exact hw.parents l hl

theorem proper (hw : t.WellFormed) {l : Location} {e : Entry} (h : t.get? l = some e) :
    l.Proper := by
  rcases mem_locations_or_root h with rfl | hl
  · exact fun n hn => absurd hn List.not_mem_nil
  · exact hw.names l hl

theorem dir_of_append (hw : t.WellFormed) {k l : Location} {n : Text} {e : Entry}
    (h : t.get? (k ++ n :: l) = some e) : t.get? k = some .dir := by
  induction l using List.reverseRecOn generalizing e with
  | nil =>
    have hd := hw.dir_dropLast h
    simpa using hd
  | append_singleton l m ih =>
    have hd := hw.dir_dropLast h
    rw [← List.cons_append, ← List.append_assoc, List.dropLast_concat] at hd
    exact ih hd

/-! ### Canonical paths -/

theorem stands_walk (hw : t.WellFormed) {links : Nat} {here l : Location} {steps : List Step}
    (hs : t.Stands here) (h : walk t .follow links here steps = .ok l) : t.Stands l := by
  fun_induction walk t .follow links here steps with
  | case1 => exact Except.ok.inj h ▸ hs
  | case2 => simp at h
  | case3 links here rest hd ih => exact ih hs h
  | case4 links here rest hd ih =>
    obtain ⟨e, he, -⟩ := hs
    exact ih (stands_of_dir (hw.dir_dropLast he)) h
  | case5 => simp at h
  | case6 => simp_all
  | case7 => simp at h
  | case8 => simp_all
  | case9 => simp at h
  | case10 here rest hd name hn target hg hk links ih =>
    refine ih ?_ h
    split
    · exact stands_of_dir t.get?_root
    · exact hs
  | case11 links here rest hd name hn e hlink hg ih =>
    exact ih ⟨e, hg, fun target he => hlink target he⟩ h

theorem dir_of_origin (hw : t.WellFormed) {p : Path} {l : Location} (h : t.origin p = .ok l) :
    t.get? l = some .dir := by
  unfold origin at h
  split at h
  · rw [← Except.ok.inj h]
    exact t.get?_root
  · split at h
    · next w hwd =>
      rw [← Except.ok.inj h]
      exact hw.workDir w hwd
    · simp at h

theorem stands_of_canonical (hw : t.WellFormed) {p : Path} {l : Location}
    (h : t.canonical? p = some l) : t.Stands l := by
  unfold canonical? at h
  split at h
  · simp at h
  · split at h
    · next start ho =>
      have hs := hw.dir_of_origin ho
      cases hr : walk t .follow maxLinks start p.steps with
      | error f => simp [hr, Except.toOption] at h
      | ok k =>
        have hk : k = l := by simpa [hr, Except.toOption] using h
        exact hk ▸ stands_walk hw (stands_of_dir hs) hr
    · simp at h

theorem nul_notMem_path {l : Location} (hl : l.Proper) : '\x00' ∉ l.path.text := by
  simp only [Location.path, List.mem_cons, not_or]
  refine ⟨by decide, fun h => ?_⟩
  rcases Text.mem_joinWith h with hsep | ⟨n, hn, hmem⟩
  · exact absurd hsep (by decide)
  · exact (hl n hn).nul hmem

end WellFormed

end FileTree

end FlatSol
