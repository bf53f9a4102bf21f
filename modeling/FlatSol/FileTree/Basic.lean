import FlatSol.Path.Basic
import FlatSol.Text.Utf8

/-!
# File trees

A file tree maps locations to entries. A location is the list of names from the root to an entry,
without links on the way; the root itself is always a directory. Main statements: setting an entry
changes what stands at its own location and nothing else.
-/

namespace FlatSol

/-- The names that lead from the root to an entry. -/
abbrev Location := List Text

instance : LawfulBEq Location := inferInstance

/-- The path of a location: absolute, with one slash before each name. -/
def Location.path (l : Location) : Path :=
  ⟨'/' :: Text.joinWith ['/'] l⟩

inductive Entry
  | file (bytes : ByteArray)
  | dir
  | link (target : Text)

instance : DecidableEq Entry
  | .file a, .file b => decidable_of_iff (a.data = b.data)
      ⟨fun h => congrArg Entry.file (ByteArray.ext h), fun h => by rw [Entry.file.inj h]⟩
  | .dir, .dir => isTrue rfl
  | .link s, .link t => decidable_of_iff (s = t) ⟨congrArg Entry.link, Entry.link.inj⟩
  | .file _, .dir | .file _, .link _ => isFalse nofun
  | .dir, .file _ | .dir, .link _ => isFalse nofun
  | .link _, .file _ | .link _, .dir => isFalse nofun

structure FileTree where
  entries : List (Location × Entry)
  /-- The current directory; none when it has been removed. -/
  workDir : Option Location

namespace FileTree

def empty : FileTree :=
  ⟨[], some []⟩

def get? (t : FileTree) (l : Location) : Option Entry :=
  if l = [] then some .dir else (t.entries.find? fun e => e.1 == l).map Prod.snd

/-- The tree with the entry at a location replaced, or added. -/
def set (t : FileTree) (l : Location) (e : Entry) : FileTree :=
  { t with entries := (l, e) :: t.entries.filter fun x => x.1 != l }

@[simp] theorem get?_root (t : FileTree) : t.get? [] = some .dir := by
  simp [get?]

theorem get?_set_self (t : FileTree) {l : Location} (e : Entry) (h : l ≠ []) :
    (t.set l e).get? l = some e := by
  simp [get?, set, h]

theorem get?_set_of_ne (t : FileTree) {l k : Location} (e : Entry) (h : k ≠ l) :
    (t.set l e).get? k = t.get? k := by
  unfold get? set
  by_cases hk : k = []
  · simp [hk]
  · have hlk : (l == k) = false := by simpa using fun h' => h h'.symm
    simp only [hk, if_false, List.find?_cons, hlk]
    congr 1
    induction t.entries with
    | nil => rfl
    | cons x xs ih =>
      by_cases hx : x.1 = k
      · simp [hx, h]
      · by_cases hxl : x.1 = l <;> simp_all

/-- The tree without the entry at a location and everything below it. -/
def remove (t : FileTree) (l : Location) : FileTree :=
  { entries := t.entries.filter fun e => !l.isPrefixOf e.1
    workDir := t.workDir.filter fun w => !l.isPrefixOf w }

def children (t : FileTree) (l : Location) : List (Text × Entry) :=
  t.entries.filterMap fun e =>
    match e.1.getLast? with
    | some n => if e.1.dropLast = l then some (n, e.2) else none
    | none => none

/-- Every location that the tree has an entry for, other than the root. -/
def locations (t : FileTree) : List Location :=
  t.entries.map Prod.fst

theorem mem_locations_of_get? {t : FileTree} {l : Location} {e : Entry} (h : t.get? l = some e)
    (hl : l ≠ []) : l ∈ t.locations := by
  simp only [get?, hl, if_false, Option.map_eq_some_iff] at h
  obtain ⟨x, hx, -⟩ := h
  have := List.find?_some hx
  have hm := List.mem_of_find?_eq_some hx
  simp only [beq_iff_eq] at this
  exact List.mem_map.2 ⟨x, hm, this⟩

end FileTree

end FlatSol
