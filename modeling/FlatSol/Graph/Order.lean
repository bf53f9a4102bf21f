import FlatSol.Graph.Basic

/-!
# The order of a flattened file

The files of an import graph, each behind the files that it imports: depth first from the entry, a
file is written when all its imports have been looked at. An edge back into a file that is still
being entered is passed over, so a cycle is cut where it closes. Main statement: the tour ends,
because each step visits a file or looks at one more dependency.
-/

namespace FlatSol

structure Tour where
  /-- The files being entered, the innermost one first, each with the dependencies that are still to
  be looked at. -/
  stack : List (Location × List Location)
  unvisited : List Location
  /-- The files that are done, in the order in which they were left. -/
  order : List Location
deriving Repr

namespace Tour

/-- One step of a tour; none is left when the stack is empty. -/
def step? (g : Graph) (s : Tour) : Option Tour :=
  match s.stack with
  | [] => none
  | (l, []) :: below => some { s with stack := below, order := s.order ++ [l] }
  | (l, d :: pending) :: below =>
    if d ∈ s.unvisited then
      some { s with
        stack := (d, g.dependencies d) :: (l, pending) :: below
        unvisited := s.unvisited.erase d }
    else some { s with stack := (l, pending) :: below }

/-- The number of steps that the stack still takes, files yet to be visited apart. -/
def work : List (Location × List Location) → Nat
  | [] => 0
  | f :: fs => f.2.length + 1 + work fs

theorem step?_decreases {g : Graph} {s r : Tour} (h : step? g s = some r) :
    r.unvisited.length < s.unvisited.length ∨
      r.unvisited.length = s.unvisited.length ∧ work r.stack < work s.stack := by
  unfold step? at h
  split at h
  · simp at h
  · next hs =>
    obtain rfl := Option.some.inj h
    exact .inr ⟨rfl, by simp [hs, work]⟩
  · next l d pending below hs =>
    split at h
    · next hd =>
      obtain rfl := Option.some.inj h
      have := List.length_pos_of_mem hd
      refine .inl ?_
      simp only [List.length_erase_of_mem hd]
      omega
    · obtain rfl := Option.some.inj h
      exact .inr ⟨rfl, by simp [hs, work]⟩

def run (g : Graph) (s : Tour) : List Location :=
  match _h : step? g s with
  | none => s.order
  | some r => run g r
termination_by (s.unvisited.length, work s.stack)
decreasing_by
  rcases step?_decreases _h with h | ⟨h, h'⟩
  · exact Prod.Lex.left _ _ h
  · rw [h]
    exact Prod.Lex.right _ h'

end Tour

namespace Graph

/-- The locations of the files in the order in which they are written. -/
def orderedLocations (g : Graph) : List Location :=
  match g.locations with
  | [] => []
  | entry :: others => Tour.run g ⟨[(entry, g.dependencies entry)], others, []⟩

/-- The files in the order in which they are written: each behind the files that it imports, and the
entry last. -/
def flattenOrder (g : Graph) : List SourceFile :=
  g.orderedLocations.filterMap g.fileAt?

end Graph

end FlatSol
