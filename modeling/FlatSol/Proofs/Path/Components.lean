import FlatSol.Proofs.FileTree.Leads

/-!
# Components and moves

The components of a path are its moves and how it starts: the moves are those of the components, a
joined path takes the moves of both of its parts, and the path of a location takes its names one by
one. So a location lies under another exactly if its path does.
-/

namespace FlatSol

/-! ### Paths of locations -/

theorem Path.component?_of_isName {n : Text} (h : FileTree.isName n = true) :
    Path.component? n = some (.name n) := by
  simp only [FileTree.isName, Bool.and_eq_true, bne_iff_ne, ne_eq] at h
  simp [component?, isIdle, h.1.1, h.1.2, h.2]

namespace Location

@[simp] theorem isAbsolute_path (l : Location) : l.path.isAbsolute = true := by
  simp [Path.isAbsolute, path, Text.startsWith, List.isPrefixOf]

theorem components_path {l : Location} (hl : l.Proper) :
    l.path.components = .root :: l.map .name := by
  by_cases hne : l = []
  · subst hne
    rfl
  · have hnames : l.filterMap Path.component? = l.map .name := by
      rw [← List.filterMap_eq_map]
      exact List.filterMap_congr fun n hn => Path.component?_of_isName (hl n hn).named
    simp only [Path.components, pieces_path hl hne, isAbsolute_path, if_true, hnames]
    rfl

theorem isInside_path_iff {l k : Location} (hl : l.Proper) (hk : k.Proper) :
    l.path.isInside k.path = true ↔ k <+: l := by
  rw [Path.isInside, components_path hl, components_path hk, List.isPrefixOf_iff_prefix,
    List.prefix_cons_inj]
  exact List.prefix_map_iff_of_injective fun _ _ h => Component.name.inj h

theorem moves_path {l : Location} (hl : l.Proper) : moves l.path.steps = l.map .into := by
  by_cases hne : l = []
  · subst hne
    rfl
  · rw [steps_path hl hne, moves_cons_stay, moves, List.filter_eq_self]
    simp

end Location

/-! ### The moves of components -/

/-- The move that a component makes, if it makes one. -/
def Component.move? : Component → Option Step
  | .root | .here => none
  | .up => some .up
  | .name n => some (.into n)

theorem Component.moves_names (names : List Text) :
    (names.map Component.name).filterMap Component.move? = names.map .into := by
  induction names with
  | nil => rfl
  | cons n ns ih => rw [List.map_cons, List.filterMap_cons, ih, List.map_cons]; rfl

namespace Path

theorem pieceMoves_singleton (piece : Text) :
    pieceMoves [piece] = (component? piece).toList.filterMap Component.move? := by
  by_cases hidle : isIdle piece = true
  · simp [pieceMoves_of_isIdle hidle, component?, hidle]
  · rw [pieceMoves_of_not_isIdle (by simpa using hidle), Step.ofPiece, component?]
    by_cases hup : (piece == ['.', '.']) = true <;> simp [hidle, hup, Component.move?]

theorem pieceMoves_eq_filterMap (ps : List Text) :
    pieceMoves ps = (ps.filterMap component?).filterMap Component.move? := by
  induction ps with
  | nil => rfl
  | cons p ps ih =>
    rw [pieceMoves_cons, pieceMoves_singleton, ih, ← List.filterMap_append]
    cases h : component? p <;> simp [h]

/-- How a path starts makes no move. -/
theorem moves_eq_components (p : Path) :
    moves p.steps = p.components.filterMap Component.move? := by
  rw [moves_steps, components]
  split
  · next h => exact absurd h (Text.pieces_ne_nil '/' p.text)
  · next front rest hps =>
    rw [hps, pieceMoves_cons, pieceMoves_eq_filterMap rest, List.filterMap_append]
    congr 1
    split
    · next ha =>
      -- the piece before the first slash of an absolute path is empty
      obtain ⟨_, _, ha⟩ := isAbsolute_iff.1 ha
      obtain rfl : front = [] := (List.cons.inj (hps.symm.trans ha)).1
      rfl
    · split
      · next hdot =>
        obtain rfl : front = ['.'] := by simpa using hdot
        rfl
      · exact pieceMoves_singleton front

theorem components_eq_nil_iff {p : Path} : p.components = [] ↔ p.text = [] := by
  constructor
  · intro h
    rw [components] at h
    split at h
    · next hps => exact absurd hps (Text.pieces_ne_nil '/' p.text)
    · next front rest hps =>
      obtain ⟨hhead, -⟩ := List.append_eq_nil_iff.1 h
      split at hhead
      · simp at hhead
      · next ha =>
        split at hhead
        · simp at hhead
        · next hdot =>
          obtain rfl : front = [] := by
            by_contra hne
            by_cases hup : (front == ['.', '.']) = true <;>
              simp_all [component?, isIdle]
          cases rest with
          | nil => exact Text.eq_nil_of_pieces_eq hps
          | cons piece rest => exact absurd (isAbsolute_iff.2 ⟨piece, rest, hps⟩) ha
  · intro h
    obtain ⟨text⟩ := p
    obtain rfl : text = [] := h
    rfl

theorem isAbsolute_of_components {p : Path} {cs : List Component} (h : p.components = .root :: cs) :
    p.isAbsolute = true := by
  rw [components] at h
  split at h
  · simp at h
  · split at h
    · assumption
    · next front rest hps ha =>
      have hroot : ∀ piece, component? piece ≠ some .root := fun piece => by
        unfold component?
        split
        · simp
        · split <;> simp
      split at h
      · simp at h
      · cases hf : component? front with
        | some c =>
          rw [hf] at h
          exact absurd (hf.trans (congrArg some (List.cons.inj h).1)) (hroot front)
        | none =>
          rw [hf] at h
          have hmem : Component.root ∈ rest.filterMap component? := by
            rw [show rest.filterMap component? = Component.root :: cs by simpa using h]
            exact List.mem_cons_self
          obtain ⟨piece, -, hpiece⟩ := List.mem_filterMap.1 hmem
          exact absurd hpiece (hroot piece)

/-! ### Joined paths -/

theorem text_ne_nil {p : Path} (ha : p.isAbsolute = true) : p.text ≠ [] := by
  intro hnil
  simp [isAbsolute, hnil, Text.startsWith] at ha

theorem isAbsolute_join (p : Path) {q : Path} (hq : q.isAbsolute = false) (hp : p.text ≠ []) :
    (p.join q).isAbsolute = p.isAbsolute := by
  obtain ⟨c, cs, hc⟩ := List.exists_cons_of_ne_nil hp
  unfold join
  rw [hq, if_neg Bool.false_ne_true]
  split <;> simp [isAbsolute, Text.startsWith, hc, List.isPrefixOf]

theorem text_join_ne_nil {p : Path} (q : Path) (hp : p.text ≠ []) : (p.join q).text ≠ [] := by
  unfold join
  split
  · next ha => exact text_ne_nil ha
  · split <;> simp [hp]

/-- The pieces of what is joined onto a path stand at the end. -/
theorem exists_pieces_join (p : Path) {q : Path} (hq : q.isAbsolute = false) :
    ∃ ps, (p.join q).pieces = ps ++ q.pieces ∧ pieceMoves ps = moves p.steps := by
  unfold join
  rw [hq, if_neg Bool.false_ne_true, moves_steps]
  split
  · next hend =>
    rw [Bool.or_eq_true, List.isEmpty_iff, beq_iff_eq] at hend
    rcases hend with hnil | hslash
    · refine ⟨[], by rw [hnil]; rfl, ?_⟩
      rw [pieces, hnil]
      rfl
    · obtain ⟨init, hinit⟩ := List.getLast?_eq_some_iff.1 hslash
      refine ⟨Text.pieces '/' init, ?_, ?_⟩
      · rw [pieces, hinit, List.append_assoc, List.singleton_append, Text.pieces_append_sep]
        rfl
      · rw [pieces, hinit, Text.pieces_append_singleton, pieceMoves_append,
          pieceMoves_of_isIdle rfl, List.append_nil]
  · exact ⟨p.pieces, Text.pieces_append_sep '/' p.text q.text, rfl⟩

/-- What is joined onto a path takes its moves behind those of the path. -/
theorem moves_join (p : Path) {q : Path} (hq : q.isAbsolute = false) :
    moves (p.join q).steps = moves p.steps ++ moves q.steps := by
  obtain ⟨ps, hps, hmoves⟩ := exists_pieces_join p hq
  rw [moves_steps, hps, pieceMoves_append, hmoves]
  rfl

theorem isAbsolute_of_notMem {n : Text} (hs : '/' ∉ n) : Path.isAbsolute ⟨n⟩ = false := by
  cases n with
  | nil => rfl
  | cons c cs =>
    have hc : ¬ '/' = c := fun h => hs (h ▸ List.mem_cons_self)
    simp [isAbsolute, Text.startsWith, List.isPrefixOf, hc]

theorem steps_name {n : Text} (hn : FileTree.isName n = true) (hs : '/' ∉ n) :
    Path.steps ⟨n⟩ = [.into n] := by
  simp [steps, pieces, Text.pieces_of_notMem hs, Step.ofPiece_of_isName hn]

/-- A name that is joined onto a path is its last name, in the directory that the path leads to. -/
theorem splitLast_join (p : Path) {n : Text} (hn : FileTree.isName n = true) (hs : '/' ∉ n) :
    (FileTree.splitLast (p.join ⟨n⟩)).2 = some n ∧
      FileTree.frontMoves (p.join ⟨n⟩) = moves p.steps ∧
      (p.join ⟨n⟩).text.getLast? ≠ some '/' := by
  obtain ⟨ps, hps, hmoves⟩ := exists_pieces_join p (isAbsolute_of_notMem hs)
  have hsteps : (p.join ⟨n⟩).steps = ps.map Step.ofPiece ++ [.into n] := by
    rw [steps, hps, List.map_append]
    exact congrArg _ (steps_name hn hs)
  obtain ⟨hlast, -, hslash, hfront⟩ := FileTree.splitLast_of_steps hsteps
  refine ⟨hlast, ?_, hslash⟩
  rw [FileTree.frontMoves, pieceMoves, ← hfront]
  exact hmoves

/-! ### Components joined one by one -/

theorem isName_of_mem_components {p : Path} {n : Text} (h : .name n ∈ p.components) :
    FileTree.isName n = true ∧ '/' ∉ n := by
  have hpiece : ∀ piece ∈ p.pieces, component? piece = some (.name n) →
      FileTree.isName n = true ∧ '/' ∉ n := by
    intro piece hmem hc
    unfold component? at hc
    split at hc
    · cases hc
    · next hidle =>
      split at hc
      · cases hc
      · next hup =>
        obtain rfl : piece = n := by simpa using hc
        simp only [isIdle, Bool.or_eq_true, beq_iff_eq, not_or] at hidle hup
        exact ⟨by simp [FileTree.isName, hidle, hup], slash_notMem_of_mem_pieces hmem⟩
  rw [components] at h
  split at h
  · cases h
  · next front rest hps =>
    rw [hps] at hpiece
    rcases List.mem_append.1 h with h | h
    · split at h
      · simp at h
      · split at h
        · simp at h
        · exact hpiece front List.mem_cons_self (by simpa using h)
    · obtain ⟨piece, hmem, hc⟩ := List.mem_filterMap.1 h
      exact hpiece piece (List.mem_cons_of_mem _ hmem) hc

theorem moves_ofComponent {c : Component} (hc : c ≠ .root)
    (hname : ∀ n, c = .name n → FileTree.isName n = true ∧ '/' ∉ n) :
    (ofComponent c).isAbsolute = false ∧ moves (ofComponent c).steps = c.move?.toList := by
  cases c with
  | root => exact absurd rfl hc
  | here => exact ⟨rfl, rfl⟩
  | up => exact ⟨rfl, rfl⟩
  | name n =>
    obtain ⟨hn, hs⟩ := hname n rfl
    refine ⟨isAbsolute_of_notMem hs, ?_⟩
    rw [ofComponent, steps_name hn hs]
    rfl

theorem extend_spec {p : Path} (hp : p.text ≠ []) {cs : List Component} (hroot : .root ∉ cs)
    (hname : ∀ n, .name n ∈ cs → FileTree.isName n = true ∧ '/' ∉ n) :
    (p.extend cs).text ≠ [] ∧ (p.extend cs).isAbsolute = p.isAbsolute ∧
      moves (p.extend cs).steps = moves p.steps ++ cs.filterMap Component.move? := by
  induction cs generalizing p with
  | nil => simpa [extend] using hp
  | cons c cs ih =>
    obtain ⟨ha, hmoves⟩ := moves_ofComponent (fun h => hroot (h ▸ List.mem_cons_self))
      fun n hn => hname n (hn ▸ List.mem_cons_self)
    obtain ⟨htext, habs, hsteps⟩ := ih (text_join_ne_nil (ofComponent c) hp)
      (fun h => hroot (List.mem_cons_of_mem _ h)) fun n hn => hname n (List.mem_cons_of_mem _ hn)
    refine ⟨htext, habs.trans (isAbsolute_join p ha hp), ?_⟩
    refine hsteps.trans ?_
    rw [moves_join p ha, hmoves, List.append_assoc]
    cases h : c.move? <;> simp [h]

end Path

end FlatSol
