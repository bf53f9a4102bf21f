import FlatSol.Proofs.FileTree.Way

/-!
# Where paths lead

The directory that a path leads to, by its moves; those of its parent are its own without the last
one. A path that names a new entry leads, but for its last name, to the directory of that entry, and
so does the path of the directory that it is written in.
-/

namespace FlatSol

/-! ### The pieces of a path -/

namespace Path

theorem isAbsolute_iff {p : Path} :
    p.isAbsolute = true ↔ ∃ piece rest, p.pieces = [] :: piece :: rest := by
  obtain ⟨text⟩ := p
  cases text with
  | nil => simp [isAbsolute, pieces, Text.pieces, Text.startsWith, List.isPrefixOf]
  | cons c cs =>
    obtain ⟨q, qs, hq⟩ := List.exists_cons_of_ne_nil (Text.pieces_ne_nil '/' cs)
    by_cases hc : c = '/'
    · simp [isAbsolute, pieces, Text.pieces, Text.startsWith, List.isPrefixOf, hc, hq]
    · have hc' : ¬ '/' = c := fun h => hc h.symm
      simp [isAbsolute, pieces, Text.pieces, Text.startsWith, List.isPrefixOf, hc, hc', hq]

theorem slash_notMem_of_mem_pieces {p : Path} {piece : Text} (h : piece ∈ p.pieces) :
    '/' ∉ piece :=
  fun hc => (Text.of_mem_pieces h '/' hc).2 rfl

theorem pieces_ofPieces {ps : List Text} (hne : ps ≠ []) (h : ∀ piece ∈ ps, '/' ∉ piece) :
    (ofPieces ps).pieces = ps :=
  Text.pieces_joinWith hne h

/-! ### Moves of a path and of its parent -/

/-- The moves that pieces stand for. -/
def pieceMoves (ps : List Text) : List Step :=
  moves (ps.map Step.ofPiece)

theorem moves_steps (p : Path) : moves p.steps = pieceMoves p.pieces := rfl

@[simp] theorem pieceMoves_nil : pieceMoves [] = [] := rfl

theorem pieceMoves_append (ps qs : List Text) :
    pieceMoves (ps ++ qs) = pieceMoves ps ++ pieceMoves qs := by
  simp [pieceMoves]

theorem pieceMoves_cons (piece : Text) (ps : List Text) :
    pieceMoves (piece :: ps) = pieceMoves [piece] ++ pieceMoves ps :=
  pieceMoves_append [piece] ps

theorem pieceMoves_of_isIdle {piece : Text} (h : isIdle piece = true) : pieceMoves [piece] = [] := by
  simp [pieceMoves, Step.ofPiece, h]

theorem ofPiece_ne_stay {piece : Text} (h : isIdle piece = false) : Step.ofPiece piece ≠ .stay := by
  rw [Step.ofPiece, h, if_neg Bool.false_ne_true]
  split <;> simp

theorem pieceMoves_of_not_isIdle {piece : Text} (h : isIdle piece = false) :
    pieceMoves [piece] = [Step.ofPiece piece] := by
  simp [pieceMoves, moves, ofPiece_ne_stay h]

theorem pieceMoves_dropIdle (ps : List Text) : pieceMoves (dropIdle ps) = pieceMoves ps := by
  induction ps with
  | nil => rfl
  | cons p ps ih =>
    rw [pieceMoves_cons p ps, ← ih, dropIdle]
    cases hk : dropIdle ps with
    | nil =>
      by_cases hp : isIdle p = true
      · simp [hp, pieceMoves_of_isIdle hp]
      · simp [hp]
    | cons q qs => exact pieceMoves_cons p (q :: qs)

theorem startsWith_dropIdle (ps : List Text) : dropIdle ps <+: ps := by
  induction ps with
  | nil => exact List.prefix_refl _
  | cons p ps ih =>
    rw [dropIdle]
    cases hk : dropIdle ps with
    | nil =>
      by_cases hp : isIdle p = true
      · rw [if_pos hp]
        exact List.nil_prefix
      · rw [if_neg hp]
        exact (List.prefix_cons_inj p).2 List.nil_prefix
    | cons q qs =>
      rw [hk] at ih
      exact (List.prefix_cons_inj p).2 ih

theorem dropLast_pieceMoves (front : Text) {rest : List Text} (hne : dropIdle rest ≠ []) :
    (pieceMoves (front :: rest)).dropLast =
      pieceMoves (front :: dropIdle (dropIdle rest).dropLast) := by
  have hlast : (dropIdle rest).dropLast ++ [(dropIdle rest).getLast hne] = dropIdle rest :=
    List.dropLast_concat_getLast hne
  rw [pieceMoves_cons front rest, ← pieceMoves_dropIdle rest, ← hlast, pieceMoves_append,
    pieceMoves_of_not_isIdle (isIdle_getLast_dropIdle rest hne), ← List.append_assoc,
    List.dropLast_concat, hlast, pieceMoves_cons front (dropIdle _), pieceMoves_dropIdle]

/-- The parent of a path takes all its moves but the last one. -/
theorem moves_parent? {p q : Path} (h : p.parent? = some q) :
    moves q.steps = (moves p.steps).dropLast ∧ q.isAbsolute = p.isAbsolute := by
  obtain ⟨front, rest, hps, hcases⟩ := parent?_cases h
  have hslash : ∀ piece ∈ front :: rest, '/' ∉ piece := fun piece hm =>
    slash_notMem_of_mem_pieces (hps ▸ hm)
  rw [moves_steps p, hps]
  rcases hcases with ⟨hidle, ha, -, rfl⟩ | ⟨hne, hkept, rfl⟩ | ⟨hne, hkept, rfl⟩
  · -- the front piece is the only one that takes a move, if any does
    refine ⟨?_, by rw [ha]; rfl⟩
    rw [pieceMoves_cons, ← pieceMoves_dropIdle rest, hidle]
    by_cases hf : isIdle front = true
    · rw [pieceMoves_of_isIdle hf]
      rfl
    · rw [pieceMoves_of_not_isIdle (by simpa using hf)]
      rfl
  · rw [dropLast_pieceMoves front hne, hkept]
    by_cases ha : p.isAbsolute = true
    · have hfront : front = [] := by
        obtain ⟨_, _, hpieces⟩ := isAbsolute_iff.1 ha
        rw [hps] at hpieces
        exact (List.cons.inj hpieces).1
      rw [hfront, if_pos ha, ha]
      exact ⟨rfl, rfl⟩
    · have hpieces : Path.pieces ⟨front⟩ = [front] :=
        Text.pieces_of_notMem (hslash front List.mem_cons_self)
      rw [if_neg ha, moves_steps, hpieces]
      refine ⟨rfl, ?_⟩
      rw [Bool.not_eq_true] at ha
      rw [ha, Bool.eq_false_iff, Ne, isAbsolute_iff, hpieces]
      simp
  · have hpieces : (ofPieces (front :: dropIdle (dropIdle rest).dropLast)).pieces =
        front :: dropIdle (dropIdle rest).dropLast := by
      refine pieces_ofPieces (List.cons_ne_nil _ _) fun piece hm => hslash piece ?_
      rcases List.mem_cons.1 hm with rfl | hm
      · exact List.mem_cons_self
      · have hkeep := (startsWith_dropIdle _).subset hm
        exact List.mem_cons_of_mem _
          ((startsWith_dropIdle rest).subset (List.mem_of_mem_dropLast hkeep))
    refine ⟨?_, ?_⟩
    · rw [moves_steps, hpieces, dropLast_pieceMoves front hne]
    · have hrest : rest ≠ [] := by
        rintro rfl
        exact hne rfl
      obtain ⟨r, rs, hr⟩ := List.exists_cons_of_ne_nil hrest
      obtain ⟨k, ks, hk⟩ := List.exists_cons_of_ne_nil hkept
      rw [Bool.eq_iff_iff, isAbsolute_iff, isAbsolute_iff, hpieces, hps, hk, hr]
      simp

theorem moves_of_parent?_eq_none {p : Path} (h : p.parent? = none) : moves p.steps = [] := by
  unfold parent? at h
  split at h
  · next hps => exact absurd hps (Text.pieces_ne_nil '/' p.text)
  · next front rest hps =>
    split at h
    · next hidle =>
      split at h
      · next ha =>
        have hfront : front = [] := by
          rw [Bool.or_eq_true] at ha
          rcases ha with ha | ha
          · obtain ⟨_, _, ha⟩ := isAbsolute_iff.1 ha
            rw [hps] at ha
            exact (List.cons.inj ha).1
          · simpa using ha
        rw [moves_steps, hps, pieceMoves_cons, ← pieceMoves_dropIdle rest, hidle, hfront]
        rfl
      · simp at h
    · split at h <;> simp at h

end Path

namespace FileTree

/-! ### The last name -/

/-- The moves of a path before its last name. -/
def frontMoves (p : Path) : List Step :=
  Path.pieceMoves (splitLast p).1

theorem pieces_of_splitLast {p : Path} {name : Text} (h : (splitLast p).2 = some name) :
    ∃ j, p.pieces = (splitLast p).1 ++ name :: List.replicate j [] := by
  have hsplit := List.takeWhile_append_dropWhile (p := List.isEmpty) (l := p.pieces.reverse)
  obtain ⟨j, hj⟩ : ∃ j, p.pieces.reverse.takeWhile List.isEmpty = List.replicate j [] :=
    ⟨_, List.eq_replicate_of_mem fun x hx => by simpa using List.mem_takeWhile_imp hx⟩
  obtain ⟨tail, htail⟩ : ∃ tail, p.pieces.reverse.dropWhile List.isEmpty = name :: tail :=
    List.head?_eq_some_iff.1 h
  have hinit : (splitLast p).1 = tail.reverse := by simp only [splitLast, htail, List.tail_cons]
  rw [htail, hj] at hsplit
  have hpieces := congrArg List.reverse hsplit
  rw [List.reverse_reverse] at hpieces
  refine ⟨j, ?_⟩
  rw [← hpieces, hinit]
  simp

theorem steps_of_splitLast {p : Path} {name : Text} (h : (splitLast p).2 = some name)
    (hn : isName name = true) (hp : p.text.getLast? ≠ some '/') :
    p.steps = (splitLast p).1.map Step.ofPiece ++ [.into name] := by
  obtain ⟨j, hj⟩ := pieces_of_splitLast h
  cases j with
  | zero => rw [Path.steps, hj, List.map_append, List.replicate_zero, List.map_singleton,
      Step.ofPiece_of_isName hn]
  | succ j =>
    -- an empty piece at the end stands behind a slash
    have hend : p.pieces = ((splitLast p).1 ++ name :: List.replicate j []) ++ [[]] := by
      rw [hj, List.replicate_succ']
      simp
    exact absurd (Text.getLast?_of_pieces_append (by simp) hend) hp

/-- A path whose steps end in a name has that last name, and no slash behind it. -/
theorem splitLast_of_steps {p : Path} {front : List Step} {name : Text}
    (h : p.steps = front ++ [.into name]) :
    (splitLast p).2 = some name ∧ isName name = true ∧ p.text.getLast? ≠ some '/' ∧
      front = (splitLast p).1.map Step.ofPiece := by
  obtain ⟨ps, piece, hps⟩ : ∃ ps piece, p.pieces = ps ++ [piece] :=
    (List.eq_nil_or_concat' p.pieces).resolve_left (Text.pieces_ne_nil '/' p.text)
  rw [Path.steps, hps, List.map_append] at h
  obtain ⟨hfront, hpiece⟩ := List.append_inj' h rfl
  obtain ⟨rfl, hname⟩ := Step.isName_of_ofPiece (List.cons.inj hpiece).1
  have hne : piece.isEmpty = false := by
    cases piece with
    | nil => cases hname
    | cons c cs => rfl
  have hsplit : splitLast p = (ps, some piece) := by simp [splitLast, hps, hne]
  refine ⟨by rw [hsplit], hname, fun hslash => ?_, by rw [hsplit, hfront]⟩
  -- behind a slash at the end stands an empty piece
  obtain ⟨init, hinit⟩ := List.getLast?_eq_some_iff.1 hslash
  have hpieces : p.pieces = Text.pieces '/' init ++ [[]] := by
    rw [Path.pieces, hinit, Text.pieces_append_singleton]
  have hlast := (List.append_inj' (hps.symm.trans hpieces) rfl).2
  obtain rfl := (List.cons.inj hlast).1
  cases hne

theorem moves_of_splitLast {p : Path} {name : Text} (h : (splitLast p).2 = some name)
    (hn : isName name = true) : moves p.steps = frontMoves p ++ [.into name] := by
  obtain ⟨j, hj⟩ := pieces_of_splitLast h
  have hidle : Path.pieceMoves (List.replicate j []) = [] := by
    simp [Path.pieceMoves, moves, Step.ofPiece, Path.isIdle]
  rw [Path.moves_steps, hj, Path.pieceMoves_append, Path.pieceMoves_cons name, hidle, frontMoves]
  simp [Path.pieceMoves, Step.ofPiece_of_isName hn]

/-- A path with a last name is written in the directory that its other moves lead to. -/
theorem moves_writeDir {p : Path} {name : Text} (h : (splitLast p).2 = some name)
    (hn : isName name = true) :
    moves (writeDir p).steps = frontMoves p ∧ (writeDir p).isAbsolute = p.isAbsolute := by
  have hmoves := moves_of_splitLast h hn
  unfold writeDir
  cases hq : p.parent? with
  | none =>
    rw [Path.moves_of_parent?_eq_none hq] at hmoves
    simp at hmoves
  | some q =>
    obtain ⟨hm, ha⟩ := Path.moves_parent? hq
    rw [hmoves, List.dropLast_concat] at hm
    by_cases hempty : q.text.isEmpty = true
    · have hqe : q = ⟨[]⟩ := by
        obtain ⟨text⟩ := q
        simpa using hempty
      simp only [hempty, if_true]
      rw [← hm, ← ha, hqe]
      exact ⟨rfl, rfl⟩
    · simp only [hempty]
      exact ⟨hm, ha⟩

/-! ### The directory that moves lead to -/

variable {t : FileTree} {p q : Path} {ms : List Step} {l k : Location}

/-- The moves lead to a directory, from where the path starts. -/
def Leads (t : FileTree) (p : Path) (ms : List Step) (l : Location) : Prop :=
  ∃ start m, t.origin p = .ok start ∧ Way t maxLinks start ms m l ∧ t.get? l = some .dir

theorem origin_congr (h : q.isAbsolute = p.isAbsolute) : t.origin q = t.origin p := by
  rw [origin, h]
  rfl

theorem Leads.congr (h : t.Leads p ms l) (ha : q.isAbsolute = p.isAbsolute) : t.Leads q ms l := by
  obtain ⟨start, m, ho, w, hd⟩ := h
  exact ⟨start, m, by rw [origin_congr ha, ho], w, hd⟩

theorem Leads.dir (h : t.Leads p ms l) : t.get? l = some .dir := by
  obtain ⟨_, _, _, _, hd⟩ := h
  exact hd

theorem Leads.unique (h : t.Leads p ms l) (h' : t.Leads p ms k) : l = k := by
  obtain ⟨start, m, ho, w, -⟩ := h
  obtain ⟨start', m', ho', w', -⟩ := h'
  obtain rfl : start = start' := Except.ok.inj (ho.symm.trans ho')
  exact Except.ok.inj (w.walk_eq.symm.trans w'.walk_eq)

/-- What leads to a directory leads to one on the way, unless that is where it starts. -/
theorem Leads.split {ns : List Step} (h : t.Leads p (ms ++ ns) l) (hns : ns ≠ []) :
    ∃ k j m, t.Leads p ms k ∧ Way t j k ns m l := by
  obtain ⟨start, m, ho, w, -⟩ := h
  obtain ⟨j, k, w, v⟩ := w.split
  refine ⟨k, j, m, ⟨start, j, ho, w, ?_⟩, v⟩
  cases v with
  | done => exact absurd rfl hns
  | stay dir _ => exact dir
  | up dir _ => exact dir
  | link dir _ _ _ => exact dir
  | into dir _ _ _ _ => exact dir

theorem Leads.into {name : Text} (h : t.Leads p ms l) (hn : Text.byteSize name ≤ maxNameSize)
    (hd : t.get? (l ++ [name]) = some .dir) : t.Leads p (ms ++ [.into name]) (l ++ [name]) := by
  obtain ⟨start, m, ho, w, hl⟩ := h
  exact ⟨start, m, ho, w.append (.into hl hn hd (fun _ => by simp) .done), hd⟩

theorem leads_of_walk {steps : List Step} {start : Location} (ho : t.origin p = .ok start)
    (h : walk t .follow maxLinks start steps = .ok l) (hd : t.get? l = some .dir) :
    t.Leads p (moves steps) l := by
  obtain ⟨m, w⟩ := way_of_walk h
  exact ⟨start, m, ho, w.of_moves hd (moves_moves steps), hd⟩

theorem Leads.walk_eq {steps : List Step} (h : t.Leads p (moves steps) l) :
    ∃ start m, t.origin p = .ok start ∧ Way t maxLinks start steps m l := by
  obtain ⟨start, m, ho, w, hd⟩ := h
  exact ⟨start, m, ho, w.of_moves hd (moves_moves steps).symm⟩

theorem leads_of_resolve (h : t.resolve .follow p = .ok l) (hd : t.get? l = some .dir) :
    t.Leads p (moves p.steps) l := by
  obtain ⟨-, start, m, ho, w⟩ := resolve_eq_ok_iff.1 h
  exact leads_of_walk ho w.walk_eq hd

theorem Leads.resolve_eq (h : t.Leads p (moves p.steps) l) (hc : checkPath p = .ok ()) :
    t.resolve .follow p = .ok l := by
  exact resolve_eq_ok_iff.2 ⟨hc, h.walk_eq⟩

theorem exists_resolve_of_isDir (h : t.isDir p = true) :
    ∃ l, t.resolve .follow p = .ok l ∧ t.get? l = some .dir := by
  unfold isDir status? at h
  split at h
  · next l hl => exact ⟨l, hl, by simpa using h⟩
  · simp at h

theorem exists_leads_of_isDir (h : t.isDir p = true) : ∃ l, t.Leads p (moves p.steps) l := by
  obtain ⟨l, hl, hd⟩ := exists_resolve_of_isDir h
  exact ⟨l, leads_of_resolve hl hd⟩

theorem parentLocation_eq_ok_iff :
    t.parentLocation p = .ok l ↔ checkPath p = .ok () ∧ t.Leads p (frontMoves p) l := by
  constructor
  · intro h
    obtain ⟨_, hc, h⟩ := Except.exists_of_bind_eq_ok h
    obtain ⟨start, ho, h⟩ := Except.exists_of_bind_eq_ok h
    obtain ⟨k, hk, h⟩ := Except.exists_of_bind_eq_ok h
    split at h
    · next hd =>
      obtain rfl := Except.ok.inj h
      exact ⟨hc, leads_of_walk ho hk hd⟩
    · simp at h
  · rintro ⟨hc, h⟩
    obtain ⟨start, m, ho, w⟩ := h.walk_eq
    simp only [parentLocation, hc, ho, bind, Except.bind, w.walk_eq, if_pos h.dir]

end FileTree

end FlatSol
