import FlatSol.Text.Basic

/-!
# Paths

A path is a text, kept as it was built; what it means is its list of components, in which repeated
slashes, a trailing slash and interior `.` pieces do not count. Two paths are the same path when
their components agree. Main statement: the parent of a path is a shorter text, so that walking
upward ends.
-/

namespace FlatSol

structure Path where
  text : Text
deriving DecidableEq, Repr

inductive Component
  /-- The slash that an absolute path starts with. -/
  | root
  /-- A leading `.` of a relative path. -/
  | here
  | up
  | name (n : Text)
deriving DecidableEq, Repr

namespace Component

def rank : Component → Nat
  | .root => 0
  | .here => 1
  | .up => 2
  | .name _ => 3

/-- The order of components: names come last, and stand in the order of their characters. -/
def compare : Component → Component → Ordering
  | .name a, .name b => List.compareLex (fun c d => Ord.compare c d) a b
  | a, b => Ord.compare a.rank b.rank

end Component

namespace Path

/-! ### Components -/

/-- Whether a piece of a path names nothing by itself. -/
def isIdle (piece : Text) : Bool :=
  piece == [] || piece == ['.']

/-- The component that a piece stands for, unless it is idle. -/
def component? (piece : Text) : Option Component :=
  if isIdle piece then none
  else if piece == ['.', '.'] then some .up
  else some (.name piece)

def isAbsolute (p : Path) : Bool :=
  Text.startsWith ['/'] p.text

def pieces (p : Path) : List Text :=
  Text.pieces '/' p.text

def ofPieces (ps : List Text) : Path :=
  ⟨Text.joinWith ['/'] ps⟩

/-- The components of a path, from the outermost one inward. -/
def components (p : Path) : List Component :=
  match p.pieces with
  | [] => []
  | front :: rest =>
    let head :=
      if p.isAbsolute then [Component.root]
      else if front == ['.'] then [Component.here]
      else (component? front).toList
    head ++ rest.filterMap component?

/-- Whether two texts write the same path. -/
def same (p q : Path) : Bool :=
  p.components == q.components

/-- Whether `p` lies under `parent`, or is it. -/
def isInside (p parent : Path) : Bool :=
  parent.components.isPrefixOf p.components

/-! ### Order -/

def le (p q : Path) : Bool :=
  (List.compareLex Component.compare p.components q.components).isLE

/-! ### Joining -/

/-- `q` as seen from `p`: an absolute path stands for itself. -/
def join (p q : Path) : Path :=
  if q.isAbsolute then q
  else if p.text.isEmpty || p.text.getLast? == some '/' then ⟨p.text ++ q.text⟩
  else ⟨p.text ++ '/' :: q.text⟩

def ofComponent : Component → Path
  | .root => ⟨['/']⟩
  | .here => ⟨['.']⟩
  | .up => ⟨['.', '.']⟩
  | .name n => ⟨n⟩

/-- The path that joins components one by one onto `p`. -/
def extend (p : Path) (cs : List Component) : Path :=
  cs.foldl (fun q c => q.join (ofComponent c)) p

/-! ### Parents -/

def dropIdle : List Text → List Text
  | [] => []
  | p :: ps =>
    match dropIdle ps with
    | [] => if isIdle p then [] else [p]
    | kept => p :: kept

/-- The path without its last component; the root and the empty path have no parent. -/
def parent? (p : Path) : Option Path :=
  match p.pieces with
  | [] => none
  | front :: rest =>
    if dropIdle rest = [] then
      if p.isAbsolute || front.isEmpty then none else some ⟨[]⟩
    else
      match dropIdle (dropIdle rest).dropLast with
      | [] => some (if p.isAbsolute then ⟨['/']⟩ else ⟨front⟩)
      | kept => some (ofPieces (front :: kept))

/-- The number of characters of pieces that are each written behind a slash. -/
def weight : List Text → Nat
  | [] => 0
  | p :: ps => p.length + 1 + weight ps

theorem weight_append (ps qs : List Text) : weight (ps ++ qs) = weight ps + weight qs := by
  induction ps with
  | nil => simp [weight]
  | cons p ps ih => simp [weight, ih]; omega

theorem length_joinWith (front : Text) (ps : List Text) :
    (Text.joinWith ['/'] (front :: ps)).length = front.length + weight ps := by
  induction ps generalizing front with
  | nil => simp [Text.joinWith, weight]
  | cons p ps ih => simp [Text.joinWith, ih, weight]; omega

theorem weight_dropIdle_le (ps : List Text) : weight (dropIdle ps) ≤ weight ps := by
  induction ps with
  | nil => simp [dropIdle]
  | cons p ps ih =>
    rw [dropIdle]
    cases h : dropIdle ps with
    | nil => by_cases hp : isIdle p = true <;> simp [hp, weight]
    | cons q qs => rw [h] at ih; simp only [weight] at ih ⊢; omega

theorem isIdle_getLast_dropIdle (ps : List Text) (h : dropIdle ps ≠ []) :
    isIdle ((dropIdle ps).getLast h) = false := by
  induction ps with
  | nil => simp [dropIdle] at h
  | cons p ps ih =>
    cases hk : dropIdle ps with
    | nil =>
      by_cases hp : isIdle p = true
      · simp [dropIdle, hk, hp] at h
      · simp only [dropIdle, hk, hp, if_false, Bool.false_eq_true, List.getLast_singleton]
    | cons q qs =>
      have hne : dropIdle ps ≠ [] := by simp [hk]
      have := ih hne
      simp only [hk] at this
      simpa only [dropIdle, hk, List.getLast_cons (List.cons_ne_nil q qs)] using this

/-- A path has a parent if it is a single component, or if it has components behind a front piece. -/
theorem parent?_cases {p q : Path} (h : p.parent? = some q) :
    ∃ front rest, p.pieces = front :: rest ∧
      ((dropIdle rest = [] ∧ p.isAbsolute = false ∧ front ≠ [] ∧ q = ⟨[]⟩) ∨
        (dropIdle rest ≠ [] ∧ dropIdle (dropIdle rest).dropLast = [] ∧
          q = if p.isAbsolute then ⟨['/']⟩ else ⟨front⟩) ∨
        (dropIdle rest ≠ [] ∧ dropIdle (dropIdle rest).dropLast ≠ [] ∧
          q = ofPieces (front :: dropIdle (dropIdle rest).dropLast))) := by
  unfold parent? at h
  split at h
  · simp at h
  · next front rest hps =>
    refine ⟨front, rest, hps, ?_⟩
    split at h
    · next hidle =>
      split at h
      · simp at h
      · next hf =>
        simp only [Bool.or_eq_true, List.isEmpty_iff, not_or, Bool.not_eq_true] at hf
        exact .inl ⟨hidle, hf.1, hf.2, (Option.some.inj h).symm⟩
    · next hne =>
      split at h
      · next hkept => exact .inr (.inl ⟨hne, hkept, (Option.some.inj h).symm⟩)
      · next hkept => exact .inr (.inr ⟨hne, hkept, (Option.some.inj h).symm⟩)

theorem length_parent? {p q : Path} (h : p.parent? = some q) : q.text.length < p.text.length := by
  obtain ⟨front, rest, hps, hcases⟩ := parent?_cases h
  have hp : p.text = Text.joinWith ['/'] p.pieces := (Text.joinWith_pieces '/' p.text).symm
  have hlen : p.text.length = front.length + weight rest := by
    rw [hp, hps, length_joinWith]
  have hw : ∀ hne : dropIdle rest ≠ [], weight (dropIdle rest).dropLast + 1 < weight rest := by
    intro hne
    have hlast := isIdle_getLast_dropIdle rest hne
    have hpos : 0 < ((dropIdle rest).getLast hne).length := by
      refine List.length_pos_iff.2 fun hn => ?_
      simp [hn, isIdle] at hlast
    refine Nat.lt_of_lt_of_le ?_ (weight_dropIdle_le rest)
    conv => rhs; rw [← List.dropLast_concat_getLast hne]
    simp [weight_append, weight]
    omega
  rcases hcases with ⟨-, -, hfront, rfl⟩ | ⟨hne, -, rfl⟩ | ⟨hne, -, rfl⟩
  · have hpos := List.length_pos_iff.2 hfront
    simp only [List.length_nil]
    omega
  · have hsize := hw hne
    split <;> simp only [List.length_singleton] <;> omega
  · have hsize := hw hne
    have hle := weight_dropIdle_le (dropIdle rest).dropLast
    simp only [ofPieces, length_joinWith]
    omega

/-! ### Names -/

/-- The last component, if it is a name. -/
def fileName? (p : Path) : Option Text :=
  match p.components.getLast? with
  | some (.name n) => some n
  | _ => none

/-- A name cut at its last dot, if a character stands before that dot. -/
def cutAtLastDot (n : Text) : Option (Text × Text) :=
  let ps := Text.pieces '.' n
  match ps.getLast? with
  | none => none
  | some extension =>
    let stem := Text.joinWith ['.'] ps.dropLast
    if stem.isEmpty then none else some (stem, extension)

def stem? (p : Path) : Option Text :=
  p.fileName?.map fun n => ((cutAtLastDot n).map Prod.fst).getD n

/-- The part of the file name behind its last dot; a dot in front of the name starts no extension. -/
def extension? (p : Path) : Option Text :=
  p.fileName?.bind fun n => (cutAtLastDot n).map Prod.snd

end Path

end FlatSol
