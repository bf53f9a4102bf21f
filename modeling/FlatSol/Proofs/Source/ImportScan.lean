import FlatSol.Proofs.Source.Statement
import FlatSol.Proofs.Text.Lines

/-!
# Reading import statements character by character

An import statement begins with its keyword, at a place where only a margin stands before it on its
line. When every such keyword begins a whole statement, the statements of a text can be read without
looking ahead beyond their semicolons.
-/

namespace FlatSol

open Text

namespace Source

/-- Whether only a margin stands on the line behind the character `c`, if so before it. -/
def fresh (f : Bool) (c : Char) : Bool :=
  c == '\n' || (f && isMargin c)

/-- Whether only a margin stands on the last line of a text. -/
def freshAfter (f : Bool) (t : Text) : Bool :=
  t.foldl fresh f

/-- Whether the keyword of an import statement stands at the front of a text, as a whole word. -/
def startsImport (t : Text) : Bool :=
  match importKeyword.isPrefixOf? t with
  | none => false
  | some r => !r.head?.any isWord

/-- The import statements of a text, each with the bytes from its keyword to its semicolon; the text
starts at byte `n`, with only a margin before it on its line if `f` is true. -/
inductive Scanned : Nat → Bool → Text → List (Found Text) → Prop
  | nil (n : Nat) (f : Bool) : Scanned n f [] []
  | skip {n : Nat} {f : Bool} {c : Char} {t : Text} {fs : List (Found Text)} :
      (f && startsImport (c :: t)) = false → Scanned (n + c.utf8Size) (fresh f c) t fs →
      Scanned n f (c :: t) fs
  | hit {n : Nat} {t : Text} {fs : List (Found Text)} (s : Statement) :
      Scanned (n + byteSize s.text) false t fs →
      Scanned n true (s.text ++ t) (⟨⟨n, n + byteSize s.text⟩, s.path⟩ :: fs)

/-- A text in which the import statements have the given paths. -/
inductive Reads : Bool → Text → List Text → Prop
  | nil (f : Bool) : Reads f [] []
  | skip {f : Bool} {c : Char} {t : Text} {ps : List Text} :
      (f && startsImport (c :: t)) = false → Reads (fresh f c) t ps → Reads f (c :: t) ps
  | hit {t : Text} {ps : List Text} (s : Statement) :
      Reads false t ps → Reads true (s.text ++ t) (s.path :: ps)

theorem Reads.exists_scanned {f : Bool} {t : Text} {ps : List Text} (h : Reads f t ps) (n : Nat) :
    ∃ fs, Scanned n f t fs ∧ fs.map Found.value = ps := by
  induction h generalizing n with
  | nil f => exact ⟨[], .nil n f, rfl⟩
  | @skip f c t ps hc _ ih =>
    obtain ⟨fs, hfs, hps⟩ := ih (n + c.utf8Size)
    exact ⟨fs, .skip hc hfs, hps⟩
  | hit s _ ih =>
    obtain ⟨fs, hfs, rfl⟩ := ih (n + byteSize s.text)
    exact ⟨_, .hit s hfs, rfl⟩

/-! ### The keyword -/

theorem startsImport_eq_true_iff {t : Text} :
    startsImport t = true ↔ ∃ r, t = importKeyword ++ r ∧ r.head?.any isWord = false := by
  have hany : startsImport t = (importKeyword.isPrefixOf? t).any fun r => !r.head?.any isWord := by
    unfold startsImport
    cases importKeyword.isPrefixOf? t <;> rfl
  simp only [hany, any_isPrefixOf?_eq_true_iff, Bool.not_eq_true']

theorem startsImport_cons_of_ne {c : Char} (hc : c ≠ 'i') (t : Text) :
    startsImport (c :: t) = false := by
  rw [Bool.eq_false_iff, Ne, startsImport_eq_true_iff]
  rintro ⟨r, hr, -⟩
  exact hc (List.cons.inj hr).1

theorem Statement.startsImport_text (s : Statement) (t : Text) :
    startsImport (s.text ++ t) = true := by
  exact startsImport_eq_true_iff.2 ⟨s.inside ++ ';' :: t, by simp [Statement.text], s.bounded_inside t⟩

/-- What stands behind a line feed has no part in a keyword before it. -/
theorem startsImport_append_lineFeed (t u : Text) :
    startsImport (t ++ '\n' :: u) = startsImport t := by
  rw [Bool.eq_iff_iff, startsImport_eq_true_iff, startsImport_eq_true_iff]
  constructor
  · rintro ⟨r, hr, hword⟩
    rcases List.append_eq_append_iff.1 hr with ⟨z, hk, hz⟩ | ⟨z, rfl, hz⟩
    · cases z with
      | nil =>
        rw [List.append_nil] at hk
        exact ⟨[], by rw [List.append_nil, hk], rfl⟩
      | cons c cs =>
        obtain ⟨rfl, -⟩ := List.cons.inj hz
        have hmem : '\n' ∈ importKeyword := by rw [hk]; simp
        exact absurd hmem (by decide)
    · refine ⟨z, rfl, ?_⟩
      cases z with
      | nil => rfl
      | cons c cs =>
        rw [hz] at hword
        exact hword
  · rintro ⟨r, rfl, hword⟩
    refine ⟨r ++ '\n' :: u, by simp, ?_⟩
    cases r with
    | nil => rfl
    | cons c cs => exact hword

/-! ### The search finds what is read -/

theorem Statement.exists_text (s : Statement) :
    ∃ t, s.text = 'i' :: t ∧ ∃ u, s.text = u ++ [';'] :=
  ⟨_, rfl, _, rfl⟩

theorem Statement.dropWhile_isMargin (s : Statement) {margin : Text}
    (hm : ∀ c ∈ margin, isMargin c = true) (t : Text) :
    (margin ++ s.text ++ t).dropWhile isMargin = s.text ++ t := by
  rw [List.append_assoc, List.dropWhile_append_of_pos hm]
  rfl

theorem importStatement_eq_none {before : Option Char} {margin : Text}
    (hm : ∀ c ∈ margin, isMargin c = true) {t : Text} (ht : ∀ c ∈ t.head?, isMargin c = false)
    (h : startsImport t = false) : importStatement before (margin ++ t) = none := by
  cases hk : importStatement before (margin ++ t) with
  | none => rfl
  | some m =>
    obtain ⟨-, w, s, behind, hw, heq, -⟩ := exists_of_importStatement hk
    have hdrop : (margin ++ t).dropWhile isMargin = t := by
      rw [List.dropWhile_append_of_pos hm]
      cases t with
      | nil => rfl
      | cons c cs => rw [List.dropWhile_cons_of_neg (by simp [ht c rfl])]
    rw [heq, s.dropWhile_isMargin hw] at hdrop
    rw [← hdrop, s.startsImport_text] at h
    exact Bool.noConfusion h

theorem importStatement_of_not_startsLine {before : Option Char} (h : startsLine before = false)
    (t : Text) : importStatement before t = none := by
  simp [importStatement, h]

theorem findFrom_of_none {off : Nat} {before : Option Char} {c : Char} {t : Text}
    (h : importStatement before (c :: t) = none) :
    importStatement.findFrom off 0 before (c :: t) =
      importStatement.findFrom (off + c.utf8Size) 0 (some c) t := by
  rw [Pattern.findFrom, h]

/-- On a line without a match, the search passes the margin and the character behind it. -/
theorem findFrom_margin {off : Nat} {before : Option Char} {margin : Text}
    (hm : ∀ c ∈ margin, isMargin c = true) {c : Char} {t : Text}
    (h : importStatement before (margin ++ c :: t) = none) :
    importStatement.findFrom off 0 before (margin ++ c :: t) =
      importStatement.findFrom (off + byteSize (margin ++ [c])) 0 (some c) t := by
  induction margin generalizing off before with
  | nil =>
    rw [List.nil_append] at h
    rw [List.nil_append, findFrom_of_none h]
    rfl
  | cons d ds ih =>
    obtain ⟨hd, hds⟩ := List.forall_mem_cons.1 hm
    have hline : startsLine (some d) = false := by
      rcases isMargin_iff.1 hd with rfl | rfl <;> rfl
    rw [List.cons_append] at h
    rw [List.cons_append, findFrom_of_none h, ih hds (importStatement_of_not_startsLine hline _),
      List.cons_append, byteSize_cons, Nat.add_assoc]

/-- What the search knows in front of a place: the character before the margin of the line, if the
place is fresh, and else that the line has begun. -/
def Pending (f : Bool) (before : Option Char) (margin : Text) : Prop :=
  (∀ c ∈ margin, isMargin c = true) ∧
    if f then startsLine before = true else startsLine before = false ∧ margin = []

/-- A match of the search and the bare statement in it. -/
def Bare (m f : Found Text) : Prop :=
  m.value = f.value ∧ m.span.start ≤ f.span.start ∧ f.span.start < f.span.stop ∧
    f.span.stop = m.span.stop

theorem Pending.importStatement_eq_none {f : Bool} {before : Option Char} {margin t : Text}
    (hp : Pending f before margin) (hs : (f && startsImport t) = false)
    (ht : f = true → ∀ c ∈ t.head?, isMargin c = false) :
    importStatement before (margin ++ t) = none := by
  cases f with
  | false => exact importStatement_of_not_startsLine hp.2.1 _
  | true => exact Source.importStatement_eq_none hp.1 (ht rfl) hs

theorem findFrom_statement {before : Option Char} (hb : startsLine before = true)
    {margin : Text} (hm : ∀ c ∈ margin, isMargin c = true) (s : Statement) (off : Nat) (t : Text) :
    importStatement.findFrom off 0 before (margin ++ s.text ++ t) =
      ⟨⟨off, off + byteSize (margin ++ s.text)⟩, s.path⟩ ::
        importStatement.findFrom (off + byteSize (margin ++ s.text)) 0 (some ';') t := by
  have hmatch := importStatement_append hb hm s t
  obtain ⟨-, -, v, hv⟩ := s.exists_text
  obtain ⟨d, u, hdu⟩ : ∃ d u, margin ++ s.text = d :: u := by
    cases margin with
    | nil => exact ⟨_, _, rfl⟩
    | cons d ds => exact ⟨_, _, rfl⟩
  have hlast : u.getLast?.or (some d) = some ';' := by
    have h : (d :: u).getLast? = some ';' := by
      rw [← hdu, hv, ← List.append_assoc, List.getLast?_concat]
    cases u with
    | nil => simpa using h
    | cons e es => simpa [List.getLast?_cons] using h
  have htake : (d :: (u ++ t)).take (u.length + 1) = d :: u := by simp
  rw [hdu, List.cons_append] at hmatch
  rw [hdu, List.cons_append, Pattern.findFrom, hmatch]
  simp only [htake, List.length_cons, Nat.add_sub_cancel, Pattern.findFrom_covered, hlast,
    byteSize_cons, Nat.add_assoc]

/-- The matches of the search are the statements that are read, each with the margin before it. -/
theorem exists_findFrom_of_scanned {n : Nat} {f : Bool} {t : Text} {fs : List (Found Text)}
    (h : Scanned n f t fs) {off : Nat} {before : Option Char} {margin : Text}
    (hp : Pending f before margin) (hn : off + byteSize margin = n) :
    ∃ zs : List (Found Text × Found Text),
      zs.map Prod.fst = importStatement.findFrom off 0 before (margin ++ t) ∧
        zs.map Prod.snd = fs ∧ ∀ z ∈ zs, Bare z.1 z.2 := by
  induction h generalizing off before margin with
  | nil n f =>
    refine ⟨[], ?_, rfl, by simp⟩
    have hnone := hp.importStatement_eq_none (t := []) (by cases f <;> rfl) (by simp)
    rcases List.eq_nil_or_concat margin with rfl | ⟨w, c, rfl⟩
    · rfl
    · rw [List.concat_eq_append, List.append_nil] at *
      rw [findFrom_margin (fun d hd => hp.1 d (List.mem_append_left _ hd)) hnone]
      rfl
  | @skip n f c t fs hc _ ih =>
    have happend : margin ++ c :: t = (margin ++ [c]) ++ t := by simp
    have hsize : off + byteSize (margin ++ [c]) = n + c.utf8Size := by
      rw [← hn, byteSize_append, Nat.add_assoc]
      rfl
    by_cases hm : (f && isMargin c) = true
    · obtain ⟨rfl, hcm⟩ := Bool.and_eq_true_iff.1 hm
      have hfresh : fresh true c = true := by simp [fresh, hcm]
      rw [happend]
      refine ih ?_ hsize
      rw [hfresh]
      refine ⟨fun d hd => ?_, hp.2⟩
      rcases List.mem_append.1 hd with hd | hd
      · exact hp.1 d hd
      · rw [List.mem_singleton.1 hd]
        exact hcm
    · have hnone := hp.importStatement_eq_none hc fun hf d hd => by
        obtain rfl : c = d := by simpa using hd
        simpa [hf] using hm
      rw [findFrom_margin hp.1 hnone, hsize]
      have hpending : Pending (fresh f c) (some c) [] := by
        refine ⟨by simp, ?_⟩
        rw [Bool.not_eq_true] at hm
        by_cases hlf : c = '\n'
        · simp [fresh, hlf, startsLine]
        · simp [fresh, hm, hlf, startsLine]
      exact ih hpending rfl
  | @hit n t fs s _ ih =>
    have hpending : Pending false (some ';') [] := ⟨by simp, rfl, rfl⟩
    have hoff : n + byteSize s.text + byteSize [] = n + byteSize s.text := rfl
    obtain ⟨zs, hfst, hsnd, hbare⟩ := ih hpending hoff
    have hsize : off + byteSize (margin ++ s.text) = n + byteSize s.text := by
      rw [byteSize_append, ← hn, Nat.add_assoc]
    have hpos : 0 < byteSize s.text := by
      obtain ⟨u, hu, -⟩ := s.exists_text
      have hi : Char.utf8Size 'i' = 1 := rfl
      rw [hu, byteSize_cons]
      omega
    refine ⟨(⟨⟨off, n + byteSize s.text⟩, s.path⟩, ⟨⟨n, n + byteSize s.text⟩, s.path⟩) :: zs, ?_, ?_,
      List.forall_mem_cons.2 ⟨⟨rfl, ?_, ?_, rfl⟩, hbare⟩⟩
    · rw [← List.append_assoc, findFrom_statement hp.2 hp.1, hsize, List.map_cons, hfst]
      rfl
    · rw [List.map_cons, hsnd]
    · exact Nat.le.intro hn
    · exact Nat.lt_add_of_pos_right hpos

theorem exists_findAll_of_scanned {t : Text} {fs : List (Found Text)} (h : Scanned 0 true t fs) :
    ∃ zs : List (Found Text × Found Text), importStatement.findAll t = zs.map Prod.fst ∧
      zs.map Prod.snd = fs ∧ ∀ z ∈ zs, Bare z.1 z.2 := by
  have hpending : Pending true none [] := ⟨by simp, rfl⟩
  obtain ⟨zs, hfst, hsnd, hbare⟩ := exists_findFrom_of_scanned h hpending rfl
  exact ⟨zs, hfst.symm, hsnd, hbare⟩

theorem findAll_of_reads {t : Text} {ps : List Text} (h : Reads true t ps) :
    (importStatement.findAll t).map Found.value = ps := by
  obtain ⟨fs, hfs, rfl⟩ := h.exists_scanned 0
  obtain ⟨zs, hall, rfl, hbare⟩ := exists_findAll_of_scanned hfs
  rw [hall, List.map_map, List.map_map]
  exact List.map_congr_left fun z hz => (hbare z hz).1

end Source

end FlatSol
