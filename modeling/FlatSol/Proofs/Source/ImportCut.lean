import FlatSol.Proofs.Source.ImportEdit
import FlatSol.Proofs.Source.Spans

/-!
# Import statements of a text with cuts

Cutting a text leaves the import statements that are kept whole, and no others, when it brings no
keyword to the start of a line and takes none away from there.
-/

namespace FlatSol

open Text

namespace Source

/-- Whether at every place that is kept an import statement starts in what is kept if and only if
one starts in the text; `f` and `g` tell whether only a margin stands before the place on its line,
in the text and in what is kept of it. -/
def sameStarts (p : Nat → Bool) : Nat → Bool → Bool → Text → Bool
  | _, _, _, [] => true
  | n, f, g, c :: t =>
    if p n then
      (f && startsImport (c :: t)) == (g && startsImport (c :: keep p (n + c.utf8Size) t)) &&
        sameStarts p (n + c.utf8Size) (fresh f c) (fresh g c) t
    else sameStarts p (n + c.utf8Size) (fresh f c) g t

theorem sameStarts_append {p : Nat → Bool} {n : Nat} {f g : Bool} {a b : Text}
    (h : sameStarts p n f g (a ++ b) = true) :
    sameStarts p (n + byteSize a) (freshAfter f a) (freshAfter g (keep p n a)) b = true := by
  induction a generalizing n f g with
  | nil => exact h
  | cons c cs ih =>
    rw [List.cons_append, sameStarts] at h
    rw [byteSize_cons, ← Nat.add_assoc]
    by_cases hp : p n = true
    · rw [if_pos hp, Bool.and_eq_true] at h
      have hkeep : freshAfter g (keep p n (c :: cs)) =
          freshAfter (fresh g c) (keep p (n + c.utf8Size) cs) := by
        rw [keep, if_pos hp]
        rfl
      rw [hkeep]
      exact ih h.2
    · rw [if_neg hp] at h
      rw [keep, if_neg hp]
      exact ih h

theorem Statement.freshAfter_text (s : Statement) (f : Bool) : freshAfter f s.text = false := by
  obtain ⟨-, -, u, hu⟩ := s.exists_text
  rw [hu, freshAfter, List.foldl_append]
  simp [fresh, isMargin]

/-- Import statements that are kept or cut as a whole are found in what is kept if they are kept,
when keywords start lines in the same places. -/
theorem reads_keep {p : Nat → Bool} {n : Nat} {f g : Bool} {t : Text} {fs : List (Found Text)}
    (h : Scanned n f t fs) (hs : sameStarts p n f g t = true)
    (hwhole : ∀ b ∈ fs, ∀ k, b.span.start ≤ k → k < b.span.stop → p k = p b.span.start) :
    Reads g (keep p n t) ((fs.filter fun b => p b.span.start).map Found.value) := by
  induction h generalizing g with
  | nil n f => exact .nil g
  | @skip n f c t fs hc _ ih =>
    rw [sameStarts] at hs
    by_cases hp : p n = true
    · rw [if_pos hp, Bool.and_eq_true, beq_iff_eq, hc] at hs
      rw [keep, if_pos hp]
      exact .skip hs.1.symm (ih hs.2 hwhole)
    · rw [if_neg hp] at hs
      rw [keep, if_neg hp]
      exact ih hs hwhole
  | @hit n t fs s _ ih =>
    obtain ⟨hfirst, hrest⟩ := List.forall_mem_cons.1 hwhole
    have happend := sameStarts_append hs
    rw [s.freshAfter_text] at happend
    have hkept : keep p n s.text = if p n then s.text else [] := keep_eq_ite hfirst
    rw [keep_append]
    by_cases hp : p n = true
    · rw [if_pos hp] at hkept
      have hstart : g = true := by
        obtain ⟨u, hu, -⟩ := s.exists_text
        have hleft := s.startsImport_text t
        rw [hu, List.cons_append] at hs hleft
        rw [sameStarts, if_pos hp, Bool.and_eq_true, beq_iff_eq, hleft, Bool.true_and] at hs
        exact (Bool.and_eq_true_iff.1 hs.1.symm).1
      rw [hkept, s.freshAfter_text] at happend
      rw [hkept, hstart, List.filter_cons_of_pos (by exact hp), List.map_cons]
      exact .hit s (ih happend hrest)
    · rw [if_neg hp] at hkept
      rw [hkept] at happend
      rw [hkept, List.nil_append, List.filter_cons_of_neg (by exact hp)]
      exact ih happend hrest

/-! ### Reading a text to its end -/

/-- The import statements of a text that starts at byte `n`, unless a keyword that starts a line
starts none; the first `covered` characters belong to a statement already read. -/
def scan? : Nat → Nat → Bool → Text → Option (List (Found Text))
  | _, _, _, [] => some []
  | n, covered + 1, f, c :: t => scan? (n + c.utf8Size) covered (fresh f c) t
  | n, 0, f, c :: t =>
    if f && startsImport (c :: t) then
      match importStatement none (c :: t) with
      | none => none
      | some m => (scan? (n + c.utf8Size) (m.length - 1) (fresh f c) t).map fun fs =>
          ⟨⟨n, n + byteSize ((c :: t).take m.length)⟩, m.value⟩ :: fs
    else scan? (n + c.utf8Size) 0 (fresh f c) t

theorem scan?_covered (n : Nat) (f : Bool) (u t : Text) :
    scan? n u.length f (u ++ t) = scan? (n + byteSize u) 0 (freshAfter f u) t := by
  induction u generalizing n f with
  | nil => rfl
  | cons c cs ih =>
    rw [List.length_cons, List.cons_append, scan?, ih, byteSize_cons, Nat.add_assoc]
    rfl

/-- A keyword that starts a statement is the front of the statement. -/
theorem exists_of_startsImport {t : Text} {m : Match Text} (h : importStatement none t = some m)
    (hs : startsImport t = true) : ∃ (s : Statement) (behind : Text), t = s.text ++ behind ∧
      m = ⟨s.text.length, s.path⟩ := by
  obtain ⟨-, margin, s, behind, hmargin, rfl, rfl⟩ := exists_of_importStatement h
  cases margin with
  | nil => exact ⟨s, behind, rfl, rfl⟩
  | cons c cs =>
    obtain ⟨r, hr, -⟩ := startsImport_eq_true_iff.1 hs
    obtain rfl : c = 'i' := (List.cons.inj hr).1
    exact absurd (hmargin 'i' (List.mem_cons_self ..)) (by decide)

theorem scanned_of_scan? {n : Nat} {f : Bool} {t : Text} {fs : List (Found Text)}
    (h : scan? n 0 f t = some fs) : Scanned n f t fs := by
  induction hlen : t.length using Nat.strongRecOn generalizing n f t fs with
  | ind l ih =>
    subst hlen
    cases t with
    | nil =>
      obtain rfl : [] = fs := by simpa [scan?] using h
      exact .nil n f
    | cons c t =>
      rw [scan?] at h
      by_cases hk : (f && startsImport (c :: t)) = true
      · obtain ⟨rfl, hstart⟩ := Bool.and_eq_true_iff.1 hk
        rw [if_pos hk] at h
        cases hm : importStatement none (c :: t) with
        | none => simp [hm] at h
        | some m =>
          obtain ⟨s, behind, ht, rfl⟩ := exists_of_startsImport hm hstart
          obtain ⟨u, hu, -⟩ := s.exists_text
          have hcons : c :: t = 'i' :: (u ++ behind) := by rw [ht, hu]; rfl
          obtain ⟨rfl, rfl⟩ := List.cons.inj hcons
          have hlength : s.text.length - 1 = u.length := by rw [hu]; rfl
          have hfresh : freshAfter (fresh true 'i') u = false := by
            have hs := s.freshAfter_text true
            rw [hu] at hs
            exact hs
          have hsize : n + Char.utf8Size 'i' + byteSize u = n + byteSize s.text := by
            rw [hu, byteSize_cons, Nat.add_assoc]
          rw [hm] at h
          simp only [hlength, scan?_covered, hfresh, hsize, ht, List.take_left] at h
          obtain ⟨fs', hfs', rfl⟩ := Option.map_eq_some_iff.1 h
          rw [ht]
          refine .hit s (ih behind.length ?_ hfs' rfl)
          simp only [List.length_cons, List.length_append]
          omega
      · rw [if_neg hk] at h
        rw [Bool.not_eq_true] at hk
        exact .skip hk (ih t.length (Nat.lt_succ_self _) h rfl)

end Source

end FlatSol
