import FlatSol.Proofs.Text.Keep
import FlatSol.Text.Search

/-!
# Where matches stand

A match is found at a place of the text where the pattern, asked with the character before that
place and the text behind it, takes what the span of the match covers.
-/

namespace FlatSol

open Text

theorem Text.isPrefixOf?_eq_some_iff {s t r : Text} : s.isPrefixOf? t = some r ↔ t = s ++ r := by
  induction s generalizing t with
  | nil => simp [List.isPrefixOf?, eq_comm]
  | cons c cs ih =>
    cases t with
    | nil => simp [List.isPrefixOf?]
    | cons d ds =>
      rw [List.isPrefixOf?]
      by_cases h : c = d
      · simp [h, ih]
      · simp [h, Ne.symm h]

theorem Text.any_isPrefixOf?_eq_true_iff {s t : Text} {p : Text → Bool} :
    (s.isPrefixOf? t).any p = true ↔ ∃ r, t = s ++ r ∧ p r = true := by
  simp only [Option.any_eq_true, isPrefixOf?_eq_some_iff]

theorem List.mapM_eq_some_map {α β : Type} {f : α → Option β} {g : α → β} {xs : List α}
    (h : ∀ x ∈ xs, f x = some (g x)) : xs.mapM f = some (xs.map g) := by
  induction xs with
  | nil => rfl
  | cons x xs ih =>
    obtain ⟨hx, hxs⟩ := List.forall_mem_cons.1 h
    simp only [List.mapM_cons, hx, ih hxs, List.map_cons, Option.pure_def, Option.bind_eq_bind,
      Option.bind_some]

namespace Pattern

variable {α : Type} {p : Pattern α}

theorem exists_of_mem_findFrom {f : Found α} {k : Nat} {a b : Text}
    (h : f ∈ p.findFrom (byteSize a) k a.getLast? b) :
    ∃ x y m, b = x ++ y ∧ p (a ++ x).getLast? y = some m ∧
      f = ⟨⟨byteSize (a ++ x), byteSize (a ++ x) + byteSize (y.take m.length)⟩, m.value⟩ := by
  induction b generalizing a k with
  | nil => simp [findFrom] at h
  | cons c cs ih =>
    have later : ∀ k, f ∈ p.findFrom (byteSize a + c.utf8Size) k (some c) cs →
        ∃ x y m, c :: cs = x ++ y ∧ p (a ++ x).getLast? y = some m ∧
          f = ⟨⟨byteSize (a ++ x), byteSize (a ++ x) + byteSize (y.take m.length)⟩, m.value⟩ := by
      intro k hf
      have hsize : byteSize a + c.utf8Size = byteSize (a ++ [c]) := by simp
      have hlast : some c = (a ++ [c]).getLast? := by simp
      rw [hsize, hlast] at hf
      obtain ⟨x, y, m, rfl, hm, rfl⟩ := ih hf
      exact ⟨c :: x, y, m, rfl, by simpa using hm, by simp⟩
    cases k with
    | succ k => exact later k (by simpa [findFrom] using h)
    | zero =>
      rw [findFrom] at h
      split at h
      · next m hm =>
        rcases List.mem_cons.1 h with rfl | h
        · exact ⟨[], c :: cs, m, rfl, by simpa using hm, by simp⟩
        · exact later _ h
      · exact later _ h

/-- Every match was taken by the pattern at its place. -/
theorem exists_of_mem_findAll {f : Found α} {t : Text} (h : f ∈ p.findAll t) :
    ∃ a b m, t = a ++ b ∧ p a.getLast? b = some m ∧
      f = ⟨⟨byteSize a, byteSize a + byteSize (b.take m.length)⟩, m.value⟩ :=
  exists_of_mem_findFrom (a := []) h

theorem pairwise_start (t : Text) (offset covered : Nat) (before : Option Char) :
    (p.findFrom offset covered before t).Pairwise fun f g => f.span.start < g.span.start := by
  induction t generalizing offset covered before with
  | nil => exact .nil
  | cons c cs ih =>
    cases covered with
    | succ k => exact ih _ _ _
    | zero =>
      rw [findFrom]
      split
      · refine List.pairwise_cons.2 ⟨fun g hg => ?_, ih _ _ _⟩
        have hpos : 0 < c.utf8Size := Char.utf8Size_pos c
        have hle := offset_le_start p cs _ _ _ g hg
        simp only
        omega
      · exact ih _ _ _

/-! ### A search along a text -/

theorem findFrom_covered {off : Nat} {before : Option Char} (u t : Text) :
    p.findFrom off u.length before (u ++ t) =
      p.findFrom (off + byteSize u) 0 (u.getLast?.or before) t := by
  induction u generalizing off before with
  | nil => rfl
  | cons c cs ih =>
    rw [List.length_cons, List.cons_append, findFrom, ih, byteSize_cons, Nat.add_assoc]
    cases cs with
    | nil => rfl
    | cons d ds => simp [List.getLast?_cons]

theorem getLast?_append_cons (a u : Text) (c : Char) :
    (a ++ c :: u).getLast? = u.getLast?.or (some c) := by
  rw [List.getLast?_append, List.getLast?_cons]
  cases u.getLast? <;> rfl

/-- A match is found where the search comes to it, and the search goes on behind it. -/
theorem findFrom_append_of_eq_some {a u t : Text} {m : Match α}
    (h : p a.getLast? (u ++ t) = some m) (hm : m.length = u.length) (hu : u ≠ []) :
    p.findFrom (byteSize a) 0 a.getLast? (u ++ t) =
      ⟨⟨byteSize a, byteSize (a ++ u)⟩, m.value⟩ ::
        p.findFrom (byteSize (a ++ u)) 0 (a ++ u).getLast? t := by
  cases u with
  | nil => exact absurd rfl hu
  | cons c cs =>
    have htake : (c :: (cs ++ t)).take m.length = c :: cs := by simp [hm]
    have hlength : m.length - 1 = cs.length := by simp [hm]
    rw [List.cons_append] at h ⊢
    rw [findFrom, h]
    simp only [htake, hlength, findFrom_covered, getLast?_append_cons, byteSize_append,
      byteSize_cons, Nat.add_assoc]

/-- A search passes a part of the text in which the pattern takes nothing. -/
theorem findFrom_append_of_eq_none {a u t : Text}
    (h : ∀ x c y, u = x ++ c :: y → p (a ++ x).getLast? (c :: y ++ t) = none) :
    p.findFrom (byteSize a) 0 a.getLast? (u ++ t) =
      p.findFrom (byteSize (a ++ u)) 0 (a ++ u).getLast? t := by
  induction u generalizing a with
  | nil => rw [List.nil_append, List.append_nil]
  | cons c cs ih =>
    have hfirst : p a.getLast? (c :: (cs ++ t)) = none := by simpa using h [] c cs rfl
    have hrest := ih (a := a ++ [c]) fun x d y hxy => by
      rw [List.append_assoc]
      exact h (c :: x) d y (by rw [hxy]; rfl)
    have hlast : (a ++ [c]).getLast? = some c := by simp
    rw [hlast, byteSize_append, List.append_assoc] at hrest
    rw [List.cons_append, findFrom, hfirst]
    exact hrest

theorem findFrom_eq_nil {a b : Text} {k : Nat}
    (h : ∀ x y, b = x ++ y → p (a ++ x).getLast? y = none) :
    p.findFrom (byteSize a) k a.getLast? b = [] := by
  refine List.eq_nil_iff_forall_not_mem.2 fun f hf => ?_
  obtain ⟨x, y, m, hxy, hm, -⟩ := exists_of_mem_findFrom hf
  rw [h x y hxy] at hm
  cases hm

/-! ### No place is missed -/

theorem byteSize_lt_byteSize_take {u y : Text} {n : Nat} (hn : u.length < n) (hy : y ≠ []) :
    byteSize u < byteSize ((u ++ y).take n) := by
  obtain ⟨k, rfl⟩ : ∃ k, n = u.length + (k + 1) := ⟨n - u.length - 1, by omega⟩
  cases y with
  | nil => exact absurd rfl hy
  | cons c cs =>
    have hc : 0 < c.utf8Size := Char.utf8Size_pos c
    rw [List.take_length_add_append, List.take_succ_cons, byteSize_append, byteSize_cons]
    omega

/-- Where the pattern takes something, the search is inside a match or finds one. -/
theorem exists_covering_findFrom {x y : Text} {m : Match α} (off k : Nat) (before : Option Char)
    (h : p (x.getLast?.or before) y = some m) (hm : 0 < m.length) (hy : y ≠ []) :
    x.length < k ∨ ∃ f ∈ p.findFrom off k before (x ++ y),
      f.span.start ≤ off + byteSize x ∧ off + byteSize x < f.span.stop := by
  induction x generalizing off k before with
  | nil =>
    cases k with
    | succ k => exact .inl (Nat.succ_pos k)
    | zero =>
      cases y with
      | nil => exact absurd rfl hy
      | cons c cs =>
        have hfirst : p before (c :: cs) = some m := h
        rw [List.nil_append, findFrom, hfirst]
        refine .inr ⟨_, List.mem_cons_self .., Nat.le_refl _, ?_⟩
        have hlt := byteSize_lt_byteSize_take (u := []) hm hy
        exact Nat.add_lt_add_left hlt off
  | cons d ds ih =>
    have hlast : ds.getLast?.or (some d) = (d :: ds).getLast?.or before := by
      rw [← List.nil_append (d :: ds), getLast?_append_cons]
      cases ds.getLast? <;> rfl
    rw [← hlast] at h
    have hrest : ∀ k, ds.length < k ∨ ∃ f ∈ p.findFrom (off + d.utf8Size) k (some d) (ds ++ y),
        f.span.start ≤ off + byteSize (d :: ds) ∧ off + byteSize (d :: ds) < f.span.stop := by
      intro k
      rw [byteSize_cons, ← Nat.add_assoc]
      exact ih _ _ _ h
    rw [List.cons_append, List.length_cons]
    cases k with
    | succ k =>
      rw [findFrom]
      exact (hrest k).imp Nat.succ_lt_succ id
    | zero =>
      refine .inr ?_
      rw [findFrom]
      split
      · next m' _ =>
        rcases hrest (m'.length - 1) with hlt | ⟨f, hf, hcover⟩
        · refine ⟨_, List.mem_cons_self .., Nat.le_add_right _ _, ?_⟩
          have htake := byteSize_lt_byteSize_take (u := d :: ds) (n := m'.length) (y := y)
            (by rw [List.length_cons]; omega) hy
          exact Nat.add_lt_add_left htake off
        · exact ⟨f, List.mem_cons_of_mem _ hf, hcover⟩
      · exact (hrest 0).resolve_left (Nat.not_lt_zero _)

theorem exists_covering {x y : Text} {m : Match α} (h : p x.getLast? y = some m)
    (hm : 0 < m.length) (hy : y ≠ []) :
    ∃ f ∈ p.findAll (x ++ y), f.span.start ≤ byteSize x ∧ byteSize x < f.span.stop := by
  have hcover := exists_covering_findFrom 0 0 none (by rwa [Option.or_none]) hm hy
  have hfound := hcover.resolve_left (Nat.not_lt_zero _)
  simp only [Nat.zero_add] at hfound
  exact hfound

end Pattern

end FlatSol
