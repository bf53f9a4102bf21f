import FlatSol.Text.Blank
import FlatSol.Text.Cut
import Mathlib

/-!
# What a cut keeps

Cutting spans out of a text keeps exactly the characters that start in none of them, so that the
order of the spans and their overlaps do not matter.
-/

namespace FlatSol.Text

def squeeze (t : Text) : Text :=
  t.filter fun c => !isBlank c

/-- The characters of a text that starts at byte `n` whose offsets satisfy `p`. -/
def keep (p : Nat → Bool) : Nat → Text → Text
  | _, [] => []
  | n, c :: cs => if p n then c :: keep p (n + c.utf8Size) cs else keep p (n + c.utf8Size) cs

/-- Whether a byte offset lies in one of the spans. -/
def covers (ss : List Span) (n : Nat) : Bool :=
  ss.any fun s => decide (s.start ≤ n) && decide (n < s.stop)

theorem covers_eq_true_iff {ss : List Span} {n : Nat} :
    covers ss n = true ↔ ∃ s ∈ ss, s.start ≤ n ∧ n < s.stop := by
  simp [covers]

theorem covers_eq_false_iff {ss : List Span} {n : Nat} :
    covers ss n = false ↔ ∀ s ∈ ss, s.start ≤ n → s.stop ≤ n := by
  simp [covers]

theorem covers_append (ss rs : List Span) (n : Nat) :
    covers (ss ++ rs) n = (covers ss n || covers rs n) :=
  List.any_append

theorem squeeze_append (s t : Text) : squeeze (s ++ t) = squeeze s ++ squeeze t :=
  List.filter_append ..

theorem squeeze_of_blank {t : Text} (h : ∀ c ∈ t, isBlank c = true) : squeeze t = [] := by
  refine List.filter_eq_nil_iff.2 fun c hc => ?_
  simp [h c hc]

theorem squeeze_lineFeeds (n : Nat) : squeeze (List.replicate n '\n') = [] :=
  squeeze_of_blank fun c hc => by rw [List.eq_of_mem_replicate hc]; rfl

theorem keep_append (p : Nat → Bool) (n : Nat) (s t : Text) :
    keep p n (s ++ t) = keep p n s ++ keep p (n + byteSize s) t := by
  induction s generalizing n with
  | nil => rfl
  | cons c cs ih =>
    simp only [List.cons_append, keep, ih, byteSize_cons, Nat.add_assoc]
    split <;> rfl

theorem keep_eq_self {p : Nat → Bool} {n : Nat} {t : Text}
    (h : ∀ k, n ≤ k → k < n + byteSize t → p k = true) : keep p n t = t := by
  induction t generalizing n with
  | nil => rfl
  | cons c cs ih =>
    have hc : 0 < c.utf8Size := Char.utf8Size_pos c
    simp only [byteSize_cons] at h
    rw [keep, if_pos (h n (Nat.le_refl n) (by omega)), ih fun k hk hk' => h k (by omega) (by omega)]

theorem keep_eq_nil {p : Nat → Bool} {n : Nat} {t : Text}
    (h : ∀ k, n ≤ k → k < n + byteSize t → p k = false) : keep p n t = [] := by
  induction t generalizing n with
  | nil => rfl
  | cons c cs ih =>
    have hc : 0 < c.utf8Size := Char.utf8Size_pos c
    simp only [byteSize_cons] at h
    have hn : p n = false := h n (Nat.le_refl n) (by omega)
    simp only [keep, hn, Bool.false_eq_true, if_false]
    exact ih fun k hk hk' => h k (by omega) (by omega)

/-- A text whose offsets are alike is kept as a whole or not at all. -/
theorem keep_eq_ite {p : Nat → Bool} {n : Nat} {t : Text}
    (h : ∀ k, n ≤ k → k < n + byteSize t → p k = p n) :
    keep p n t = if p n then t else [] := by
  split
  · next hn => exact keep_eq_self fun k hk hk' => (h k hk hk').trans hn
  · next hn => exact keep_eq_nil fun k hk hk' => (h k hk hk').trans (Bool.eq_false_iff.2 hn)

theorem keep_congr {p q : Nat → Bool} {n : Nat} {t : Text}
    (h : ∀ k, n ≤ k → k < n + byteSize t → p k = q k) : keep p n t = keep q n t := by
  induction t generalizing n with
  | nil => rfl
  | cons c cs ih =>
    have hc : 0 < c.utf8Size := Char.utf8Size_pos c
    simp only [byteSize_cons] at h
    have hn : p n = q n := h n (Nat.le_refl n) (by omega)
    have hcs : keep p (n + c.utf8Size) cs = keep q (n + c.utf8Size) cs :=
      ih fun k hk hk' => h k (by omega) (by omega)
    simp only [keep, hn, hcs]

theorem mem_keep_iff {p : Nat → Bool} {n : Nat} {c : Char} {t : Text} :
    c ∈ keep p n t ↔ ∃ a b, t = a ++ c :: b ∧ p (n + byteSize a) = true := by
  constructor
  · intro h
    induction t generalizing n with
    | nil => simp [keep] at h
    | cons d ds ih =>
      have later : c ∈ keep p (n + d.utf8Size) ds →
          ∃ a b, d :: ds = a ++ c :: b ∧ p (n + byteSize a) = true := by
        intro hc
        obtain ⟨a, b, rfl, ha⟩ := ih hc
        exact ⟨d :: a, b, rfl, by rwa [byteSize_cons, ← Nat.add_assoc]⟩
      rw [keep] at h
      split at h
      · next hp =>
        rcases List.mem_cons.1 h with rfl | h
        · exact ⟨[], ds, rfl, hp⟩
        · exact later h
      · exact later h
  · rintro ⟨a, b, rfl, h⟩
    rw [keep_append, keep, if_pos h]
    simp

/-- Offsets that differ in blank characters only keep the same code. -/
theorem squeeze_keep_congr {p q : Nat → Bool} {n : Nat} {t : Text}
    (h : ∀ a c b, t = a ++ c :: b → p (n + byteSize a) ≠ q (n + byteSize a) → isBlank c = true) :
    squeeze (keep p n t) = squeeze (keep q n t) := by
  induction t generalizing n with
  | nil => rfl
  | cons c cs ih =>
    have hcs := ih (n := n + c.utf8Size) fun a d b hcs hne =>
      h (c :: a) d b (by rw [hcs]; rfl) (by rwa [byteSize_cons, ← Nat.add_assoc])
    have hc : p n ≠ q n → isBlank c = true := h [] c cs rfl
    have hone : squeeze (if p n then [c] else []) = squeeze (if q n then [c] else []) := by
      by_cases hpq : p n = q n
      · rw [hpq]
      · have hblank : squeeze [c] = [] := squeeze_of_blank (by simpa using hc hpq)
        split <;> split
        · rfl
        · exact hblank
        · exact hblank.symm
        · rfl
    have hsplit : ∀ r : Nat → Bool, keep r n (c :: cs) =
        (if r n then [c] else []) ++ keep r (n + c.utf8Size) cs := by
      intro r
      rw [keep]
      split <;> rfl
    rw [hsplit p, hsplit q, squeeze_append, squeeze_append, hone, hcs]

/-- A character that is kept stands in the text, with what is kept before and behind it. -/
theorem exists_of_keep_eq {p : Nat → Bool} {n : Nat} {t x y : Text} {c : Char}
    (h : keep p n t = x ++ c :: y) :
    ∃ a b, t = a ++ c :: b ∧ keep p n a = x ∧ p (n + byteSize a) = true ∧
      keep p (n + byteSize (a ++ [c])) b = y := by
  induction t generalizing n x with
  | nil => simp [keep] at h
  | cons d ds ih =>
    rw [keep] at h
    by_cases hp : p n = true
    · rw [if_pos hp] at h
      cases x with
      | nil =>
        obtain ⟨rfl, rfl⟩ := List.cons.inj h
        exact ⟨[], ds, rfl, rfl, hp, by simp⟩
      | cons e es =>
        obtain ⟨rfl, hes⟩ := List.cons.inj h
        obtain ⟨a, b, rfl, rfl, ha, rfl⟩ := ih hes
        refine ⟨d :: a, b, rfl, by rw [keep, if_pos hp], ?_, ?_⟩
        · rwa [byteSize_cons, ← Nat.add_assoc]
        · rw [List.cons_append, byteSize_cons, ← Nat.add_assoc]
    · rw [if_neg hp] at h
      obtain ⟨a, b, rfl, rfl, ha, rfl⟩ := ih h
      refine ⟨d :: a, b, rfl, by rw [keep, if_neg hp], ?_, ?_⟩
      · rwa [byteSize_cons, ← Nat.add_assoc]
      · rw [List.cons_append, byteSize_cons, ← Nat.add_assoc]

/-- If no cut begins behind a character of `u`, then `u` stands in the text as it is kept. -/
theorem exists_append_of_keep_eq {p : Nat → Bool} {n : Nat} {u r b : Text}
    (h : keep p n b = u ++ r) (hfirst : p n = true)
    (hseam : ∀ v d w z, u = v ++ d :: w → b = v ++ d :: z → z ≠ [] → p (n + byteSize v) = true →
      p (n + byteSize (v ++ [d])) = true) :
    ∃ r', b = u ++ r' ∧ keep p (n + byteSize u) r' = r ∧
      ∀ v d w, u = v ++ d :: w → p (n + byteSize v) = true := by
  induction u generalizing n b with
  | nil => exact ⟨b, rfl, h, by simp⟩
  | cons c cs ih =>
    cases b with
    | nil => simp [keep] at h
    | cons d ds =>
      rw [keep, if_pos hfirst, List.cons_append, List.cons.injEq] at h
      obtain ⟨rfl, hds⟩ := h
      have hrest : ∃ r', ds = cs ++ r' ∧ keep p (n + d.utf8Size + byteSize cs) r' = r ∧
          ∀ v f w, cs = v ++ f :: w → p (n + d.utf8Size + byteSize v) = true := by
        cases cs with
        | nil => exact ⟨ds, rfl, hds, by simp⟩
        | cons e es =>
          have hne : ds ≠ [] := by
            rintro rfl
            simp [keep] at hds
          have hnext := hseam [] d (e :: es) ds rfl rfl hne hfirst
          refine ih hds hnext fun v f w z hu hb hz hv => ?_
          have hplace := hseam (d :: v) f w z (by rw [hu]; rfl) (by rw [hb]; rfl) hz
          rw [List.cons_append, byteSize_cons, byteSize_cons, ← Nat.add_assoc, ← Nat.add_assoc]
            at hplace
          exact hplace hv
      obtain ⟨r', rfl, hr', hplaces⟩ := hrest
      refine ⟨r', rfl, by rwa [byteSize_cons, ← Nat.add_assoc], fun v f w hu => ?_⟩
      cases v with
      | nil => exact hfirst
      | cons e es =>
        obtain ⟨rfl, hes⟩ := List.cons.inj hu
        rw [byteSize_cons, ← Nat.add_assoc]
        exact hplaces es f w hes

/-! ### Boundaries -/

theorem exists_append_of_isBoundary {n : Nat} {t : Text} (h : isBoundary n t = true) :
    ∃ a b, t = a ++ b ∧ byteSize a = n := by
  fun_induction isBoundary n t with
  | case1 t => exact ⟨[], t, rfl, rfl⟩
  | case2 => simp at h
  | case3 n c cs ih =>
    simp only [Bool.and_eq_true, decide_eq_true_eq] at h
    obtain ⟨a, b, rfl, ha⟩ := ih h.2
    exact ⟨c :: a, b, rfl, by rw [byteSize_cons]; omega⟩

theorem isBoundary_iff {n : Nat} {t : Text} :
    isBoundary n t = true ↔ ∃ a b, t = a ++ b ∧ byteSize a = n := by
  refine ⟨exists_append_of_isBoundary, ?_⟩
  rintro ⟨a, b, rfl, rfl⟩
  exact isBoundary_byteSize_append a b

theorem eq_nil_of_byteSize_eq_zero {t : Text} (h : byteSize t = 0) : t = [] := by
  cases t with
  | nil => rfl
  | cons c cs =>
    have hc : 0 < c.utf8Size := Char.utf8Size_pos c
    rw [byteSize_cons] at h
    omega

/-- Of two prefixes of a text the one with fewer bytes is a prefix of the other. -/
theorem exists_append_of_byteSize_le {a b x y : Text} (h : a ++ b = x ++ y)
    (hs : byteSize a ≤ byteSize x) : ∃ z, x = a ++ z ∧ b = z ++ y := by
  rcases List.append_eq_append_iff.1 h with ⟨z, hx, hb⟩ | ⟨z, ha, hy⟩
  · exact ⟨z, hx, hb⟩
  · rw [ha, byteSize_append] at hs
    obtain rfl := eq_nil_of_byteSize_eq_zero (t := z) (by omega)
    exact ⟨[], by simpa using ha.symm, by simpa using hy.symm⟩

theorem append_inj_of_byteSize_eq {a b x y : Text} (h : a ++ b = x ++ y)
    (hs : byteSize a = byteSize x) : a = x ∧ b = y := by
  obtain ⟨z, rfl, hb⟩ := exists_append_of_byteSize_le h (Nat.le_of_eq hs)
  rw [byteSize_append] at hs
  obtain rfl := eq_nil_of_byteSize_eq_zero (t := z) (by omega)
  exact ⟨(List.append_nil a).symm, hb⟩

/-- Characters of a text that end at the same offset stand at the same place. -/
theorem cons_inj_of_byteSize_eq {a b x y : Text} {c d : Char} (h : a ++ c :: b = x ++ d :: y)
    (hs : byteSize (a ++ [c]) = byteSize (x ++ [d])) : a = x ∧ c = d ∧ b = y := by
  have happend : a ++ [c] ++ b = x ++ [d] ++ y := by simpa using h
  obtain ⟨hlast, hb⟩ := append_inj_of_byteSize_eq happend hs
  obtain ⟨ha, hc⟩ := List.append_inj' hlast rfl
  exact ⟨ha, (List.cons.inj hc).1, hb⟩

theorem takeBytes_byteSize_append (s t : Text) : takeBytes (byteSize s) (s ++ t) = s := by
  have h := takeBytes_append_dropBytes (byteSize s) (s ++ t)
  rw [dropBytes_byteSize_append] at h
  exact List.append_cancel_right h

theorem slice_append (a x b : Text) :
    slice ⟨byteSize a, byteSize a + byteSize x⟩ (a ++ x ++ b) = x := by
  have hx : byteSize a + byteSize x - byteSize a = byteSize x := by omega
  simp only [slice, List.append_assoc, dropBytes_byteSize_append, hx, takeBytes_byteSize_append]

/-- A span that can be sliced out of a text. -/
structure Fits (t : Text) (s : Span) : Prop where
  le : s.start ≤ s.stop
  start : isBoundary s.start t = true
  stop : isBoundary s.stop t = true

theorem Fits.exists_append {t : Text} {s : Span} (h : Fits t s) :
    ∃ a x b, t = a ++ x ++ b ∧ byteSize a = s.start ∧ byteSize a + byteSize x = s.stop := by
  obtain ⟨a, y, ht, ha⟩ := exists_append_of_isBoundary h.start
  obtain ⟨u, b, ht', hu⟩ := exists_append_of_isBoundary h.stop
  obtain ⟨x, rfl, -⟩ := exists_append_of_byteSize_le (ht.symm.trans ht') (by rw [ha, hu]; exact h.le)
  rw [byteSize_append] at hu
  exact ⟨a, x, b, ht', ha, hu⟩

theorem slice_eq_keep {t : Text} {s : Span} (h : Fits t s) :
    slice s t = keep (covers [s]) 0 t := by
  obtain ⟨a, x, b, rfl, ha, hx⟩ := h.exists_append
  have hs : s = ⟨byteSize a, byteSize a + byteSize x⟩ := by rw [hx, ha]
  rw [hs, slice_append, keep_append, keep_append, keep_eq_nil, keep_eq_self, keep_eq_nil]
  · simp
  all_goals
    intro k hk hk'
    simp only [byteSize_append, covers, List.any_cons, List.any_nil, Bool.or_false] at *
    simp
    omega

/-- Behind a span its offsets do not count any more. -/
theorem keep_uncovered_cons_of_stop_le {s : Span} {n : Nat} (h : s.stop ≤ n) (ss : List Span)
    (t : Text) :
    keep (fun k => !covers (s :: ss) k) n t = keep (fun k => !covers ss k) n t := by
  refine keep_congr fun k hk _ => ?_
  have hks : ¬k < s.stop := by omega
  simp [covers, hks]

theorem keep_uncovered_cons_of_inside {s : Span} {n : Nat} {t : Text} (h : s.start ≤ n)
    (ht : n + byteSize t ≤ s.stop) (ss : List Span) :
    keep (fun k => !covers (s :: ss) k) n t = [] := by
  refine keep_eq_nil fun k hk hk' => ?_
  have hks : s.start ≤ k ∧ k < s.stop := by omega
  simp [covers, hks]

/-- In front of the first span everything is kept. -/
theorem keep_uncovered_of_le_start {ss : List Span} {n : Nat} {t : Text}
    (h : ∀ s ∈ ss, n + byteSize t ≤ s.start) : keep (fun k => !covers ss k) n t = t := by
  refine keep_eq_self fun k hk hk' => ?_
  simp only [Bool.not_eq_true', covers_eq_false_iff]
  intro s hs hsk
  have hle := h s hs
  omega

/-- What the gaps between ordered spans leave of a text `a ++ b`, from the end of `a` on. -/
theorem flatMap_gapsFrom {ss : List Span} {a b : Text} (hf : ∀ s ∈ ss, Fits (a ++ b) s)
    (hs : ss.Pairwise fun s r => s.start ≤ r.start) :
    ((gapsFrom (byteSize (a ++ b)) (byteSize a) ss).flatMap fun g => slice g (a ++ b)) =
      keep (fun n => !covers ss n) (byteSize a) b := by
  induction ss generalizing a b with
  | nil =>
    have hmin : min (byteSize a) (byteSize (a ++ b)) = byteSize a := by
      rw [byteSize_append]
      omega
    have hslice := slice_append a b []
    rw [List.append_nil, ← byteSize_append] at hslice
    simp only [gapsFrom, hmin, List.flatMap_cons, List.flatMap_nil, List.append_nil, hslice]
    exact (keep_eq_self fun k _ _ => rfl).symm
  | cons s ss ih =>
    obtain ⟨hfs, hfss⟩ := List.forall_mem_cons.1 hf
    obtain ⟨hfirst, hrest⟩ := List.pairwise_cons.1 hs
    obtain ⟨u, x, v, ht, hu, hx⟩ := hfs.exists_append
    by_cases hlt : byteSize a < s.start
    · obtain ⟨y, rfl, rfl⟩ := exists_append_of_byteSize_le (b := b) (y := x ++ v) (by
        rw [ht, List.append_assoc]) (by omega)
      rw [byteSize_append] at hu hx
      have hmax : max (byteSize a) s.stop = byteSize (a ++ y ++ x) := by
        simp only [byteSize_append]
        omega
      have htext : a ++ (y ++ (x ++ v)) = a ++ y ++ x ++ v := by simp
      have hgap : slice ⟨byteSize a, s.start⟩ (a ++ (y ++ (x ++ v))) = y := by
        rw [← hu, ← List.append_assoc a, slice_append]
      have hbefore : keep (fun n => !covers (s :: ss) n) (byteSize a) y = y := by
        refine keep_uncovered_of_le_start (List.forall_mem_cons.2 ⟨by omega, fun r hr => ?_⟩)
        have hle := hfirst r hr
        omega
      rw [htext] at hfss
      rw [gapsFrom, if_pos hlt, hmax, List.flatMap_cons, hgap, htext, ih hfss hrest, keep_append,
        hbefore, keep_append, keep_uncovered_cons_of_inside (by omega) (by omega),
        List.nil_append, keep_uncovered_cons_of_stop_le (by omega)]
      simp only [byteSize_append]
    · by_cases hstop : s.stop ≤ byteSize a
      · have hmax : max (byteSize a) s.stop = byteSize a := by omega
        rw [gapsFrom, if_neg hlt, hmax, ih hfss hrest, keep_uncovered_cons_of_stop_le hstop]
      · -- the span began before the cursor and ends behind it
        obtain ⟨y, hy, rfl⟩ := exists_append_of_byteSize_le (a := a) (b := b) (x := u ++ x) (y := v)
          (by rw [ht]) (by rw [byteSize_append]; omega)
        have hsize : byteSize a + byteSize y = s.stop := by
          rw [← byteSize_append, ← hy, byteSize_append]
          omega
        have hmax : max (byteSize a) s.stop = byteSize (a ++ y) := by
          rw [byteSize_append]
          omega
        rw [← List.append_assoc] at hfss
        rw [gapsFrom, if_neg hlt, hmax, ← List.append_assoc, ih hfss hrest, keep_append,
          keep_uncovered_cons_of_inside (by omega) (by omega), List.nil_append, byteSize_append,
          keep_uncovered_cons_of_stop_le (by omega)]

theorem covers_byStart (ss : List Span) (n : Nat) : covers (byStart ss) n = covers ss n := by
  rw [Bool.eq_iff_iff, covers_eq_true_iff, covers_eq_true_iff]
  simp only [mem_byStart]

theorem pairwise_byStart (ss : List Span) :
    (byStart ss).Pairwise fun s r => s.start ≤ r.start := by
  have htrans : ∀ a b c : Span, decide (a.start ≤ b.start) → decide (b.start ≤ c.start) →
      decide (a.start ≤ c.start) := by
    intro a b c hab hbc
    simp only [decide_eq_true_eq] at *
    omega
  have htotal : ∀ a b : Span, decide (a.start ≤ b.start) || decide (b.start ≤ a.start) := by
    intro a b
    simp only [Bool.or_eq_true, decide_eq_true_eq]
    omega
  exact (List.pairwise_mergeSort htrans htotal ss).imp fun hab => by simpa using hab

/-- Cutting keeps the characters that start in none of the spans. -/
theorem cut_eq_keep {ss : List Span} {t : Text} (h : ∀ s ∈ ss, Fits t s) :
    cut ss t = keep (fun n => !covers ss n) 0 t := by
  have hfits : ∀ s ∈ byStart ss, Fits ([] ++ t) s := fun s hs => h s (mem_byStart.1 hs)
  have hg := flatMap_gapsFrom hfits (pairwise_byStart ss)
  simp only [covers_byStart] at hg
  exact hg

/-! ### Offsets inside a character -/

/-- Whether `p` tells no two offsets of one character apart, in a text that starts at byte `n`. -/
def Steady (p : Nat → Bool) : Nat → Text → Prop
  | _, [] => True
  | n, c :: cs =>
    (∀ k, n ≤ k → k < n + c.utf8Size → p k = p n) ∧ Steady p (n + c.utf8Size) cs

theorem not_inside_of_isBoundary {a b : Text} {c : Char} {n : Nat}
    (h : isBoundary n (a ++ c :: b) = true) : n ≤ byteSize a ∨ byteSize a + c.utf8Size ≤ n := by
  obtain ⟨x, y, ht, hx⟩ := isBoundary_iff.1 h
  by_cases hle : byteSize x ≤ byteSize a
  · exact .inl (by omega)
  · obtain ⟨z, rfl, hz⟩ := exists_append_of_byteSize_le ht (by omega)
    cases z with
    | nil => simp at hle
    | cons d ds =>
      obtain ⟨rfl, -⟩ := List.cons.inj hz
      rw [byteSize_append, byteSize_cons] at hx
      exact .inr (by omega)

theorem steady_of_fits {ss : List Span} {a b : Text} (h : ∀ s ∈ ss, Fits (a ++ b) s) :
    Steady (fun n => !covers ss n) (byteSize a) b := by
  induction b generalizing a with
  | nil => trivial
  | cons c cs ih =>
    have hsize : byteSize (a ++ [c]) = byteSize a + c.utf8Size := by simp
    have hrest := ih (a := a ++ [c]) fun s hs => by simpa using h s hs
    rw [hsize] at hrest
    refine ⟨fun k hk hk' => ?_, hrest⟩
    have hcovers : covers ss k = covers ss (byteSize a) := by
      rw [Bool.eq_iff_iff, covers_eq_true_iff, covers_eq_true_iff]
      refine exists_congr fun s => and_congr_right fun hs => ?_
      have hstart := not_inside_of_isBoundary (h s hs).start
      have hstop := not_inside_of_isBoundary (h s hs).stop
      omega
    simp only [hcovers]

end FlatSol.Text
