import FlatSol.Proofs.Source.PragmaLine
import FlatSol.Proofs.Text.Block

/-!
# Line ends

Texts that differ only in the spaces and carriage returns in front of their line feeds. A text whose
line feeds are written as a carriage return and a line feed is one of them: every offset moves by the
number of line feeds before it, cuts at moved offsets leave the moved text, and its block is the same.
-/

namespace FlatSol

namespace Text

/-- The text with a carriage return in front of every line feed. -/
def crlf (t : Text) : Text :=
  t.flatMap fun c => if c = '\n' then ['\r', '\n'] else [c]

@[simp] theorem crlf_nil : crlf [] = [] := rfl

@[simp] theorem crlf_lineFeed (t : Text) : crlf ('\n' :: t) = '\r' :: '\n' :: crlf t := rfl

theorem crlf_cons {c : Char} (h : c ≠ '\n') (t : Text) : crlf (c :: t) = c :: crlf t := by
  simp [crlf, h]

@[simp] theorem crlf_append (s t : Text) : crlf (s ++ t) = crlf s ++ crlf t :=
  List.flatMap_append

/-! ### Texts with the same lines -/

/-- What masking may leave of a carriage return. -/
def isReturn (c : Char) : Bool :=
  c == ' ' || c == '\r'

theorem isBlank_of_isReturn {c : Char} (h : isReturn c = true) : isBlank c = true := by
  have hc : c = ' ' ∨ c = '\r' := by simpa [isReturn] using h
  rcases hc with rfl | rfl <;> rfl

theorem isReturn_of_not_blank {c : Char} (h : isBlank c = false) : isReturn c = false := by
  rw [Bool.eq_false_iff]
  intro hc
  rw [isBlank_of_isReturn hc] at h
  exact Bool.noConfusion h

theorem ne_lineFeed_of_not_blank {c : Char} (h : isBlank c = false) : c ≠ '\n' := by
  rintro rfl
  exact absurd h (by decide)

/-- Whether a text consists of spaces and carriage returns. -/
def Returns (u : Text) : Prop :=
  ∀ c ∈ u, isReturn c = true

theorem Returns.blank {u : Text} (h : Returns u) : ∀ c ∈ u, isBlank c = true :=
  fun c hc => isBlank_of_isReturn (h c hc)

theorem Returns.lineFeed_notMem {u : Text} (h : Returns u) : '\n' ∉ u :=
  fun hc => absurd (h '\n' hc) (by decide)

theorem trim_append_of_blank {s u : Text} (hu : ∀ c ∈ u, isBlank c = true) :
    trim (s ++ u) = trim s := by
  rw [trim, trim, trimStart, trimStart, List.dropWhile_append]
  split
  · next hs =>
    rw [List.isEmpty_iff.1 hs, List.dropWhile_eq_nil_iff.2 hu]
  · exact trimEnd_append_of_blank hu

theorem forall_getLast?_of_append {q : Char → Prop} (s : Text) {t : Text}
    (h : ∀ c ∈ (s ++ t).getLast?, q c) : ∀ c ∈ t.getLast?, q c := by
  cases t with
  | nil => simp
  | cons c cs => simpa using h

/-- Texts that differ in what stands in front of their line feeds, as `P` allows it. -/
inductive SameLines (P : Text → Text → Prop) : Text → Text → Prop
  | nil : SameLines P [] []
  | cons {c : Char} {x y : Text} : c ≠ '\n' → SameLines P x y → SameLines P (c :: x) (c :: y)
  | line {u v x y : Text} : P u v → Returns u → Returns v → SameLines P x y →
      SameLines P (u ++ '\n' :: x) (v ++ '\n' :: y)

namespace SameLines

variable {P : Text → Text → Prop} {x y x' y' : Text}

theorem symm (h : SameLines P x y) : SameLines (flip P) y x := by
  induction h with
  | nil => exact .nil
  | cons hc _ ih => exact .cons hc ih
  | line hp hu hv _ ih => exact .line hp hv hu ih

theorem append (h : SameLines P x y) (h' : SameLines P x' y') :
    SameLines P (x ++ x') (y ++ y') := by
  induction h with
  | nil => exact h'
  | cons hc _ ih => exact .cons hc ih
  | line hp hu hv _ ih =>
    rw [List.append_assoc, List.append_assoc]
    exact .line hp hu hv ih

theorem refl_of_notMem (P : Text → Text → Prop) {x : Text} (h : '\n' ∉ x) : SameLines P x x := by
  induction x with
  | nil => exact .nil
  | cons c cs ih =>
    obtain ⟨hc, hcs⟩ : '\n' ≠ c ∧ '\n' ∉ cs := by simpa using h
    exact .cons (Ne.symm hc) (ih hcs)

theorem eq_of_notMem (h : SameLines P x y) (hx : '\n' ∉ x) : y = x := by
  induction h with
  | nil => rfl
  | cons _ _ ih => rw [ih fun hmem => hx (List.mem_cons_of_mem _ hmem)]
  | line => simp at hx

theorem eq_nil_iff (h : SameLines P x y) : x = [] ↔ y = [] := by
  cases h <;> simp

theorem mem_or (h : SameLines P x y) {c : Char} (hc : c ∈ y) : c ∈ x ∨ isReturn c = true := by
  induction h with
  | nil => exact .inl hc
  | cons _ _ ih =>
    rcases List.mem_cons.1 hc with rfl | hc
    · exact .inl (List.mem_cons_self ..)
    · exact (ih hc).imp_left (List.mem_cons_of_mem _)
  | @line u v x y _ _ hv _ ih =>
    rcases List.mem_append.1 hc with hc | hc
    · exact .inr (hv c hc)
    · rcases List.mem_cons.1 hc with rfl | hc
      · exact .inl (by simp)
      · exact (ih hc).imp_left fun hmem => by simp [hmem]

/-- Such texts begin with the same character, or both with white space. -/
theorem head?_eq_or (h : SameLines P x y) : x.head? = y.head? ∨
    (∃ c ∈ x.head?, isBlank c = true) ∧ ∃ c ∈ y.head?, isBlank c = true := by
  have hline : ∀ {w : Text}, Returns w → ∀ z, ∃ c ∈ (w ++ '\n' :: z).head?, isBlank c = true := by
    intro w hw z
    cases w with
    | nil => exact ⟨'\n', rfl, rfl⟩
    | cons c cs => exact ⟨c, rfl, isBlank_of_isReturn (hw c (List.mem_cons_self ..))⟩
  cases h with
  | nil => exact .inl rfl
  | cons => exact .inl rfl
  | line _ hu hv _ => exact .inr ⟨hline hu _, hline hv _⟩

theorem words_eq (h : SameLines P x y) : words x = words y := by
  induction h with
  | nil => rfl
  | line _ hu hv _ ih =>
    rw [words_append_of_blank hu.blank, words_append_of_blank hv.blank, words_cons_of_blank rfl,
      words_cons_of_blank rfl, ih]
  | @cons c x y hc h ih =>
    cases hb : isBlank c with
    | true => rw [words_cons_of_blank hb, words_cons_of_blank hb, ih]
    | false =>
      rcases h.head?_eq_or with hhead | ⟨⟨d, hd, hdb⟩, e, he, heb⟩
      · cases x with
        | nil =>
          rw [h.eq_nil_iff.1 rfl]
        | cons d ds =>
          cases y with
          | nil => simp at hhead
          | cons e es =>
            obtain rfl : d = e := by simpa using hhead
            rw [words_cons_cons, words_cons_cons, ih]
      · have hword : ∀ z : Text, (∃ d ∈ z.head?, isBlank d = true) →
            words (c :: z) = [c] :: words z := by
          rintro z ⟨d, hd, hdb⟩
          refine words_append (u := [c]) (by simpa using hb) (List.cons_ne_nil c []) ?_
          intro d' hd'
          obtain rfl : d = d' := Option.some.inj (hd.symm.trans hd')
          exact hdb
        rw [hword x ⟨d, hd, hdb⟩, hword y ⟨e, he, heb⟩, ih]

theorem onOneLine_eq (h : SameLines P x y) : onOneLine x = onOneLine y := by
  rw [onOneLine, onOneLine, h.words_eq]

/-- Such texts fall apart alike, unless the first one does in front of a line feed. -/
theorem exists_append {a b z : Text} (h : SameLines P (a ++ b) z)
    (hcut : (∀ c ∈ a.getLast?, isReturn c = false) ∨ ∀ c ∈ b.head?, isReturn c = false ∧ c ≠ '\n') :
    ∃ a' b', z = a' ++ b' ∧ SameLines P a a' ∧ SameLines P b b' := by
  generalize hx : a ++ b = x at h
  induction h generalizing a with
  | nil =>
    obtain ⟨rfl, rfl⟩ := List.append_eq_nil_iff.1 hx
    exact ⟨[], [], rfl, .nil, .nil⟩
  | @cons c x y hc h ih =>
    cases a with
    | nil => exact ⟨[], c :: y, rfl, .nil, by rw [List.nil_append] at hx; exact hx ▸ .cons hc h⟩
    | cons d ds =>
      obtain ⟨rfl, hrest⟩ := List.cons.inj hx
      obtain ⟨a', b', rfl, ha, hb⟩ := ih (hcut.imp_left (forall_getLast?_of_append [d])) hrest
      exact ⟨d :: a', b', rfl, .cons hc ha, hb⟩
  | @line u v x y hp hu hv h ih =>
    -- a cut in front of the line feed leaves nothing before it
    have hfront : ∀ w, u = a ++ w → b = w ++ '\n' :: x → a = [] := by
      intro w hw hb
      by_contra hne
      rcases hcut with hlast | hhead
      · have hreturn := hu _ (by rw [hw]; exact List.mem_append_left _ (List.getLast_mem hne))
        rw [hlast _ (List.getLast?_eq_some_getLast hne)] at hreturn
        exact Bool.noConfusion hreturn
      · cases w with
        | nil => exact (hhead '\n' (by rw [hb]; rfl)).2 rfl
        | cons e es =>
          have hreturn := hu e (by rw [hw]; simp)
          rw [(hhead e (by rw [hb]; rfl)).1] at hreturn
          exact Bool.noConfusion hreturn
    have hnil : a = [] → ∃ a' b', v ++ '\n' :: y = a' ++ b' ∧ SameLines P a a' ∧ SameLines P b b' := by
      rintro rfl
      rw [List.nil_append] at hx
      exact ⟨[], v ++ '\n' :: y, rfl, .nil, hx ▸ .line hp hu hv h⟩
    rcases List.append_eq_append_iff.1 hx with ⟨w, hw, hb⟩ | ⟨w, ha, hw⟩
    · exact hnil (hfront w hw hb)
    · cases w with
      | nil => exact hnil (hfront [] (by simpa using ha.symm) (by simpa using hw.symm))
      | cons d ds =>
        obtain ⟨rfl, rfl⟩ := List.cons.inj hw
        subst ha
        -- the cut stands behind the line feed
        rw [List.append_cons] at hcut
        obtain ⟨a', b', rfl, ha, hb⟩ := ih (hcut.imp_left (forall_getLast?_of_append _)) rfl
        exact ⟨v ++ '\n' :: a', b', by simp, .line hp hu hv ha, hb⟩

theorem exists_append_cons {a b z : Text} {c : Char} (h : SameLines P (a ++ c :: b) z)
    (hc : isReturn c = false) (hne : c ≠ '\n') :
    ∃ a' b', z = a' ++ c :: b' ∧ SameLines P a a' ∧ SameLines P b b' := by
  obtain ⟨a', w, rfl, ha, hw⟩ := h.exists_append (.inr fun d hd => by
    obtain rfl : c = d := by simpa using hd
    exact ⟨hc, hne⟩)
  have hsingle : c :: b = [c] ++ b := rfl
  rw [hsingle] at hw
  obtain ⟨u, b', rfl, hu, hb⟩ := hw.exists_append (.inl fun d hd => by
    obtain rfl : c = d := by simpa using hd
    exact hc)
  rw [hu.eq_of_notMem (by simpa using Ne.symm hne)]
  exact ⟨a', b', rfl, ha, hb⟩

/-- A front without line feeds is the same in both texts, if it does not end in front of one. -/
theorem exists_of_notMem {a b z : Text} (h : SameLines P (a ++ b) z) (ha : '\n' ∉ a)
    (hlast : ∀ c ∈ a.getLast?, isReturn c = false) : ∃ w, z = a ++ w ∧ SameLines P b w := by
  obtain ⟨u, w, rfl, hu, hw⟩ := h.exists_append (.inl hlast)
  rw [hu.eq_of_notMem ha]
  exact ⟨w, rfl, hw⟩

/-- The first lines of such texts differ in their ends. -/
theorem exists_line (h : SameLines P x y) : ('\n' ∉ x ∧ y = x) ∨
    ∃ l u v z w, x = l ++ u ++ '\n' :: z ∧ y = l ++ v ++ '\n' :: w ∧ '\n' ∉ l ∧ P u v ∧
      Returns u ∧ Returns v ∧ SameLines P z w := by
  induction h with
  | nil => exact .inl ⟨by simp, rfl⟩
  | @line u v x y hp hu hv h _ =>
    exact .inr ⟨[], u, v, x, y, rfl, rfl, by simp, hp, hu, hv, h⟩
  | @cons c x y hc h ih =>
    rcases ih with ⟨hx, rfl⟩ | ⟨l, u, v, z, w, rfl, rfl, hl, hp, hu, hv, hzw⟩
    · exact .inl ⟨by simp [Ne.symm hc, hx], rfl⟩
    · exact .inr ⟨c :: l, u, v, z, w, rfl, rfl, by simp [Ne.symm hc, hl], hp, hu, hv, hzw⟩

end SameLines

/-! ### Texts with returns added -/

/-- Nothing, in front of a line feed, and one space or carriage return instead. -/
def Added (u v : Text) : Prop :=
  u = [] ∧ ∃ e, v = [e]

theorem sameLines_crlf (t : Text) : SameLines Added t (crlf t) := by
  induction t with
  | nil => exact .nil
  | cons c cs ih =>
    by_cases hc : c = '\n'
    · subst hc
      exact .line (u := []) (v := ['\r']) ⟨rfl, '\r', rfl⟩ (by simp [Returns])
        (by simp [Returns, isReturn]) ih
    · rw [crlf_cons hc]
      exact .cons hc ih

theorem byteSize_of_isReturn {c : Char} (h : isReturn c = true) : c.utf8Size = 1 := by
  have hc : c = ' ' ∨ c = '\r' := by simpa [isReturn] using h
  rcases hc with rfl | rfl <;> rfl

namespace SameLines

variable {x y : Text}

theorem byteSize_eq (h : SameLines Added x y) : byteSize y = byteSize x + x.count '\n' := by
  induction h with
  | nil => rfl
  | cons hc _ ih =>
    rw [byteSize_cons, byteSize_cons, List.count_cons_of_ne hc, ih, Nat.add_assoc]
  | line hp _ hv _ ih =>
    obtain ⟨rfl, e, rfl⟩ := hp
    have he := byteSize_of_isReturn (hv e (List.mem_singleton_self e))
    have hfeed : Char.utf8Size '\n' = 1 := rfl
    simp only [List.nil_append, List.singleton_append, byteSize_cons, List.count_cons_self, ih, he,
      hfeed]
    omega

/-- A text and one with returns added are equal only if there is no line feed. -/
theorem eq_iff_notMem (h : SameLines Added x y) : y = x ↔ '\n' ∉ x := by
  refine ⟨fun heq hmem => ?_, h.eq_of_notMem⟩
  have hsize := h.byteSize_eq
  have hpos : 0 < x.count '\n' := List.count_pos_iff.2 hmem
  rw [heq] at hsize
  omega

theorem of_cons {c d : Char} (hc : c ≠ '\n') (h : SameLines Added (c :: x) (d :: y)) :
    SameLines Added x y := by
  generalize hx : c :: x = a at h
  generalize hy : d :: y = b at h
  cases h with
  | nil => cases hx
  | cons _ h =>
    obtain ⟨-, rfl⟩ := List.cons.inj hx
    obtain ⟨-, rfl⟩ := List.cons.inj hy
    exact h
  | line hp =>
    obtain ⟨rfl, -⟩ := hp
    exact absurd (List.cons.inj hx).1 hc

theorem exists_of_lineFeed (h : SameLines Added ('\n' :: x) y) :
    ∃ e z, y = e :: '\n' :: z ∧ SameLines Added x z := by
  generalize hx : '\n' :: x = a at h
  cases h with
  | nil => cases hx
  | cons hc _ => exact absurd (List.cons.inj hx).1.symm hc
  | @line u v x' y hp _ _ h =>
    obtain ⟨rfl, e, rfl⟩ := hp
    obtain ⟨-, rfl⟩ := List.cons.inj hx
    exact ⟨e, y, rfl, h⟩

end SameLines

/-! ### Offsets -/

/-- Where an offset of the text stands in the text with returns added. -/
def moved (t : Text) (n : Nat) : Nat :=
  n + (takeBytes n t).count '\n'

theorem moved_byteSize (a b : Text) : moved (a ++ b) (byteSize a) = byteSize a + a.count '\n' := by
  rw [moved, takeBytes_byteSize_append]

theorem count_takeBytes_le (t : Text) {n m : Nat} (h : n ≤ m) :
    (takeBytes n t).count '\n' ≤ (takeBytes m t).count '\n' := by
  induction t generalizing n m with
  | nil => cases n <;> cases m <;> rfl
  | cons c cs ih =>
    cases n with
    | zero => simp
    | succ n =>
      obtain ⟨m, rfl⟩ : ∃ k, m = k + 1 := ⟨m - 1, by omega⟩
      have hrest := ih (n := n + 1 - c.utf8Size) (m := m + 1 - c.utf8Size) (by omega)
      rw [takeBytes, takeBytes, List.count_cons, List.count_cons]
      omega

theorem moved_lt_moved_iff {t : Text} {n m : Nat} : moved t n < moved t m ↔ n < m := by
  constructor
  · intro h
    by_contra hle
    have hcount := count_takeBytes_le t (Nat.le_of_not_lt hle)
    unfold moved at h
    omega
  · intro h
    have hcount := count_takeBytes_le t (Nat.le_of_lt h)
    unfold moved
    omega

theorem moved_le_moved_iff {t : Text} {n m : Nat} : moved t n ≤ moved t m ↔ n ≤ m := by
  rw [← Nat.not_lt, ← Nat.not_lt, moved_lt_moved_iff]

/-- The offsets of a span in the text with returns added. -/
def movedSpan (t : Text) (s : Span) : Span :=
  ⟨moved t s.start, moved t s.stop⟩

theorem covers_movedSpan (ss : List Span) (t : Text) (n : Nat) :
    covers (ss.map (movedSpan t)) (moved t n) = covers ss n := by
  rw [Bool.eq_iff_iff, covers_eq_true_iff, covers_eq_true_iff]
  simp only [List.mem_map, exists_exists_and_eq_and, movedSpan, moved_le_moved_iff,
    moved_lt_moved_iff]

/-- A cut takes the return that was added with its line feed. -/
theorem covers_movedSpan_succ (ss : List Span) (a b : Text) :
    covers (ss.map (movedSpan (a ++ '\n' :: b))) (moved (a ++ '\n' :: b) (byteSize a) + 1) =
      covers ss (byteSize a) := by
  have hfeed : Char.utf8Size '\n' = 1 := rfl
  have hnext : moved (a ++ '\n' :: b) (byteSize a + 1) =
      moved (a ++ '\n' :: b) (byteSize a) + 2 := by
    have hsize : byteSize a + 1 = byteSize (a ++ ['\n']) := by simp [hfeed]
    have happend : a ++ '\n' :: b = a ++ ['\n'] ++ b := by simp
    rw [moved_byteSize, hsize, happend, moved_byteSize]
    simp only [byteSize_append, byteSize_cons, byteSize_nil, List.count_append, hfeed,
      List.count_singleton_self]
    omega
  have hle : ∀ k, moved (a ++ '\n' :: b) k ≤ moved (a ++ '\n' :: b) (byteSize a) + 1 ↔
      k ≤ byteSize a := by
    intro k
    rw [← Nat.lt_succ_iff (n := byteSize a), ← moved_lt_moved_iff (t := a ++ '\n' :: b), hnext]
    omega
  have hlt : ∀ k, moved (a ++ '\n' :: b) (byteSize a) + 1 < moved (a ++ '\n' :: b) k ↔
      byteSize a < k := by
    intro k
    rw [← Nat.not_le, hle, Nat.not_le]
  rw [Bool.eq_iff_iff, covers_eq_true_iff, covers_eq_true_iff]
  simp only [List.mem_map, exists_exists_and_eq_and, movedSpan, hle, hlt]

/-- What is kept of a text by its offsets is kept of the text with returns added. -/
theorem keep_crlf {p q : Nat → Bool} {a t : Text}
    (hp : ∀ u c v, t = u ++ c :: v → q (moved (a ++ t) (byteSize (a ++ u))) = p (byteSize (a ++ u)))
    (hq : ∀ u v, t = u ++ '\n' :: v →
      q (moved (a ++ t) (byteSize (a ++ u)) + 1) = p (byteSize (a ++ u))) :
    keep q (moved (a ++ t) (byteSize a)) (crlf t) = crlf (keep p (byteSize a) t) := by
  induction t generalizing a with
  | nil => rfl
  | cons c cs ih =>
    have happend : a ++ c :: cs = (a ++ [c]) ++ cs := by simp
    have hrest : keep q (moved (a ++ c :: cs) (byteSize (a ++ [c]))) (crlf cs) =
        crlf (keep p (byteSize (a ++ [c])) cs) := by
      have h := ih (a := a ++ [c])
        (fun u d v huv => by
          have h := hp (c :: u) d v (by rw [huv]; rfl)
          simpa using h)
        (fun u v huv => by
          have h := hq (c :: u) v (by rw [huv]; rfl)
          simpa using h)
      rw [happend]
      exact h
    have hfirst := hp [] c cs rfl
    rw [List.append_nil] at hfirst
    rw [happend, moved_byteSize] at hrest
    rw [moved_byteSize] at hfirst ⊢
    have hsize : byteSize (a ++ [c]) = byteSize a + c.utf8Size := by simp
    by_cases hc : c = '\n'
    · subst hc
      have hsecond := hq [] cs rfl
      rw [List.append_nil, moved_byteSize] at hsecond
      have hreturn : Char.utf8Size '\r' = 1 := rfl
      have hfeed : Char.utf8Size '\n' = 1 := rfl
      have hend : byteSize (a ++ ['\n']) + (a ++ ['\n']).count '\n' =
          byteSize a + a.count '\n' + 1 + 1 := by
        rw [hsize, hfeed, List.count_append, List.count_singleton_self]
        omega
      rw [hend, hsize] at hrest
      rw [crlf_lineFeed, keep, keep, keep, hreturn, hfeed, hfirst, hsecond, hrest]
      split <;> rfl
    · have hend : byteSize (a ++ [c]) + (a ++ [c]).count '\n' =
          byteSize a + a.count '\n' + c.utf8Size := by
        rw [hsize, List.count_append, List.count_singleton, if_neg (by simpa using hc)]
        omega
      rw [hend, hsize] at hrest
      rw [crlf_cons hc, keep, keep, hfirst, hrest]
      split
      · rw [crlf_cons hc]
      · rfl

theorem byteSize_crlf (t : Text) : byteSize (crlf t) = byteSize t + t.count '\n' :=
  (sameLines_crlf t).byteSize_eq

theorem moved_crlf (a b : Text) : moved (a ++ b) (byteSize a) = byteSize (crlf a) := by
  rw [moved_byteSize, byteSize_crlf]

theorem isBoundary_moved {t : Text} {n : Nat} (h : isBoundary n t = true) :
    isBoundary (moved t n) (crlf t) = true := by
  obtain ⟨a, b, rfl, rfl⟩ := isBoundary_iff.1 h
  rw [moved_crlf, crlf_append]
  exact isBoundary_byteSize_append _ _

theorem fits_movedSpan {t : Text} {s : Span} (h : Fits t s) : Fits (crlf t) (movedSpan t s) :=
  ⟨moved_le_moved_iff.2 h.le, isBoundary_moved h.start, isBoundary_moved h.stop⟩

/-- A text with returns added is cut at the moved offsets, and what is left is the text that is left of
the first one, with returns added. -/
theorem cut_crlf {ss : List Span} {t : Text} (h : ∀ s ∈ ss, Fits t s) :
    cut (ss.map (movedSpan t)) (crlf t) = crlf (cut ss t) := by
  have hfits : ∀ s ∈ ss.map (movedSpan t), Fits (crlf t) s := by
    intro s hs
    obtain ⟨r, hr, rfl⟩ := List.mem_map.1 hs
    exact fits_movedSpan (h r hr)
  have hzero : moved t 0 = 0 := by simp [moved]
  have hkeep := keep_crlf (a := []) (t := t) (p := fun n => !covers ss n)
    (q := fun n => !covers (ss.map (movedSpan t)) n)
    (fun u c v _ => by rw [List.nil_append, covers_movedSpan])
    (fun u v huv => by
      subst huv
      rw [List.nil_append, List.nil_append, covers_movedSpan_succ])
  rw [List.nil_append, byteSize_nil, hzero] at hkeep
  rw [cut_eq_keep hfits, cut_eq_keep h, hkeep]

/-! ### Blocks -/

theorem map_trimEnd_pieces_crlf (t : Text) :
    (pieces '\n' (crlf t)).map trimEnd = (pieces '\n' t).map trimEnd := by
  induction t with
  | nil => rfl
  | cons c cs ih =>
    by_cases hc : c = '\n'
    · subst hc
      have hreturn : pieces '\n' ('\r' :: '\n' :: crlf cs) = ['\r'] :: pieces '\n' (crlf cs) := by
        simp [pieces]
      have hblank : trimEnd ['\r'] = [] := rfl
      rw [crlf_lineFeed, hreturn, List.map_cons, ih, hblank]
      simp [pieces, trimEnd]
    · rw [crlf_cons hc, pieces, if_neg hc, pieces, if_neg hc]
      cases hx : pieces '\n' (crlf cs) with
      | nil => exact absurd hx (pieces_ne_nil _ _)
      | cons p ps =>
        cases hy : pieces '\n' cs with
        | nil => exact absurd hy (pieces_ne_nil _ _)
        | cons q qs =>
          rw [hx, hy, List.map_cons, List.map_cons] at ih
          obtain ⟨hpq, hps⟩ := List.cons.inj ih
          rw [List.map_cons, List.map_cons, hps, trimEnd, trimEnd, hpq]

/-- The block of a text does not depend on how its lines end. -/
theorem asBlock_crlf (t : Text) : asBlock (crlf t) = asBlock t := by
  unfold asBlock
  rw [map_trimEnd_pieces_crlf]

end Text

end FlatSol
