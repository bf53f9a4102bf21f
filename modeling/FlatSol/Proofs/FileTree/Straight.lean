import FlatSol.Proofs.Path.Components

/-!
# Straight ways

Steps have a lexical target, found by the names and the `..` alone. A way that follows no link ends
there, and if every `..` of the steps leaves a directory that exists, there is such a way. A path whose
steps lead somewhere holds no NUL character, so leading somewhere and being denoted are the same for it.
-/

namespace FlatSol

/-- Where a step leads by the names alone. -/
def Step.target (here : Location) : Step → Location
  | .stay => here
  | .up => here.dropLast
  | .into name => here ++ [name]

/-- Where steps lead by the names alone. -/
def lexical (here : Location) (steps : List Step) : Location :=
  steps.foldl Step.target here

@[simp] theorem lexical_nil (here : Location) : lexical here [] = here := rfl

@[simp] theorem lexical_cons (here : Location) (s : Step) (steps : List Step) :
    lexical here (s :: steps) = lexical (s.target here) steps := rfl

@[simp] theorem lexical_append (here : Location) (xs ys : List Step) :
    lexical here (xs ++ ys) = lexical (lexical here xs) ys :=
  List.foldl_append

@[simp] theorem lexical_names (here : Location) (names : List Text) :
    lexical here (names.map .into) = here ++ names := by
  induction names generalizing here with
  | nil => simp
  | cons n ns ih => simp [Step.target, ih]

theorem lexical_moves (here : Location) (steps : List Step) :
    lexical here (moves steps) = lexical here steps := by
  induction steps generalizing here with
  | nil => rfl
  | cons s steps ih =>
    cases s with
    | stay => exact ih here
    | up => exact ih _
    | into name => exact ih _

/-- Steps either stay below where they start or leave it by a `..` at some point. -/
theorem prefix_lexical_or_left (v : Location) (steps : List Step) :
    v <+: lexical v steps ∨
      ∃ front rest, steps = front ++ .up :: rest ∧ lexical v front = v := by
  induction steps using List.reverseRecOn with
  | nil => exact .inl List.prefix_rfl
  | append_singleton steps s ih =>
    rcases ih with hbelow | ⟨front, rest, rfl, hfront⟩
    · rw [lexical_append]
      cases s with
      | stay => exact .inl hbelow
      | into name => exact .inl (hbelow.trans (List.prefix_append _ _))
      | up =>
        by_cases hat : lexical v steps = v
        · exact .inr ⟨steps, [], rfl, hat⟩
        · obtain ⟨below, hbelow⟩ := hbelow
          have hne : below ≠ [] := by
            rintro rfl
            exact hat (by rw [← hbelow, List.append_nil])
          refine .inl ?_
          simp only [lexical_cons, lexical_nil, Step.target, ← hbelow,
            List.dropLast_append_of_ne_nil hne]
          exact List.prefix_append _ _
    · exact .inr ⟨front, rest ++ [s], by simp, hfront⟩

/-- Steps come into each location around their target a last time, by its name, and stay below it
from then on. -/
theorem exists_last_entry {steps : List Step} {k : Location} (hk : k <+: lexical [] steps) :
    ∃ front rest, steps = front ++ rest ∧ lexical [] front = k ∧
      (front = [] ∨ ∃ init name, front = init ++ [.into name]) ∧
      ∀ next, next <+: rest → k <+: lexical k next := by
  induction steps using List.reverseRecOn with
  | nil =>
    obtain rfl : k = [] := List.prefix_nil.1 hk
    exact ⟨[], [], rfl, rfl, .inl rfl, fun next hnext => by
      rw [List.prefix_nil.1 hnext]
      exact List.prefix_rfl⟩
  | append_singleton steps s ih =>
    -- a last entry for the steps before is one for all of them if the last step stays below
    have hlater : k <+: lexical [] steps → k <+: lexical [] (steps ++ [s]) →
        ∃ front rest, steps ++ [s] = front ++ rest ∧ lexical [] front = k ∧
          (front = [] ∨ ∃ init name, front = init ++ [.into name]) ∧
          ∀ next, next <+: rest → k <+: lexical k next := by
      intro hbefore hafter
      obtain ⟨front, rest, rfl, hfront, hentry, hbelow⟩ := ih hbefore
      refine ⟨front, rest ++ [s], by simp, hfront, hentry, fun next hnext => ?_⟩
      rcases List.prefix_concat_iff.1 hnext with rfl | hnext
      · rwa [List.append_assoc, lexical_append, hfront] at hafter
      · exact hbelow next hnext
    cases s with
    | stay => exact hlater (by simpa [Step.target] using hk) hk
    | up =>
      refine hlater (List.IsPrefix.trans ?_ (List.dropLast_prefix _)) hk
      simpa [Step.target] using hk
    | into name =>
      have hk' : k <+: lexical [] steps ++ [name] := by simpa [Step.target] using hk
      rcases List.prefix_concat_iff.1 hk' with rfl | hbefore
      · refine ⟨steps ++ [.into name], [], by simp, by simp [Step.target],
          .inr ⟨steps, name, rfl⟩, fun next hnext => ?_⟩
        rw [List.prefix_nil.1 hnext]
        exact List.prefix_rfl
      · exact hlater hbefore hk

namespace FileTree

variable {t : FileTree} {p : Path} {n m : Nat} {here l : Location} {steps : List Step}

namespace Way

theorem links_le (w : Way t n here steps m l) : m ≤ n := by
  induction w with
  | done => exact le_rfl
  | stay _ _ ih => exact ih
  | up _ _ ih => exact ih
  | link _ _ _ _ ih => exact ih.trans (Nat.le_succ _)
  | into _ _ _ _ _ ih => exact ih

/-- A way that uses up no link ends where the names lead. -/
theorem eq_lexical (w : Way t n here steps m l) (hm : m = n) : l = lexical here steps := by
  induction w with
  | done => rfl
  | stay _ _ ih => exact ih hm
  | up _ _ ih => exact ih hm
  | link _ _ _ way _ =>
    have hle := way.links_le
    omega
  | into _ _ _ _ _ ih => exact ih hm

/-- No link is followed in a tree without links. -/
theorem links_eq (hlinks : ∀ k target, t.get? k ≠ some (.link target))
    (w : Way t n here steps m l) : m = n := by
  induction w with
  | done => rfl
  | stay _ _ ih => exact ih
  | up _ _ ih => exact ih
  | link _ _ points _ _ => exact absurd points (hlinks _ _)
  | into _ _ _ _ _ ih => exact ih

end Way

namespace WellFormed

theorem nul_notMem_of_way (hw : t.WellFormed) (w : Way t n here steps m l) :
    ∀ name, .into name ∈ steps → '\x00' ∉ name := by
  induction w with
  | done => simp
  | stay _ _ ih => simpa using ih
  | up _ _ ih => simpa using ih
  | @link n m here l rest name target _ _ points _ ih =>
    intro other hmem
    rcases List.mem_cons.1 hmem with hname | hmem
    · obtain rfl := Step.into.inj hname
      exact (hw.proper points other (by simp)).nul
    · exact ih other (List.mem_append_right _ hmem)
  | @into n m here l rest name e _ _ found _ _ ih =>
    intro other hmem
    rcases List.mem_cons.1 hmem with hname | hmem
    · obtain rfl := Step.into.inj hname
      exact (hw.proper found other (by simp)).nul
    · exact ih other hmem

end WellFormed

theorem nul_notMem_of_steps (h : ∀ name, .into name ∈ p.steps → '\x00' ∉ name) :
    '\x00' ∉ p.text := by
  intro hmem
  rw [← Text.joinWith_pieces '/' p.text] at hmem
  rcases Text.mem_joinWith hmem with hsep | ⟨piece, hpiece, hnul⟩
  · exact absurd hsep (by decide)
  · have hstep := List.mem_map_of_mem (f := Step.ofPiece) hpiece
    unfold Step.ofPiece at hstep
    split at hstep
    · next hidle =>
      simp only [Path.isIdle, Bool.or_eq_true, beq_iff_eq] at hidle
      rcases hidle with rfl | rfl <;> exact absurd hnul (by decide)
    · split at hstep
      · next hup =>
        obtain rfl : piece = ['.', '.'] := by simpa using hup
        exact absurd hnul (by decide)
      · exact h piece hstep hnul

namespace WellFormed

theorem canonical_of_way (hw : t.WellFormed) (hp : p.text ≠ []) {start : Location}
    (ho : t.origin p = .ok start) (w : Way t maxLinks start p.steps m l) :
    t.canonical? p = some l :=
  canonical?_eq_some_iff.2
    ⟨nul_notMem_of_steps (hw.nul_notMem_of_way w), hp, start, m, ho, w⟩

/-- A path denotes a directory exactly if its moves lead there. -/
theorem canonical_dir_iff (hw : t.WellFormed) (hp : p.text ≠ []) :
    (t.canonical? p = some l ∧ t.get? l = some .dir) ↔ t.Leads p (moves p.steps) l := by
  constructor
  · rintro ⟨h, hd⟩
    obtain ⟨-, -, start, m, ho, w⟩ := canonical?_eq_some_iff.1 h
    exact leads_of_walk ho w.walk_eq hd
  · intro h
    obtain ⟨start, m, ho, w⟩ := h.walk_eq
    exact ⟨hw.canonical_of_way hp ho w, h.dir⟩

end WellFormed

/-! ### Steps past no link -/

/-- No way along the steps from the root follows a link. -/
def Straight (t : FileTree) (steps : List Step) : Prop :=
  ∀ front m l, front <+: steps → Way t maxLinks [] front m l → m = maxLinks

theorem Straight.mono {front : List Step} (h : t.Straight steps) (hf : front <+: steps) :
    t.Straight front :=
  fun front' m l hf' w => h front' m l (hf'.trans hf) w

theorem straight_of_linkFree (hlinks : ∀ k target, t.get? k ≠ some (.link target)) :
    t.Straight steps :=
  fun _ _ _ _ w => w.links_eq hlinks

theorem WellFormed.straight_names (hw : t.WellFormed) (hl : t.Stands l) :
    t.Straight (l.map .into) := by
  rintro front m k hfront w
  obtain ⟨names, ⟨rest, hrest⟩, rfl⟩ := List.prefix_map_iff.1 hfront
  have hnames : t.Stands ([] ++ names) := by
    obtain ⟨e, he, hlink⟩ := hl
    cases rest with
    | nil =>
      rw [List.append_nil] at hrest
      exact ⟨e, by rwa [List.nil_append, hrest], hlink⟩
    | cons name rest =>
      rw [← hrest] at he
      exact stands_of_dir (hw.dir_of_append he)
  exact (w.unique (hw.way_names maxLinks hnames)).1

section Absolute

variable (ha : p.isAbsolute = true)
include ha

theorem Straight.way_of_leads (hs : t.Straight steps) (h : t.Leads p steps l) :
    Way t maxLinks [] steps maxLinks l ∧ l = lexical [] steps := by
  obtain ⟨start, m, ho, w, -⟩ := h
  rw [origin, if_pos ha] at ho
  obtain rfl := Except.ok.inj ho
  obtain rfl := hs steps m l List.prefix_rfl w
  exact ⟨w, w.eq_lexical rfl⟩

/-- Steps whose every `..` leaves a directory that exists lead where their names do, if that is a
directory. -/
theorem Straight.leads_lexical (hw : t.WellFormed) (hs : t.Straight steps)
    (climbs : ∀ front rest, steps = front ++ .up :: rest → ∃ l, t.Leads p front l)
    (hd : t.get? (lexical [] steps) = some .dir) : t.Leads p steps (lexical [] steps) := by
  induction steps using List.reverseRecOn with
  | nil => exact ⟨[], maxLinks, by rw [origin, if_pos ha], .done, hd⟩
  | append_singleton steps s ih =>
    have hs' : t.Straight steps := hs.mono (List.prefix_append _ _)
    have hclimbs : ∀ front rest, steps = front ++ .up :: rest → ∃ l, t.Leads p front l :=
      fun front rest h => climbs front (rest ++ [s]) (by simp [h])
    rw [lexical_append] at hd ⊢
    cases s with
    | stay =>
      obtain ⟨start, m, ho, w, hdir⟩ := ih hs' hclimbs hd
      exact ⟨start, m, ho, w.append (.stay hdir .done), hd⟩
    | up =>
      obtain ⟨l, hl⟩ := climbs steps [] rfl
      obtain rfl := (hs'.way_of_leads ha hl).2
      obtain ⟨start, m, ho, w, hdir⟩ := hl
      exact ⟨start, m, ho, w.append (.up hdir .done), hd⟩
    | into name =>
      have hdir := hw.dir_dropLast hd
      simp only [lexical_cons, lexical_nil, Step.target, List.dropLast_concat] at hd hdir ⊢
      exact (ih hs' hclimbs hdir).into (hw.proper hd name (by simp)).size hd

end Absolute

end FileTree

end FlatSol
